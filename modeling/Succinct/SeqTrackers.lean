import Succinct.LinkedLists
import Succinct.RecordStore
import Mathlib.Data.List.Perm.Subperm
import Mathlib.Order.Bounds.Defs

/-!
SeqTracker.java: the sequence numbers that were seen, as a linked list of ranges.
The numbers are ints, and sums with them wrap around. The links are always those
of a list of ranges, and what a call does to that list is said without them. As
long as no sum wraps around the ranges are an exact set of numbers.
-/
namespace Succinct.SeqTrackers

open LinkedLists
open RecordStore (toInt toInt_small)

/-- The first and the last number of a Range; its links are those of its node. -/
structure Interval where
  first : ℤ
  last : ℤ
  deriving DecidableEq

abbrev SeqTracker := DList Interval

def newTracker : SeqTracker := ⟨fun _ => ⟨none, none, ⟨0, 0⟩⟩, 0, none, none⟩

def nextMissing (t : SeqTracker) : ℤ :=
  match t.head with
  | none => 0
  | some r =>
    if (t.heap r).value.first ≠ 0 then 0 else toInt ((t.heap r).value.last + 1)

def insert (t : SeqTracker) (seq : ℤ) (prev next : Option ℕ) : SeqTracker :=
  t.insertBetween prev next ⟨seq, seq⟩

def merge (t : SeqTracker) (prev next : Option ℕ) : SeqTracker :=
  match prev, next with
  | some p, some n =>
    if toInt ((t.heap p).value.last + 1) ≠ (t.heap n).value.first then t
    else (t.put p { (t.heap p).value with last := (t.heap n).value.last }).unlinkAfter p n
  | _, _ => t

/-- The loop of received from a node on; none is a loop that takes more turns. -/
def receivedLoop (t : SeqTracker) (seq : ℤ) : ℕ → Option ℕ → Option (Bool × SeqTracker)
  | _, none => some (true, insert t seq t.tail none)
  | 0, some _ => none
  | fuel + 1, some n =>
    let range := (t.heap n).value
    if range.first ≤ seq ∧ seq ≤ range.last then some (false, t)
    else if seq = toInt (range.first - 1) then
      some (true, merge (t.put n { range with first := toInt (range.first - 1) })
        (t.heap n).prev (some n))
    else if seq < range.first then some (true, insert t seq (t.heap n).prev (some n))
    else if seq = toInt (range.last + 1) then
      some (true, merge (t.put n { range with last := toInt (range.last + 1) })
        (some n) (t.heap n).next)
    else receivedLoop t seq fuel (t.heap n).next

/-- There are not more nodes than were made. -/
def received (t : SeqTracker) (seq : ℤ) : Option (Bool × SeqTracker) :=
  receivedLoop t seq t.fresh t.head

def mergeRanges (left right : List Interval) : List Interval :=
  match left.getLast?, right with
  | some p, n :: rest =>
    if toInt (p.last + 1) = n.first
      then left.dropLast ++ ⟨p.first, n.last⟩ :: rest else left ++ right
  | _, _ => left ++ right

def receiveFrom (seq : ℤ) (left : List Interval) : List Interval → Bool × List Interval
  | [] => (true, left ++ [⟨seq, seq⟩])
  | n :: rest =>
    if n.first ≤ seq ∧ seq ≤ n.last then (false, left ++ n :: rest)
    else if seq = toInt (n.first - 1) then
      (true, mergeRanges left ({ n with first := toInt (n.first - 1) } :: rest))
    else if seq < n.first then (true, left ++ ⟨seq, seq⟩ :: n :: rest)
    else if seq = toInt (n.last + 1) then
      (true, mergeRanges (left ++ [{ n with last := toInt (n.last + 1) }]) rest)
    else receiveFrom seq (left ++ [n]) rest

def receive (seq : ℤ) (ranges : List Interval) : Bool × List Interval := receiveFrom seq [] ranges

def missing : List Interval → ℤ
  | [] => 0
  | r :: _ => if r.first ≠ 0 then 0 else toInt (r.last + 1)

def ranges (cells : List (ℕ × Interval)) : List Interval := cells.map Prod.snd

@[simp] theorem ranges_append (xs ys : List (ℕ × Interval)) :
    ranges (xs ++ ys) = ranges xs ++ ranges ys :=
  List.map_append

@[simp] theorem ranges_cons (c : ℕ × Interval) (cells : List (ℕ × Interval)) :
    ranges (c :: cells) = c.2 :: ranges cells := rfl

theorem mergeRanges_nil_left (right : List Interval) : mergeRanges [] right = right := rfl

theorem mergeRanges_nil_right (left : List Interval) : mergeRanges left [] = left := by
  unfold mergeRanges
  split
  case h_1 h =>
    cases h
  case h_2 =>
    exact List.append_nil left

theorem mergeRanges_concat (left : List Interval) (p n : Interval) (rest : List Interval) :
    mergeRanges (left ++ [p]) (n :: rest) =
      if toInt (p.last + 1) = n.first then left ++ ⟨p.first, n.last⟩ :: rest
      else left ++ p :: n :: rest := by
  simp [mergeRanges]

section Refinement

variable {t : SeqTracker} {xs ys : List (ℕ × Interval)}

def Tracks (t : SeqTracker) (rs : List Interval) : Prop :=
  ∃ cells, t.Holds cells ∧ ranges cells = rs

/-- The range of the last node of a segment. -/
theorem value_last {heap : Heap Interval} {before p last after : Option ℕ} {c : ℕ × Interval}
    (h : Seg heap before p (xs ++ [c]) last after) : (heap c.1).value = c.2 := by
  obtain ⟨_, _, -, -, -, hvalue, -⟩ := (seg_append xs [c]).mp h
  exact hvalue

theorem merge_tracks (h : t.Holds (xs ++ ys)) {m q : Option ℕ}
    (hleft : Seg t.heap none t.head xs m q) (hright : Seg t.heap m q ys t.tail none) :
    Tracks (merge t m q) (mergeRanges (ranges xs) (ranges ys)) := by
  rcases List.eq_nil_or_concat xs with rfl | ⟨xs', c, rfl⟩
  · obtain ⟨-, rfl⟩ := hleft
    exact ⟨ys, h, rfl⟩
  rw [List.concat_eq_append] at h hleft ⊢
  obtain rfl := hleft.last_eq
  cases ys with
  | nil =>
    obtain ⟨rfl, -⟩ := hright
    rw [List.append_nil] at h
    exact ⟨xs' ++ [c], h, (mergeRanges_nil_right _).symm⟩
  | cons d ys =>
    obtain ⟨hq, -, hd, -⟩ := hright
    subst hq
    have hc := value_last hleft
    have hjoin : xs' ++ [c] ++ d :: ys = xs' ++ c :: d :: ys := by simp
    rw [hjoin] at h
    have hranges : ranges (xs' ++ [c]) = ranges xs' ++ [c.2] := by simp [ranges]
    rw [hranges, ranges_cons, mergeRanges_concat, merge]
    dsimp only
    rw [hc, hd]
    by_cases hgap : toInt (c.2.last + 1) = d.2.first
    · rw [if_neg (not_not.mpr hgap), if_pos hgap]
      have hput := h.put { c.2 with last := d.2.last }
      refine ⟨_, hput.unlinkAfter, ?_⟩
      rw [ranges_append, ranges_cons]
    · rw [if_pos hgap, if_neg hgap]
      refine ⟨_, h, ?_⟩
      rw [ranges_append, ranges_cons, ranges_cons]

theorem put_node (t : SeqTracker) (r : ℕ) (v : Interval) :
    (t.put r v).heap r = { t.heap r with value := v } := Function.update_self ..

/-- The loop from the node on at which the list is cut in two. -/
theorem receivedLoop_tracks (h : t.Holds (xs ++ ys)) {m q : Option ℕ}
    (hleft : Seg t.heap none t.head xs m q) (hright : Seg t.heap m q ys t.tail none) (seq : ℤ)
    {fuel : ℕ} (hfuel : ys.length ≤ fuel) :
    ∃ t', receivedLoop t seq fuel q = some ((receiveFrom seq (ranges xs) (ranges ys)).1, t') ∧
      Tracks t' (receiveFrom seq (ranges xs) (ranges ys)).2 := by
  induction ys generalizing xs m q fuel with
  | nil =>
    obtain ⟨rfl, htail⟩ := hright
    rw [receivedLoop.eq_def]
    subst htail
    refine ⟨_, rfl, _, h.insertBetween hleft ⟨rfl, rfl⟩ ⟨seq, seq⟩, ?_⟩
    rw [ranges_append]
    rfl
  | cons c ys ih =>
    obtain ⟨fuel, rfl⟩ : ∃ fuel', fuel = fuel' + 1 :=
      ⟨fuel - 1, by rw [List.length_cons] at hfuel; omega⟩
    obtain ⟨hq, hprev, hvalue, hrest⟩ := hright
    subst hq
    rw [receivedLoop, ranges_cons, receiveFrom, hvalue]
    by_cases hin : c.2.first ≤ seq ∧ seq ≤ c.2.last
    · rw [if_pos hin, if_pos hin]
      exact ⟨t, rfl, _, h, by rw [ranges_append, ranges_cons]⟩
    rw [if_neg hin, if_neg hin]
    by_cases hbefore : seq = toInt (c.2.first - 1)
    · rw [if_pos hbefore, if_pos hbefore]
      refine ⟨_, rfl, ?_⟩
      have hput := h.put { c.2 with first := toInt (c.2.first - 1) }
      obtain ⟨m', q', hleft', hright'⟩ := (seg_append _ _).mp hput.seg
      obtain rfl : (t.heap c.1).prev = m' := by
        rw [← hright'.2.1, put_node]
      obtain rfl := hright'.1
      have hmerge := merge_tracks hput hleft' hright'
      rwa [ranges_cons] at hmerge
    rw [if_neg hbefore, if_neg hbefore]
    by_cases hless : seq < c.2.first
    · rw [if_pos hless, if_pos hless, hprev]
      refine ⟨_, rfl, _, h.insertBetween hleft ⟨rfl, hprev, hvalue, hrest⟩ ⟨seq, seq⟩, ?_⟩
      rw [ranges_append, ranges_cons, ranges_cons]
    rw [if_neg hless, if_neg hless]
    by_cases hafter : seq = toInt (c.2.last + 1)
    · rw [if_pos hafter, if_pos hafter]
      refine ⟨_, rfl, ?_⟩
      have hput := h.put { c.2 with last := toInt (c.2.last + 1) }
      have hsplit : xs ++ (c.1, { c.2 with last := toInt (c.2.last + 1) }) :: ys =
          (xs ++ [(c.1, { c.2 with last := toInt (c.2.last + 1) })]) ++ ys := by
        simp
      rw [hsplit] at hput
      obtain ⟨m', q', hleft', hright'⟩ := (seg_append _ _).mp hput.seg
      obtain rfl : (t.heap c.1).next = q' := by
        rw [← hleft'.after_eq, put_node]
      obtain rfl := hleft'.last_eq
      have hmerge := merge_tracks hput hleft' hright'
      rwa [ranges_append] at hmerge
    rw [if_neg hafter, if_neg hafter]
    have hjoin : xs ++ c :: ys = (xs ++ [c]) ++ ys := by simp
    have hleft' : Seg t.heap none t.head (xs ++ [c]) (some c.1) (t.heap c.1).next :=
      (seg_append xs [c]).mpr ⟨m, some c.1, hleft, rfl, hprev, hvalue, rfl, rfl⟩
    have hfuel' : ys.length ≤ fuel := by
      rw [List.length_cons] at hfuel
      omega
    have hnext := ih (hjoin ▸ h) hleft' hrest hfuel'
    rw [ranges_append] at hnext
    exact hnext

theorem length_le_fresh {cells : List (ℕ × Interval)} (h : t.Holds cells) :
    cells.length ≤ t.fresh := by
  have hsub : refs cells ⊆ List.range t.fresh := fun r hr => List.mem_range.mpr (h.fresh r hr)
  have hle := (List.subperm_of_subset h.nodup hsub).length_le
  rwa [List.length_range, refs, List.length_map] at hle

/-- A call always ends, and does to the ranges what receive says. -/
theorem received_tracks {rs : List Interval} (h : Tracks t rs) (seq : ℤ) :
    ∃ t', received t seq = some ((receive seq rs).1, t') ∧ Tracks t' (receive seq rs).2 := by
  obtain ⟨cells, hcells, rfl⟩ := h
  have hall : t.Holds ([] ++ cells) := hcells
  have hstart : Seg t.heap none t.head [] none t.head := ⟨rfl, rfl⟩
  exact receivedLoop_tracks hall hstart hcells.seg seq (length_le_fresh hcells)

def rangesFrom (t : SeqTracker) : ℕ → Option ℕ → List Interval
  | fuel + 1, some n => (t.heap n).value :: rangesFrom t fuel (t.heap n).next
  | _, _ => []

def rangesOf (t : SeqTracker) : List Interval := rangesFrom t t.fresh t.head

theorem rangesFrom_eq {cells : List (ℕ × Interval)} {m q last : Option ℕ}
    (h : Seg t.heap m q cells last none) {fuel : ℕ} (hfuel : cells.length ≤ fuel) :
    rangesFrom t fuel q = ranges cells := by
  induction cells generalizing m q fuel with
  | nil =>
    obtain ⟨rfl, -⟩ := h
    cases fuel <;> rfl
  | cons c cells ih =>
    obtain ⟨rfl, -, hvalue, hrest⟩ := h
    rw [List.length_cons] at hfuel
    obtain ⟨fuel, rfl⟩ : ∃ fuel', fuel = fuel' + 1 := ⟨fuel - 1, by omega⟩
    rw [rangesFrom, hvalue, ih hrest (by omega)]
    rfl

theorem rangesOf_eq {rs : List Interval} (h : Tracks t rs) : rangesOf t = rs := by
  obtain ⟨cells, hcells, rfl⟩ := h
  exact rangesFrom_eq hcells.seg (length_le_fresh hcells)

theorem newTracker_tracks : Tracks newTracker [] :=
  ⟨[], ⟨⟨rfl, rfl⟩, List.nodup_nil, fun _ h => absurd h List.not_mem_nil⟩, rfl⟩

theorem nextMissing_eq {rs : List Interval} (h : Tracks t rs) : nextMissing t = missing rs := by
  obtain ⟨cells, hcells, rfl⟩ := h
  have hseg := hcells.seg
  cases cells with
  | nil =>
    rw [nextMissing, hseg.1]
    rfl
  | cons c cells =>
    obtain ⟨hhead, -, hvalue, -⟩ := hseg
    rw [nextMissing, hhead]
    dsimp only
    rw [hvalue]
    rfl

end Refinement

def Mem (n : ℤ) (rs : List Interval) : Prop := ∃ r ∈ rs, r.first ≤ n ∧ n ≤ r.last

theorem mem_cons (n : ℤ) (r : Interval) (rs : List Interval) :
    Mem n (r :: rs) ↔ (r.first ≤ n ∧ n ≤ r.last) ∨ Mem n rs := by
  simp [Mem]

theorem mem_append (n : ℤ) (xs ys : List Interval) : Mem n (xs ++ ys) ↔ Mem n xs ∨ Mem n ys := by
  simp [Mem, or_and_right, exists_or]

/-- A range of ints below the greatest one, which no sum with them reaches. -/
def Bounded (r : Interval) : Prop := 0 ≤ r.first ∧ r.first ≤ r.last ∧ r.last < 2147483647

/-- Ranges that are increasing, and neither overlap nor touch each other. -/
structure Normal (rs : List Interval) : Prop where
  apart : rs.Pairwise fun a b => a.last + 1 < b.first
  bounded : ∀ r ∈ rs, Bounded r

theorem normal_middle (left : List Interval) (c : Interval) (rest : List Interval) :
    Normal (left ++ c :: rest) ↔ Normal (left ++ rest) ∧ Bounded c ∧
      (∀ a ∈ left, a.last + 1 < c.first) ∧ ∀ b ∈ rest, c.last + 1 < b.first := by
  constructor
  · rintro ⟨hapart, hbounded⟩
    rw [List.pairwise_append, List.pairwise_cons] at hapart
    obtain ⟨hleft, ⟨hc, hrest⟩, hcross⟩ := hapart
    refine ⟨⟨List.pairwise_append.mpr ⟨hleft, hrest, ?_⟩, ?_⟩, ?_, ?_, hc⟩
    · intro a ha b hb
      exact hcross a ha b (List.mem_cons_of_mem c hb)
    · intro r hr
      refine hbounded r ?_
      rw [List.mem_append] at hr ⊢
      exact hr.imp_right (List.mem_cons_of_mem c)
    · exact hbounded c (List.mem_append_right _ List.mem_cons_self)
    · intro a ha
      exact hcross a ha c List.mem_cons_self
  · rintro ⟨⟨hapart, hbounded⟩, hc, hbefore, hafter⟩
    rw [List.pairwise_append] at hapart
    obtain ⟨hleft, hrest, hcross⟩ := hapart
    refine ⟨List.pairwise_append.mpr ⟨hleft, List.pairwise_cons.mpr ⟨hafter, hrest⟩, ?_⟩, ?_⟩
    · intro a ha b hb
      rcases List.mem_cons.mp hb with rfl | hb
      · exact hbefore a ha
      · exact hcross a ha b hb
    · intro r hr
      rcases List.mem_append.mp hr with hr | hr
      · exact hbounded r (List.mem_append_left _ hr)
      · rcases List.mem_cons.mp hr with rfl | hr
        · exact hc
        · exact hbounded r (List.mem_append_right _ hr)

theorem mergeRanges_apart {left : List Interval} {n : Interval} {rest : List Interval}
    (h : ∀ a ∈ left, toInt (a.last + 1) ≠ n.first) :
    mergeRanges left (n :: rest) = left ++ n :: rest := by
  rcases List.eq_nil_or_concat left with rfl | ⟨left', p, rfl⟩
  · rfl
  · rw [List.concat_eq_append] at h ⊢
    have hp := h p (List.mem_append_right _ List.mem_cons_self)
    rw [mergeRanges_concat, if_neg hp]
    simp

structure Receives (seq : ℤ) (rs : List Interval) (result : Bool × List Interval) : Prop where
  normal : Normal result.2
  mem : ∀ n, Mem n result.2 ↔ n = seq ∨ Mem n rs
  returned : result.1 = true ↔ ¬ Mem seq rs

/-- A range that takes in one number more. -/
theorem mem_widen {c c' : Interval} {seq : ℤ}
    (h : ∀ n, (c'.first ≤ n ∧ n ≤ c'.last) ↔ n = seq ∨ (c.first ≤ n ∧ n ≤ c.last))
    (left rest : List Interval) (n : ℤ) :
    Mem n (left ++ c' :: rest) ↔ n = seq ∨ Mem n (left ++ c :: rest) := by
  rw [mem_append, mem_append, mem_cons, mem_cons, h n]
  tauto

theorem mem_insert (seq : ℤ) (left rest : List Interval) (n : ℤ) :
    Mem n (left ++ ⟨seq, seq⟩ :: rest) ↔ n = seq ∨ Mem n (left ++ rest) := by
  have hseq : (seq ≤ n ∧ n ≤ seq) ↔ n = seq := by omega
  rw [mem_append, mem_append, mem_cons, hseq]
  tauto

/-- A range that takes in the number behind it may touch the next one. -/
theorem widened_normal {seq : ℤ} {left : List Interval} {c : Interval} {rest : List Interval}
    (h : Normal (left ++ c :: rest)) (hnext : seq = c.last + 1) (hmax : seq < 2147483647) :
    Normal (mergeRanges (left ++ [{ c with last := c.last + 1 }]) rest) ∧
      ∀ n, Mem n (mergeRanges (left ++ [{ c with last := c.last + 1 }]) rest) ↔
        n = seq ∨ Mem n (left ++ c :: rest) := by
  obtain ⟨hrest, ⟨hfirst, hordered, hlast⟩, hbefore, hafter⟩ := (normal_middle left c rest).mp h
  have hwide : Bounded { c with last := c.last + 1 } :=
    ⟨hfirst, by dsimp only; omega, by dsimp only; omega⟩
  have hmem : ∀ n, Mem n (left ++ { c with last := c.last + 1 } :: rest) ↔
      n = seq ∨ Mem n (left ++ c :: rest) := by
    refine mem_widen (fun n => ?_) left rest
    dsimp only
    omega
  cases rest with
  | nil =>
    rw [mergeRanges_nil_right]
    refine ⟨?_, hmem⟩
    exact (normal_middle left _ []).mpr
      ⟨hrest, hwide, hbefore, fun b hb => absurd hb List.not_mem_nil⟩
  | cons d rest =>
    obtain ⟨hrest', ⟨hdfirst, hdordered, hdlast⟩, hdbefore, hdafter⟩ :=
      (normal_middle left d rest).mp hrest
    have hgap := hafter d List.mem_cons_self
    rw [mergeRanges_concat, toInt_small _ (by dsimp only; omega) (by dsimp only; omega)]
    by_cases htouch : c.last + 1 + 1 = d.first
    · rw [if_pos htouch]
      refine ⟨?_, ?_⟩
      · refine (normal_middle left _ rest).mpr ⟨hrest', ⟨hfirst, ?_, hdlast⟩, hbefore, hdafter⟩
        dsimp only
        omega
      · intro n
        have hone : (c.first ≤ n ∧ n ≤ d.last) ↔
            n = seq ∨ (c.first ≤ n ∧ n ≤ c.last) ∨ (d.first ≤ n ∧ n ≤ d.last) := by omega
        rw [mem_append, mem_append, mem_cons, mem_cons, mem_cons, hone, or_assoc,
          or_left_comm, or_assoc]
    · rw [if_neg htouch]
      refine ⟨(normal_middle left _ (d :: rest)).mpr ⟨hrest, hwide, hbefore, ?_⟩, hmem⟩
      intro b hb
      dsimp only
      rcases List.mem_cons.mp hb with rfl | hb
      · omega
      · have hlt := hdafter b hb
        omega

theorem receiveFrom_receives {seq : ℤ} (hmin : 0 ≤ seq) (hmax : seq < 2147483647)
    (left rest : List Interval) (h : Normal (left ++ rest))
    (hleft : ∀ r ∈ left, r.last + 1 < seq) :
    Receives seq (left ++ rest) (receiveFrom seq left rest) := by
  have hseq : Bounded ⟨seq, seq⟩ := ⟨hmin, le_refl _, hmax⟩
  have hnotleft : ¬ Mem seq left := by
    rintro ⟨r, hr, -, hle⟩
    have := hleft r hr
    omega
  induction rest generalizing left with
  | nil =>
    rw [receiveFrom]
    refine ⟨(normal_middle left ⟨seq, seq⟩ []).mpr
      ⟨h, hseq, hleft, fun b hb => absurd hb List.not_mem_nil⟩,
      mem_insert seq left [], ?_⟩
    rw [List.append_nil]
    exact iff_of_true rfl hnotleft
  | cons c rest ih =>
    obtain ⟨hrest, hc, hbefore, hafter⟩ := (normal_middle left c rest).mp h
    have hnotrest : seq ≤ c.last + 1 → ¬ Mem seq rest := by
      rintro hle ⟨r, hr, hge, -⟩
      have := hafter r hr
      omega
    have hnot : ¬ (c.first ≤ seq ∧ seq ≤ c.last) → seq ≤ c.last + 1 →
      ¬ Mem seq (left ++ c :: rest) := by
      intro hout hle
      rw [mem_append, mem_cons]
      rintro (hmem | hmem | hmem)
      · exact hnotleft hmem
      · exact hout hmem
      · exact hnotrest hle hmem
    obtain ⟨hfirst, hordered, hlast⟩ := hc
    have hpred : toInt (c.first - 1) = c.first - 1 := toInt_small _ (by omega) (by omega)
    have hsucc : toInt (c.last + 1) = c.last + 1 := toInt_small _ (by omega) (by omega)
    rw [receiveFrom, hpred, hsucc]
    by_cases hin : c.first ≤ seq ∧ seq ≤ c.last
    · have hmem : Mem seq (left ++ c :: rest) := by
        rw [mem_append, mem_cons]
        exact Or.inr (Or.inl hin)
      rw [if_pos hin]
      refine ⟨h, ?_, iff_of_false Bool.false_ne_true (not_not.mpr hmem)⟩
      intro n
      constructor
      · exact Or.inr
      · rintro (rfl | hn)
        · exact hmem
        · exact hn
    rw [if_neg hin]
    by_cases hprev : seq = c.first - 1
    · have hapart : ∀ a ∈ left, toInt (a.last + 1) ≠ c.first - 1 := by
        intro a ha
        have hlt := hleft a ha
        have hbound := hrest.bounded a (List.mem_append_left _ ha)
        rw [toInt_small _ (by have := hbound.1; have := hbound.2.1; omega)
          (by have := hbound.2.2; omega)]
        omega
      rw [if_pos hprev, mergeRanges_apart hapart]
      refine ⟨?_, ?_, iff_of_true rfl (hnot hin (by omega))⟩
      · refine (normal_middle left _ rest).mpr ⟨hrest, ⟨?_, ?_, hlast⟩, ?_, hafter⟩
        · dsimp only
          omega
        · dsimp only
          omega
        · intro a ha
          have hlt := hleft a ha
          dsimp only
          omega
      · refine mem_widen (fun n => ?_) left rest
        dsimp only
        omega
    rw [if_neg hprev]
    by_cases hless : seq < c.first
    · rw [if_pos hless]
      refine ⟨?_, mem_insert seq left (c :: rest), iff_of_true rfl (hnot hin (by omega))⟩
      refine (normal_middle left ⟨seq, seq⟩ (c :: rest)).mpr ⟨h, hseq, hleft, ?_⟩
      intro b hb
      dsimp only
      rcases List.mem_cons.mp hb with rfl | hb
      · omega
      · have hlt := hafter b hb
        omega
    rw [if_neg hless]
    by_cases hnext : seq = c.last + 1
    · rw [if_pos hnext]
      refine ⟨?_, ?_, iff_of_true rfl (hnot hin (by omega))⟩
      · exact (widened_normal h hnext hmax).1
      · exact (widened_normal h hnext hmax).2
    rw [if_neg hnext]
    have hjoin : left ++ c :: rest = (left ++ [c]) ++ rest := by simp
    rw [hjoin] at h ⊢
    have hpast : ∀ r ∈ left ++ [c], r.last + 1 < seq := by
      intro r hr
      rcases List.mem_append.mp hr with hr | hr
      · exact hleft r hr
      · obtain rfl := List.mem_singleton.mp hr
        omega
    refine ih (left ++ [c]) h hpast ?_
    rintro ⟨r, hr, -, hle⟩
    have := hpast r hr
    omega

theorem receive_receives {seq : ℤ} (hmin : 0 ≤ seq) (hmax : seq < 2147483647) {rs : List Interval}
    (h : Normal rs) : Receives seq rs (receive seq rs) :=
  receiveFrom_receives hmin hmax [] rs h fun _ hr => absurd hr List.not_mem_nil

theorem missing_isLeast {rs : List Interval} (h : Normal rs) :
    IsLeast { n : ℤ | 0 ≤ n ∧ ¬ Mem n rs } (missing rs) := by
  cases rs with
  | nil => exact ⟨⟨le_refl _, by simp [missing, Mem]⟩, fun n hn => hn.1⟩
  | cons r rs =>
    obtain ⟨hrest, ⟨hfirst, hordered, hlast⟩, -, hafter⟩ := (normal_middle [] r rs).mp h
    rw [missing]
    by_cases hzero : r.first = 0
    · rw [if_neg (not_not.mpr hzero), toInt_small _ (by omega) (by omega)]
      refine ⟨⟨by omega, ?_⟩, ?_⟩
      · rw [mem_cons]
        rintro (⟨-, hle⟩ | ⟨b, hb, hle, -⟩)
        · omega
        · have hlt := hafter b hb
          omega
      · rintro n ⟨hn, hnot⟩
        rw [mem_cons, not_or] at hnot
        omega
    · rw [if_pos hzero]
      refine ⟨⟨le_refl _, ?_⟩, fun n hn => hn.1⟩
      rw [mem_cons]
      rintro (⟨hle, -⟩ | ⟨b, hb, hle, -⟩)
      · omega
      · have hlt := hafter b hb
        omega

def receiveAll : List ℤ → SeqTracker → Option (List Bool × SeqTracker)
  | [], t => some ([], t)
  | seq :: seqs, t => do
    let (result, t) ← received t seq
    let (results, t) ← receiveAll seqs t
    some (result :: results, t)

def firstTimes (seen : List ℤ) : List ℤ → List Bool
  | [] => []
  | seq :: seqs => decide (seq ∉ seen) :: firstTimes (seq :: seen) seqs

theorem receiveAll_set (seqs : List ℤ) {seen : List ℤ} {t : SeqTracker} {rs : List Interval}
    (htracks : Tracks t rs) (hnormal : Normal rs) (hmem : ∀ n, Mem n rs ↔ n ∈ seen)
    (hseqs : ∀ seq ∈ seqs, 0 ≤ seq ∧ seq < 2147483647) :
    ∃ t' rs', receiveAll seqs t = some (firstTimes seen seqs, t') ∧ Tracks t' rs' ∧ Normal rs' ∧
      ∀ n, Mem n rs' ↔ n ∈ seen ∨ n ∈ seqs := by
  induction seqs generalizing seen t rs with
  | nil =>
    refine ⟨t, rs, rfl, htracks, hnormal, fun n => ?_⟩
    rw [hmem n]
    simp
  | cons seq seqs ih =>
    obtain ⟨hmin, hmax⟩ := hseqs seq List.mem_cons_self
    obtain ⟨t₁, hreceived, htracks₁⟩ := received_tracks htracks seq
    obtain ⟨hnormal₁, hmem₁, hreturned⟩ := receive_receives hmin hmax hnormal
    have hseen : ∀ n, Mem n (receive seq rs).2 ↔ n ∈ seq :: seen := by
      intro n
      rw [hmem₁ n, hmem n, List.mem_cons]
    obtain ⟨t₂, rs₂, hall, htracks₂, hnormal₂, hmem₂⟩ := ih htracks₁ hnormal₁ hseen
      fun n hn => hseqs n (List.mem_cons_of_mem seq hn)
    refine ⟨t₂, rs₂, ?_, htracks₂, hnormal₂, fun n => ?_⟩
    · have hresult : (receive seq rs).1 = decide (seq ∉ seen) := by
        rw [Bool.eq_iff_iff, hreturned, decide_eq_true_eq, hmem seq]
      rw [receiveAll, hreceived, hresult]
      simp only [Option.bind_eq_bind, Option.bind_some, hall]
      rfl
    · rw [hmem₂ n, List.mem_cons, List.mem_cons]
      tauto

/-- Whatever numbers are received, in whatever order: every call ends, and the
links are those of a list of ranges, which are apart from each other and hold
exactly the numbers received. A call returns whether its number is new, and
nextMissing gives the least number that is missing. -/
theorem tracker_is_set (seqs : List ℤ) (hseqs : ∀ seq ∈ seqs, 0 ≤ seq ∧ seq < 2147483647) :
    ∃ t cells, receiveAll seqs newTracker = some (firstTimes [] seqs, t) ∧
      t.Holds cells ∧ Normal (ranges cells) ∧ (∀ n, Mem n (ranges cells) ↔ n ∈ seqs) ∧
      IsLeast { n : ℤ | 0 ≤ n ∧ n ∉ seqs } (nextMissing t) := by
  have hempty : ∀ n, Mem n [] ↔ n ∈ ([] : List ℤ) := by simp [Mem]
  have hnormal : Normal [] := ⟨List.Pairwise.nil, fun _ h => absurd h List.not_mem_nil⟩
  obtain ⟨t, rs, hall, htracks, hnormal', hmem⟩ :=
    receiveAll_set seqs newTracker_tracks hnormal hempty hseqs
  have hmissing := nextMissing_eq htracks
  have hleast := missing_isLeast hnormal'
  obtain ⟨cells, hholds, rfl⟩ := htracks
  have hmem' : ∀ n, Mem n (ranges cells) ↔ n ∈ seqs := by simpa using hmem
  simp only [hmem'] at hleast
  exact ⟨t, cells, hall, hholds, hnormal', hmem', hmissing ▸ hleast⟩

/-- The numbers of testSeq. -/
theorem tracker_is_set_test : ∃ t cells,
    receiveAll [1, 2, 2, 0, 5, 4, 7, 3, 4, 6] newTracker =
      some ([true, true, false, true, true, true, true, true, false, true], t) ∧
    t.Holds cells ∧ IsLeast { n : ℤ | 0 ≤ n ∧ n ∉ [1, 2, 2, 0, 5, 4, 7, 3, 4, 6] }
      (nextMissing t) := by
  obtain ⟨t, cells, hall, hholds, -, -, hleast⟩ :=
    tracker_is_set [1, 2, 2, 0, 5, 4, 7, 3, 4, 6] (by decide)
  exact ⟨t, cells, hall, hholds, hleast⟩

end Succinct.SeqTrackers
