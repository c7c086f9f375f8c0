import Succinct.RangeReadings
import Succinct.StatsAgreement
import Mathlib.Algebra.Order.BigOperators.Group.List

/-!
The probabilities of the characters that follow a context, of extractVector in
forms/packed_stats.c: the counts of a node, one more of each, times a scale that
is to keep their sum in 24 bits. The counts of a node never exceed its total
where no alphabet is large; range_decode_equiprobable splits the others, and
what it puts together from the halves may lie behind their end.
-/
namespace Succinct.CharacterVectors

open Arithmetic RangeLossless RangeMessages RangeCodecs RangeReadings PackedStats StatsAgreement
  Charset

def scale (n : Node) : ℕ := 0xffffff / (n.count + CHARCOUNT)

/-- The loop over the counts, in unsigned ints; the sum that nothing reads is left out. -/
def fillVector (scale : ℕ) : List ℕ → ℕ → List ℕ
  | [], _ => []
  | count :: rest, cumulative =>
    let entry := u32 (cumulative + u32 (u32 (count + 1) * scale))
    entry :: fillVector scale rest entry

/-- None is exit(-1). -/
def nodeVector (n : Node) : Option (List ℕ) :=
  if scale n = 0 then none else some (fillVector (scale n) n.counts 0)

def extractVector (h : StatsHandle) (tree : Option Node) (s : List ℕ) : Option (List ℕ) :=
  (extractNode h tree s).bind nodeVector

inductive Extracted (h : StatsHandle) : Node → Prop
  | call {s : List ℕ} {extractAllP : Bool} {fuel address : ℕ} {len count : ℤ} {n : Node}
      (hcall : extractNodeAt h s extractAllP fuel len address count = some n) : Extracted h n
  | child {n m : Node} {i : ℕ} (hparent : Extracted h n) (hchild : n.child i = some m) :
    Extracted h m

/-- No call failed that reads a count. One that fails returns -1, or a number with
its sign bit set where the alphabet is split. -/
def Errorless (n : Node) : Prop := ∀ x ∈ n.counts, x < 0x80000000

/-- A table under which every character can be coded, from products that are ints. -/
structure Legal (n : Node) (v : List ℕ) : Prop where
  length : v.length = CHARCOUNT
  rising : v.Pairwise (· < ·)
  bounds : ∀ x ∈ v, 1 ≤ x ∧ x ≤ 0xffffff
  products : ∀ x ∈ n.counts, (x + 1) * scale n < 0x80000000
  table : Cumulative v CHARCOUNT
  shares : ∀ symbol < CHARCOUNT, Share (symbolLow v symbol) (symbolHigh v CHARCOUNT symbol)

def Fitting (n : Node) : Prop := (n.counts.sum + CHARCOUNT) * scale n ≤ 0xffffff

section Filling

/-- An entry is a sum, where the product is an int. -/
theorem entry_eq {scale count cumulative : ℕ} (hscale : 0 < scale)
    (hproduct : (count + 1) * scale < 0x80000000) (hstart : cumulative ≤ 0xffffff) :
    u32 (cumulative + u32 (u32 (count + 1) * scale)) = cumulative + (count + 1) * scale := by
  have hle : count + 1 ≤ (count + 1) * scale := Nat.le_mul_of_pos_right _ hscale
  have hcount : u32 (count + 1) = count + 1 := Nat.mod_eq_of_lt (by omega)
  have hword : u32 ((count + 1) * scale) = (count + 1) * scale := Nat.mod_eq_of_lt (by omega)
  rw [hcount, hword]
  exact Nat.mod_eq_of_lt (by omega)

theorem sums_cons (count : ℕ) (rest : List ℕ) (scale : ℕ) :
    ((count :: rest).sum + (count :: rest).length) * scale =
      (count + 1) * scale + (rest.sum + rest.length) * scale := by
  rw [List.sum_cons, List.length_cons]
  ring

/-- The entries are the sums, as long as these fit. -/
theorem fillVector_rising {scale : ℕ} (hscale : 0 < scale) (counts : List ℕ) (cumulative : ℕ)
    (hfit : cumulative + (counts.sum + counts.length) * scale ≤ 0xffffff) :
    (fillVector scale counts cumulative).length = counts.length ∧
      (fillVector scale counts cumulative).Pairwise (· < ·) ∧
      ∀ x ∈ fillVector scale counts cumulative, cumulative < x ∧ x ≤ 0xffffff := by
  induction counts generalizing cumulative with
  | nil => exact ⟨rfl, List.Pairwise.nil, fun x hx => by cases hx⟩
  | cons count rest ih =>
    rw [sums_cons] at hfit
    have hproduct : (count + 1) * scale < 0x80000000 := by omega
    have hstart : cumulative ≤ 0xffffff := by omega
    obtain ⟨hlength, hrising, hbounds⟩ := ih (cumulative + (count + 1) * scale) (by omega)
    rw [fillVector, entry_eq hscale hproduct hstart]
    refine ⟨by rw [List.length_cons, hlength,
      List.length_cons], List.Pairwise.cons ?_ hrising, ?_⟩
    · exact fun x hx => (hbounds x hx).1
    · intro x hx
      have hwide : count + 1 ≤ (count + 1) * scale := Nat.le_mul_of_pos_right _ hscale
      rcases List.mem_cons.mp hx with rfl | hx
      · omega
      · have hx := hbounds x hx
        omega

/-- Entries of 24 bits are sums that fit: where no product overflows, the first sum
that does not fit shows. -/
theorem fits_of_bounds {scale : ℕ} (hscale : 0 < scale) (counts : List ℕ) (cumulative : ℕ)
    (hstart : cumulative ≤ 0xffffff) (hproducts : ∀ x ∈ counts, (x + 1) * scale < 0x80000000)
    (hbounds : ∀ x ∈ fillVector scale counts cumulative, x ≤ 0xffffff) :
    cumulative + (counts.sum + counts.length) * scale ≤ 0xffffff := by
  induction counts generalizing cumulative with
  | nil =>
    rw [List.sum_nil, List.length_nil, Nat.zero_mul]
    exact hstart
  | cons count rest ih =>
    have hproduct := hproducts count (List.mem_cons_self ..)
    rw [fillVector, entry_eq hscale hproduct hstart] at hbounds
    have hfirst := hbounds _ (List.mem_cons_self ..)
    have hrest := ih _ hfirst (fun x hx => hproducts x (List.mem_cons_of_mem _ hx))
      (fun x hx => hbounds x (List.mem_cons_of_mem _ hx))
    rw [sums_cons]
    omega

theorem cumulative_of_rising {v : List ℕ} (hlength : v.length = CHARCOUNT)
    (hrising : v.Pairwise (· < ·))
    (hbounds : ∀ x ∈ v, 1 ≤ x ∧ x ≤ 0xffffff) : Cumulative v CHARCOUNT := by
  constructor
  · intro i hi
    rw [List.getD_eq_getElem _ _ (by omega)]
    exact hbounds _ (List.getElem_mem _)
  · intro i j hij hj
    rw [List.getD_eq_getElem _ _ (by omega), List.getD_eq_getElem _ _ (by omega)]
    exact List.pairwise_iff_getElem.mp hrising i j (by omega) (by omega) hij

/-- For a node with a count of every character, whatever it was decoded from. -/
theorem nodeVector_legal_iff {n : Node} (hlength : n.counts.length = CHARCOUNT)
    (hscale : scale n ≠ 0) :
    (∃ v, nodeVector n = some v ∧ Legal n v) ↔ Fitting n := by
  have hpos : 0 < scale n := Nat.pos_of_ne_zero hscale
  have hvector : nodeVector n = some (fillVector (scale n) n.counts 0) := by
    rw [nodeVector, if_neg hscale]
  rw [hvector, Fitting]
  constructor
  · rintro ⟨v, hv, hlegal⟩
    obtain rfl := Option.some.inj hv
    have hfits := fits_of_bounds hpos n.counts 0 (Nat.zero_le _) hlegal.products fun x hx =>
      (hlegal.bounds x hx).2
    rw [Nat.zero_add, hlength] at hfits
    exact hfits
  · intro hfit
    obtain ⟨hsize, hrising, hbounds⟩ :=
      fillVector_rising hpos n.counts 0 (by rw [Nat.zero_add, hlength]; exact hfit)
    have hsize' := hsize.trans hlength
    have hbounds' : ∀ x ∈ fillVector (scale n) n.counts 0, 1 ≤ x ∧ x ≤ 0xffffff := hbounds
    have htable := cumulative_of_rising hsize' hrising hbounds'
    refine ⟨_, rfl, hsize', hrising, hbounds', ?_, htable, fun symbol hs =>
      symbol_share _ _ symbol htable hs⟩
    intro x hx
    have hsum : x ≤ n.counts.sum := List.single_le_sum (fun y _ => Nat.zero_le y) x hx
    have hmul : (x + 1) * scale n ≤ (n.counts.sum + CHARCOUNT) * scale n := by
      apply Nat.mul_le_mul_right
      unfold CHARCOUNT
      omega
    omega

end Filling

section Counting

theorem tryCandidates_mem (a : ℤ) (list : List ℕ) (d : RangeCoder) {x : ℕ}
    (hx : (tryCandidates a list d).1 = some x) :
    x ∈ list := by
  induction list generalizing d with
  | nil => cases hx
  | cons y rest ih =>
    rw [tryCandidates] at hx
    split at hx
    · obtain rfl := Option.some.inj hx
      exact List.mem_cons_self ..
    · exact List.mem_cons_of_mem _ (ih _ hx)

/-- A symbol of an alphabet that is not split lies in it. -/
theorem decodeEquiprobable_value (d : RangeCoder) {a : ℤ} (ha : 1 ≤ a) :
    (decodeEquiprobable d a).1 = -1 ∨ ∃ x : ℕ, (decodeEquiprobable d a).1 = x ∧ (x : ℤ) < a := by
  rw [decodeEquiprobable, if_neg (by omega)]
  simp only
  generalize u32 (u32 (0x100000000 + d.value - d.low) * a.toNat / rangeSpace d) = e
  have hmem := fun x hx => tryCandidates_mem a (candidates a e) d (x := x) hx
  generalize tryCandidates a (candidates a e) d = r at hmem ⊢
  obtain ⟨found, d'⟩ := r
  cases found with
  | none => exact Or.inl rfl
  | some x =>
    have hkept := (List.mem_filter.mp (hmem x rfl)).2
    exact Or.inr ⟨x, rfl, of_decide_eq_true hkept⟩

/-- A count that is read where the alphabet is not split does not exceed what is left. -/
theorem count_le {total progressive : ℕ} (htotal : total < 0x3fffff)
    (hle : progressive ≤ total) (d : RangeCoder)
    (herr : toUnsigned (rangeDecodeEquiprobable d
      (toInt (u32 (0x100000000 + total - progressive + 1)))).1 < 0x80000000) :
    progressive + toUnsigned (rangeDecodeEquiprobable d
      (toInt (u32 (0x100000000 + total - progressive + 1)))).1 ≤
      total := by
  have halphabet : toInt (u32 (0x100000000 + total - progressive + 1)) =
    total - progressive + 1 := by
    unfold toInt u32
    omega
  rw [halphabet] at herr ⊢
  rw [rangeDecodeEquiprobable, if_neg (by omega)] at herr ⊢
  rcases decodeEquiprobable_value d (a := total - progressive + 1) (by omega)
    with hfail | ⟨x, hx, hlt⟩
  · rw [hfail] at herr
    exact absurd herr (by decide)
  · rw [hx]
    unfold toUnsigned
    omega

theorem decodeCounts_succ (total left progressive : ℕ) (children : ℤ) (d : RangeCoder) :
    ((decodeCounts total (left + 1) children progressive).run d).1.1 =
      let present := rangeDecodeSymbol d [absent (left + 1) children] 2
      if present.1 ≠ 0 then
        let read :=
  rangeDecodeEquiprobable present.2 (toInt (u32 (0x100000000 + total - progressive + 1)))
        toUnsigned read.1 ::
          ((decodeCounts total left (children - 1) (u32 (progressive + toUnsigned read.1))).run
            read.2).1.1
      else 0 :: ((decodeCounts total left children progressive).run present.2).1.1 := by
  rw [decodeCounts]
  change ((if (rangeDecodeSymbol d [absent (left + 1) children] 2).1 ≠ 0
    then _ else _ : Decoder (List ℕ × ℕ)).run
    (rangeDecodeSymbol d [absent (left + 1) children] 2).2).1.1 = _
  dsimp only
  split
  · rfl
  · rfl

theorem decodeCounts_length (total left progressive : ℕ) (children : ℤ) (d : RangeCoder) :
    ((decodeCounts total left children progressive).run d).1.1.length = left := by
  induction left generalizing children progressive d with
  | zero => rfl
  | succ left ih =>
    rw [decodeCounts_succ]
    dsimp only
    split
    · rw [List.length_cons, ih]
    · rw [List.length_cons, ih]

/-- The induction is on the characters that are left: no count exceeds what the
counts before it leave of the total. -/
theorem decodeCounts_sum {total : ℕ} (htotal : total < 0x3fffff) (left progressive : ℕ)
    (children : ℤ) (d : RangeCoder) (hle : progressive ≤ total)
    (herr : ∀ x ∈ ((decodeCounts total left children progressive).run d).1.1, x < 0x80000000) :
    progressive + ((decodeCounts total left children progressive).run d).1.1.sum ≤ total := by
  induction left generalizing children progressive d with
  | zero => exact hle
  | succ left ih =>
    rw [decodeCounts_succ] at herr ⊢
    dsimp only at herr ⊢
    generalize rangeDecodeSymbol d [absent (left + 1) children] 2 = present at herr ⊢
    by_cases hpresent : present.1 ≠ 0
    · rw [if_pos hpresent] at herr
      rw [if_pos hpresent]
      have hcount := count_le htotal hle present.2 (herr _ (List.mem_cons_self ..))
      generalize rangeDecodeEquiprobable present.2
        (toInt (u32 (0x100000000 + total - progressive + 1))) = read
        at herr hcount ⊢
      have hword : u32 (progressive + toUnsigned read.1) = progressive + toUnsigned read.1 :=
        Nat.mod_eq_of_lt (by omega)
      rw [hword] at herr ⊢
      have hrest := ih (progressive + toUnsigned read.1) (children - 1) read.2 hcount
        (fun x hx => herr x (List.mem_cons_of_mem _ hx))
      rw [List.sum_cons]
      omega
    · rw [if_neg hpresent] at herr
      rw [if_neg hpresent]
      have hrest :=
        ih progressive children present.2 hle (fun x hx => herr x (List.mem_cons_of_mem _ hx))
      rw [List.sum_cons]
      omega

theorem decodeNode_counts (h : StatsHandle) (address : ℕ) (count : ℤ) :
    ∃ children d, (decodeNode h address count).counts =
      ((decodeCounts (decodeNode h address count).totalCount CHARCOUNT children 0).run
        d).1.1 := by
  unfold decodeNode
  -- how the counts are read plays no part in where
  generalize decodeCounts = read
  exact ⟨_, _, rfl⟩

end Counting

section Extracting

variable {h : StatsHandle}

def FromFile (h : StatsHandle) (n : Node) : Prop :=
  ∃ address count, n.count = (decodeNode h address count).totalCount ∧
    n.counts = (decodeNode h address count).counts

theorem foldl_getD (children : List (Option Node)) (n : Node) :
    children.foldl (fun ret child => child.getD ret) n = n ∨
      some (children.foldl (fun ret child => child.getD ret) n) ∈ children := by
  induction children generalizing n with
  | nil => exact Or.inl rfl
  | cons child rest ih =>
    rw [List.foldl_cons]
    rcases ih (child.getD n) with hsame | hmem
    · rw [hsame]
      cases child with
      | none => exact Or.inl rfl
      | some m => exact Or.inr (List.mem_cons_self ..)
    · exact Or.inr (List.mem_cons_of_mem _ hmem)

theorem childrenAt_call {s : List ℕ} {extractAllP : Bool} {fuel address i : ℕ}
    {len count : ℤ} {m : Node}
    (hm : childrenAt h s extractAllP fuel len address count i = some m) :
    ∃ childAddress count', extractNodeAt h s extractAllP fuel
      (len - 1) childAddress count' = some m := by
  obtain ⟨childAddress, -, hm⟩ := Option.bind_eq_some_iff.mp hm
  split at hm
  · exact ⟨_, _, hm⟩
  · cases hm

def Below (h : StatsHandle) (s : List ℕ) (extractAllP : Bool) (n : Node) : Prop :=
  ∀ i m, n.child i = some m → ∃ fuel len address count,
    extractNodeAt h s extractAllP fuel len address count = some m

theorem nodeAt_below (s : List ℕ) (extractAllP : Bool) (fuel : ℕ) (len : ℤ)
    (address : ℕ) (count : ℤ) :
    Below h s extractAllP (nodeAt h s extractAllP fuel len address count) := by
  intro i m hm
  by_cases hi : i < CHARCOUNT
  · rw [child_nodeAt s extractAllP fuel len address count hi] at hm
    obtain ⟨childAddress, count', hcall⟩ := childrenAt_call hm
    exact ⟨_, _, _, _, hcall⟩
  · have hnone : (nodeAt h s extractAllP fuel len address count).child i = none :=
      List.getD_eq_default _ _ (by rw [List.length_map, List.length_range]; omega)
    rw [hnone] at hm
    cases hm

/-- A call that returns a node reads it: it is the node, or its child takes its place. -/
theorem extractNodeAt_cases {s : List ℕ} {extractAllP : Bool} {fuel : ℕ} {len : ℤ} {address : ℕ}
    {count : ℤ} {n : Node}
    (hn : extractNodeAt h s extractAllP (fuel + 1) len address count = some n) :
    n = nodeAt h s extractAllP fuel len address count ∨
      ∃ childAddress count', extractNodeAt h s extractAllP fuel
        (len - 1) childAddress count' = some n := by
  have hreached : -(h.maximumOrder : ℤ) ≤ len ∧ 700 ≤ address := by
    rw [extractNodeAt] at hn
    split at hn
    · cases hn
    · split at hn
      · cases hn
      · omega
  rw [extractNodeAt_succ s extractAllP fuel len address count hreached.1 hreached.2] at hn
  have heq := Option.some.inj hn
  split at heq
  · exact Or.inl heq.symm
  · rcases foldl_getD ((List.range CHARCOUNT).map
      (childrenAt h s extractAllP fuel len address count))
      (nodeAt h s extractAllP fuel len address count) with hsame | hmem
    · exact Or.inl (heq.symm.trans hsame)
    · rw [heq] at hmem
      obtain ⟨i, -, hm⟩ := List.mem_map.mp hmem
      exact Or.inr (childrenAt_call hm)

/-- A node that is returned is stored, and those below it were returned too. -/
theorem extractNodeAt_fromFile (s : List ℕ) (extractAllP : Bool) (fuel : ℕ) (len : ℤ)
    (address : ℕ) (count : ℤ) {n : Node}
    (hn : extractNodeAt h s extractAllP fuel len address count = some n) : FromFile h n ∧
    Below h s extractAllP n := by
  induction fuel generalizing len address count with
  | zero => cases hn
  | succ fuel ih =>
    rcases extractNodeAt_cases hn with rfl | ⟨childAddress, count', hcall⟩
    · exact ⟨⟨address, count, rfl, rfl⟩, nodeAt_below s extractAllP fuel len address count⟩
    · exact ih _ _ _ hcall

theorem Extracted.called {n : Node} (hn : Extracted h n) :
    ∃ s extractAllP fuel len address count,
    extractNodeAt h s extractAllP fuel len address count = some n := by
  induction hn with
  | call hcall => exact ⟨_, _, _, _, _, _, hcall⟩
  | @child n m i _ hchild ih =>
    obtain ⟨s, extractAllP, fuel, len, address, count, hcall⟩ := ih
    obtain ⟨fuel', len', address', count', hcall'⟩ :=
      (extractNodeAt_fromFile _ _ _ _ _ _ hcall).2 i m hchild
    exact ⟨_, _, _, _, _, _, hcall'⟩

theorem Extracted.fromFile {n : Node} (hn : Extracted h n) : FromFile h n := by
  obtain ⟨s, extractAllP, fuel, len, address, count, hcall⟩ := hn.called
  exact (extractNodeAt_fromFile _ _ _ _ _ _ hcall).1

theorem FromFile.length {n : Node} (hn : FromFile h n) : n.counts.length = CHARCOUNT := by
  obtain ⟨address, count, -, hcounts⟩ := hn
  obtain ⟨children, d, hdecoded⟩ := decodeNode_counts h address count
  rw [hcounts, hdecoded, decodeCounts_length]

/-- A total whose alphabets are not split is not exceeded. -/
theorem FromFile.sum_le {n : Node} (hn : FromFile h n) (herr : Errorless n)
    (hcount : n.count < 0x3fffff) :
    n.counts.sum ≤ n.count := by
  obtain ⟨address, count, htotal, hcounts⟩ := hn
  obtain ⟨children, d, hdecoded⟩ := decodeNode_counts h address count
  rw [Errorless] at herr
  rw [hcounts, hdecoded] at herr ⊢
  rw [htotal] at hcount ⊢
  have hsum := decodeCounts_sum hcount CHARCOUNT 0 children d (Nat.zero_le _) herr
  rwa [Nat.zero_add] at hsum

theorem fitting_of_le {n : Node} (hle : n.counts.sum ≤ n.count) : Fitting n := by
  calc (n.counts.sum + CHARCOUNT) * scale n ≤ (n.count + CHARCOUNT) * scale n := by
        apply Nat.mul_le_mul_right
        omega
    _ ≤ 0xffffff := Nat.mul_div_le _ _

end Extracting

/-- A node makes a legal vector exactly where its counts fit, and they do as long as the
alphabets that they are read from are small. -/
theorem vector_legal_iff {h : StatsHandle} {tree : Option Node} {s : List ℕ} {n : Node}
    (hn : Extracted h n)
    (hfound : extractNode h tree s = some n) (herr : Errorless n) (hscale : scale n ≠ 0) :
    ((∃ v, extractVector h tree s = some v ∧ Legal n v) ↔ Fitting n) ∧
      (n.counts.sum ≤ n.count → Fitting n) ∧ (n.count < 0x3fffff → n.counts.sum ≤ n.count) := by
  have hvector : extractVector h tree s = nodeVector n := by
    rw [extractVector, hfound, Option.bind_some]
  rw [hvector]
  exact ⟨nodeVector_legal_iff hn.fromFile.length hscale, fitting_of_le, hn.fromFile.sum_le herr⟩

section Samples

/-- The root of the sample file, whose two characters are digits. -/
theorem sample_legal : ∃ n, extractNode sample none [] = some n ∧ n.count = 2 ∧
    ∃ v, extractVector sample none [] = some v ∧ Legal n v := by
  have hcount : (extractNode sample none []).map Node.count = some 2 := by decide +kernel
  have herr : ∀ counts ∈ (extractNode sample none []).map Node.counts, ∀ x ∈ counts,
    x < 0x80000000 := by
    decide +kernel
  obtain ⟨n, hfound, htotal⟩ := Option.map_eq_some_iff.mp hcount
  have hscale : scale n ≠ 0 := by
    rw [scale, htotal]
    decide
  have hcall : Extracted sample n := Extracted.call hfound
  obtain ⟨hlegal, hfits, hsmall⟩ := vector_legal_iff hcall hfound
    (herr n.counts (Option.mem_map_of_mem _ hfound)) hscale
  exact ⟨n, hfound, htotal, hlegal.mpr (hfits (hsmall (by omega)))⟩

def overdrawn : StatsHandle where
  buffer := List.replicate 700 0 ++ [254, 3, 39, 166, 40, 153, 143, 92, 128]
  rootNodeAddress := 700
  totalCount := 0x555510
  maximumOrder := 1

/-- The count is larger than the total, and the first entry has more than 24 bits. -/
theorem overdrawn_illegal : ∃ n, extractNode overdrawn none [] = some n ∧
    Extracted overdrawn n ∧ Errorless n ∧
    n.count = 0x555510 ∧ n.counts = 0x55ffff :: List.replicate 64 0 ∧ scale n = 3 ∧
    (∃ v, extractVector overdrawn none [] = some v ∧ v.getD 0 0 = 0x1020000) ∧
    ¬ ∃ v, extractVector overdrawn none [] = some v ∧ Legal n v := by
  have hread : (extractNode overdrawn none []).map (fun n => (n.count, n.counts)) =
      some (0x555510, 0x55ffff :: List.replicate 64 0) := by decide +kernel
  obtain ⟨n, hfound, hn⟩ := Option.map_eq_some_iff.mp hread
  obtain ⟨htotal, hcounts⟩ := Prod.mk.inj hn
  have hscale : scale n = 3 := by
    rw [scale, htotal]
    decide
  have hvector : extractVector overdrawn none [] = nodeVector n := by
    rw [extractVector, hfound, Option.bind_some]
  have hlength : n.counts.length = CHARCOUNT := by
    rw [hcounts]
    decide
  have herr : Errorless n := by
    rw [Errorless, hcounts]
    decide
  have hentries : nodeVector n = some (fillVector 3 (0x55ffff :: List.replicate 64 0) 0) := by
    rw [nodeVector, hscale, hcounts]
    rfl
  refine ⟨n, hfound, Extracted.call hfound, herr, htotal, hcounts, hscale, ?_, ?_⟩
  · rw [hvector, hentries]
    exact ⟨_, rfl, by decide⟩
  · rw [hvector, nodeVector_legal_iff hlength (by rw [hscale]; decide), Fitting, hcounts, hscale]
    decide

end Samples

end Succinct.CharacterVectors
