import Succinct.SeqTrackers
import Succinct.StoreProperties

/-!
The text of a SeqTracker: toString, and the constructor that scans it. The text
sets the two ends of a range apart with the character that also begins a negative
number, so the scan throws at the first negative end, and only there.
-/
namespace Succinct.TrackerTexts

open LinkedLists SeqTrackers StoreProperties

def IsInt (n : ℤ) : Prop := -2147483648 ≤ n ∧ n < 2147483648

instance instDecidableIsInt (n : ℤ) : Decidable (IsInt n) := inferInstanceAs (Decidable (_ ∧ _))

def parseInt (s : Text) : Option ℤ := (parseLong s).filter fun n => decide (IsInt n)

def toStringLoop (t : SeqTracker) : ℕ → Option ℕ → Text → Option Text
  | _, none, sb => some (sb ++ ['}'])
  | 0, some _, _ => none
  | fuel + 1, some n, sb =>
    let range := (t.heap n).value
    let sb := if sb.length > 1 then sb ++ [','] else sb
    let sb := sb ++ longText range.first
    let sb := if range.first ≠ range.last then sb ++ '-' :: longText range.last else sb
    toStringLoop t fuel (t.heap n).next sb

def toString (t : SeqTracker) : Option Text := toStringLoop t t.fresh t.head ['{']

def addRange (t : SeqTracker) (first last : ℤ) : SeqTracker :=
  t.insertBetween t.tail none ⟨first, last⟩

/-- The loop of the constructor over the characters left; digits are those from
mark on. Behind the last character charAt throws. -/
def scan (t : SeqTracker) (first : ℤ) (digits : Text) : Text → Option SeqTracker
  | [] => none
  | c :: rest =>
    if c = '-' then do
      let first ← parseInt digits
      scan t first [] rest
    else if c = ',' ∨ c = '}' then do
      let last ← parseInt digits
      let t := addRange t (if first = -1 then last else first) last
      if c = '}' then some t else scan t (-1) [] rest
    else scan t first (digits ++ [c]) rest

/-- The constructor with a text, which may be null; none is an exception. -/
def ofString (seq : Option Text) : Option SeqTracker :=
  match seq with
  | none => some newTracker
  | some [] => some newTracker
  | some (c :: rest) =>
    if c :: rest = ['{', '}'] then some newTracker
    else if c ≠ '{' then none
    else scan newTracker (-1) [] rest

def rangeText (r : Interval) : Text :=
  longText r.first ++ if r.first ≠ r.last then '-' :: longText r.last else []

def restText : List Interval → Text
  | [] => ['}']
  | r :: rs => ',' :: (rangeText r ++ restText rs)

def rangesText : List Interval → Text
  | [] => ['{', '}']
  | r :: rs => '{' :: (rangeText r ++ restText rs)

section Printing

variable {t : SeqTracker}

theorem toStringLoop_next {n : ℕ} {r : Interval} (hvalue : (t.heap n).value = r)
    (fuel : ℕ) (sb : Text) :
    toStringLoop t (fuel + 1) (some n) sb =
      toStringLoop t fuel (t.heap n).next
        ((if sb.length > 1 then sb ++ [','] else sb) ++ rangeText r) := by
  rw [toStringLoop, hvalue, rangeText]
  by_cases hends : r.first ≠ r.last
  · rw [if_pos hends, if_pos hends, List.append_assoc]
  · rw [if_neg hends, if_neg hends, List.append_nil]

theorem toStringLoop_eq {m q last : Option ℕ} {cells : List (ℕ × Interval)}
    (h : Seg t.heap m q cells last none) {fuel : ℕ} (hfuel : cells.length ≤ fuel) {sb : Text}
    (hsb : 1 < sb.length) : toStringLoop t fuel q sb = some (sb ++ restText (ranges cells)) := by
  induction cells generalizing m q fuel sb with
  | nil =>
    obtain ⟨rfl, -⟩ := h
    rw [toStringLoop.eq_def]
    rfl
  | cons c cells ih =>
    obtain ⟨rfl, -, hvalue, hrest⟩ := h
    rw [List.length_cons] at hfuel
    obtain ⟨fuel, rfl⟩ : ∃ fuel', fuel = fuel' + 1 := ⟨fuel - 1, by omega⟩
    rw [toStringLoop_next hvalue, if_pos hsb,
      ih hrest (by omega) (by simp only [List.length_append]; omega)]
    simp [restText, ranges]

theorem longText_ne_nil (n : ℤ) : longText n ≠ [] := by
  unfold longText
  split
  · exact List.cons_ne_nil _ _
  · exact Nat.toDigits_ne_nil

theorem toString_eq {rs : List Interval} (h : Tracks t rs) :
    toString t = some (rangesText rs) := by
  obtain ⟨cells, hcells, rfl⟩ := h
  have hfuel := length_le_fresh hcells
  have hseg := hcells.seg
  rw [toString]
  cases cells with
  | nil =>
    obtain ⟨hhead, -⟩ := hseg
    rw [hhead, toStringLoop.eq_def]
    rfl
  | cons c cells =>
    obtain ⟨hhead, -, hvalue, hrest⟩ := hseg
    rw [List.length_cons] at hfuel
    obtain ⟨fuel, hfuel'⟩ : ∃ fuel, t.fresh = fuel + 1 := ⟨t.fresh - 1, by omega⟩
    have hlong : 1 < ('{' :: rangeText c.2).length := by
      have hpos := List.length_pos_of_ne_nil (longText_ne_nil c.2.first)
      rw [List.length_cons, rangeText, List.length_append]
      omega
    rw [hhead, hfuel', toStringLoop_next hvalue, if_neg (by simp)]
    exact toStringLoop_eq hrest (by omega) hlong

end Printing

section Scanning

variable {t : SeqTracker} {first : ℤ}

theorem addRange_tracks {rs : List Interval} (h : Tracks t rs) (first last : ℤ) :
    Tracks (addRange t first last) (rs ++ [⟨first, last⟩]) := by
  obtain ⟨cells, hcells, rfl⟩ := h
  have hinsert := (List.append_nil cells).symm ▸ hcells
  refine ⟨_, hinsert.insertBetween hcells.seg ⟨rfl, rfl⟩ ⟨first, last⟩, ?_⟩
  rw [ranges_append]
  rfl

/-- Digits are skipped. -/
theorem scan_digits {ds : Text} (h : ∀ c ∈ ds, c.isDigit = true) (digits rest : Text) :
    scan t first digits (ds ++ rest) = scan t first (digits ++ ds) rest := by
  induction ds generalizing digits with
  | nil => simp
  | cons c ds ih =>
    have hc := h c List.mem_cons_self
    have hminus : c ≠ '-' := by
      rintro rfl
      cases hc
    have hend : ¬ (c = ',' ∨ c = '}') := by
      rintro (rfl | rfl)
      · cases hc
      · cases hc
    rw [List.cons_append, scan, if_neg hminus, if_neg hend,
      ih (fun d hd => h d (List.mem_cons_of_mem c hd))]
    simp

theorem scan_number {n : ℤ} (h : 0 ≤ n) (rest : Text) :
    scan t first [] (longText n ++ rest) = scan t first (longText n) rest := by
  refine scan_digits (fun c hc => ?_) [] rest
  rw [longText, if_neg (by omega)] at hc
  exact Nat.isDigit_of_mem_toDigits (by decide) (by decide) hc

/-- There is no number before the sign. -/
theorem scan_negative {n : ℤ} (h : n < 0) (rest : Text) :
    scan t first [] (longText n ++ rest) = none := by
  rw [longText, if_pos h, List.cons_append, scan, if_pos rfl]
  rfl

theorem parseInt_longText {n : ℤ} (h : IsInt n) : parseInt (longText n) = some n := by
  have hlong : inLong n = true := by
    obtain ⟨hmin, hmax⟩ := h
    rw [inLong, decide_eq_true_eq]
    omega
  rw [parseInt, parseLong_longText n hlong]
  simp [h]

theorem scan_minus {n : ℤ} (h : IsInt n) (rest : Text) :
    scan t first (longText n) ('-' :: rest) = scan t n [] rest := by
  rw [scan, if_pos rfl, parseInt_longText h]
  rfl

theorem scan_comma {n : ℤ} (h : IsInt n) (rest : Text) :
    scan t first (longText n) (',' :: rest) =
      scan (addRange t (if first = -1 then n else first) n) (-1) [] rest := by
  rw [scan, if_neg (by decide), if_pos (Or.inl rfl), parseInt_longText h]
  rfl

theorem scan_close {n : ℤ} (h : IsInt n) (rest : Text) :
    scan t first (longText n) ('}' :: rest) =
      some (addRange t (if first = -1 then n else first) n) := by
  rw [scan, if_neg (by decide), if_pos (Or.inr rfl), parseInt_longText h]
  rfl

end Scanning

def Ends (P : ℤ → Prop) (r : Interval) : Prop := P r.first ∧ P r.last

theorem rangeText_append (r : Interval) (rest : Text) :
    rangeText r ++ rest = if r.first ≠ r.last
      then longText r.first ++ '-' :: (longText r.last ++ rest)
      else longText r.first ++ rest := by
  rw [rangeText]
  split <;> simp

/-- A range is read up to its last number. -/
theorem scan_range {r : Interval} (hint : Ends IsInt r) (hpos : Ends (0 ≤ ·) r)
    (t : SeqTracker) (rest : Text) :
    ∃ first, (if first = -1 then r.last else first) = r.first ∧
      scan t (-1) [] (rangeText r ++ rest) = scan t first (longText r.last) rest := by
  obtain ⟨hfirst, hlast⟩ := hpos
  rw [rangeText_append]
  by_cases hends : r.first ≠ r.last
  · refine ⟨r.first, if_neg (by omega), ?_⟩
    rw [if_pos hends, scan_number hfirst, scan_minus hint.1, scan_number hlast]
  · rw [not_not] at hends
    refine ⟨-1, ?_, ?_⟩
    · rw [if_pos rfl, hends]
    · rw [if_neg (not_not.mpr hends), scan_number hfirst, hends]

theorem scan_range_negative {r : Interval} (hint : Ends IsInt r)
    (hneg : ¬ Ends (0 ≤ ·) r) (t : SeqTracker)
    (rest : Text) : scan t (-1) [] (rangeText r ++ rest) = none := by
  rw [rangeText_append]
  by_cases hfirst : r.first < 0
  · split <;> exact scan_negative hfirst _
  · have hlast : r.last < 0 := by
      by_contra hlast
      exact hneg ⟨by omega, by omega⟩
    rw [if_pos (by omega), scan_number (by omega), scan_minus hint.1, scan_negative hlast]

section Reading

variable {rs : List Interval}

theorem scan_ranges (rest : List Interval) {r : Interval} (hint : ∀ r' ∈ r :: rest, Ends IsInt r')
    (hpos : ∀ r' ∈ r :: rest, Ends (0 ≤ ·) r') {t : SeqTracker} (h : Tracks t rs) :
    ∃ t', scan t (-1) [] (rangeText r ++ restText rest) = some t' ∧
    Tracks t' (rs ++ r :: rest) := by
  induction rest generalizing r t rs with
  | nil =>
    obtain ⟨hr, -⟩ := List.forall_mem_cons.mp hint
    obtain ⟨hr', -⟩ := List.forall_mem_cons.mp hpos
    obtain ⟨first, hfirst, hscan⟩ := scan_range hr hr' t (restText [])
    rw [hscan, restText, scan_close hr.2, hfirst]
    exact ⟨_, rfl, addRange_tracks h r.first r.last⟩
  | cons r₂ rest ih =>
    obtain ⟨hr, hrest⟩ := List.forall_mem_cons.mp hint
    obtain ⟨hr', hrest'⟩ := List.forall_mem_cons.mp hpos
    obtain ⟨first, hfirst, hscan⟩ := scan_range hr hr' t (restText (r₂ :: rest))
    rw [hscan, restText, scan_comma hr.2, hfirst]
    obtain ⟨t', hscan', htracks⟩ := ih hrest hrest' (addRange_tracks h r.first r.last)
    rw [List.append_assoc] at htracks
    exact ⟨t', hscan', htracks⟩

/-- The first range with a negative end ends the scan. -/
theorem scan_ranges_negative (rest : List Interval) {r : Interval}
    (hint : ∀ r' ∈ r :: rest, Ends IsInt r')
    (hneg : ¬ ∀ r' ∈ r :: rest, Ends (0 ≤ ·) r') (t : SeqTracker) :
    scan t (-1) [] (rangeText r ++ restText rest) = none := by
  induction rest generalizing r t with
  | nil =>
    obtain ⟨hr, -⟩ := List.forall_mem_cons.mp hint
    rw [List.forall_mem_singleton] at hneg
    exact scan_range_negative hr hneg t _
  | cons r₂ rest ih =>
    obtain ⟨hr, hrest⟩ := List.forall_mem_cons.mp hint
    by_cases hr' : Ends (0 ≤ ·) r
    · have hneg' : ¬ ∀ r' ∈ r₂ :: rest, Ends (0 ≤ ·) r' := fun hall =>
        hneg (List.forall_mem_cons.mpr ⟨hr', hall⟩)
      obtain ⟨first, -, hscan⟩ := scan_range hr hr' t (restText (r₂ :: rest))
      rw [hscan, restText, scan_comma hr.2]
      exact ih hrest hneg' _
    · exact scan_range_negative hr hr' t _

theorem ofString_cons (r : Interval) (rest : List Interval) :
    ofString (some (rangesText (r :: rest))) =
      scan newTracker (-1) [] (rangeText r ++ restText rest) := by
  rw [rangesText, ofString, if_neg, if_neg (not_not.mpr rfl)]
  -- a number is no closing brace
  intro hempty
  have hlen := congrArg List.length hempty
  have hpos := List.length_pos_of_ne_nil (longText_ne_nil r.first)
  have hrest : 0 < (restText rest).length := by
    cases rest with
    | nil => exact Nat.one_pos
    | cons => exact Nat.succ_pos _
  simp only [List.length_cons, List.length_append, List.length_nil, rangeText] at hlen
  omega

/-- The text of a tracker, read back: the constructor does not throw, and the new
tracker has the same numbers and the same text. -/
def ReadsBack (t : SeqTracker) : Prop :=
  ∃ text t' rs rs', toString t = some text ∧ ofString (some text) = some t' ∧
    toString t' = some text ∧ Tracks t rs ∧ Tracks t' rs' ∧ ∀ n, Mem n rs' ↔ Mem n rs

/-- Not even the ranges are other ones. -/
theorem ofString_rangesText (hint : ∀ r ∈ rs, Ends IsInt r) (hpos : ∀ r ∈ rs, Ends (0 ≤ ·) r) :
    ∃ t, ofString (some (rangesText rs)) = some t ∧ Tracks t rs := by
  cases rs with
  | nil => exact ⟨newTracker, rfl, newTracker_tracks⟩
  | cons r rest =>
    rw [ofString_cons]
    exact scan_ranges rest hint hpos newTracker_tracks

theorem ofString_negative (hint : ∀ r ∈ rs, Ends IsInt r) (hneg : ¬ ∀ r ∈ rs, Ends (0 ≤ ·) r) :
    ofString (some (rangesText rs)) = none := by
  cases rs with
  | nil => exact absurd (List.forall_mem_nil _) hneg
  | cons r rest =>
    rw [ofString_cons]
    exact scan_ranges_negative rest hint hneg newTracker

theorem readsBack_iff {t : SeqTracker} (h : Tracks t rs) (hint : ∀ r ∈ rs, Ends IsInt r) :
    ReadsBack t ↔ ∀ r ∈ rs, Ends (0 ≤ ·) r := by
  constructor
  · rintro ⟨text, t', -, -, htext, hread, -⟩
    rw [toString_eq h, Option.some.injEq] at htext
    subst htext
    by_contra hneg
    rw [ofString_negative hint hneg] at hread
    cases hread
  · intro hpos
    obtain ⟨t', hread, htracks⟩ := ofString_rangesText hint hpos
    exact ⟨rangesText rs, t', rs, rs, toString_eq h, hread, toString_eq htracks, h,
      htracks, fun _ => Iff.rfl⟩

def IsSeq (n : ℤ) : Prop := IsInt n ∧ 0 ≤ n

/-- Digits without a minus sign are no negative number. -/
theorem parseInt_nonneg {s : Text} (hs : '-' ∉ s) {n : ℤ}
    (h : parseInt s = some n) : IsSeq n := by
  have hdigits : ∀ {ds : Text} {m : ℤ}, parseDigits ds = some m → 0 ≤ m := by
    intro ds m hm
    rw [parseDigits] at hm
    split at hm
    · cases hm
    · cases hm
      exact Int.natCast_nonneg _
  obtain ⟨hlong, hint⟩ := Option.filter_eq_some_iff.mp h
  obtain ⟨hvalue, -⟩ := Option.filter_eq_some_iff.mp hlong
  refine ⟨of_decide_eq_true hint, ?_⟩
  split at hvalue
  · exact absurd List.mem_cons_self hs
  · exact hdigits hvalue
  · exact hdigits hvalue

/-- Whatever text the constructor takes, it makes a list of ranges without a negative end. -/
theorem scan_tracks {text digits : Text} {first : ℤ} {t t' : SeqTracker} (htracks : Tracks t rs)
    (hrs : ∀ r ∈ rs, Ends IsSeq r) (hfirst : first = -1 ∨ IsSeq first)
    (hdigits : '-' ∉ digits) (h : scan t first digits text = some t') :
    ∃ rs', Tracks t' rs' ∧ ∀ r ∈ rs', Ends IsSeq r := by
  induction text generalizing t rs first digits with
  | nil => cases h
  | cons c text ih =>
    rw [scan] at h
    by_cases hminus : c = '-'
    · rw [if_pos hminus] at h
      obtain ⟨first', hparse, hscan⟩ := Option.bind_eq_some_iff.mp h
      exact ih htracks hrs (Or.inr (parseInt_nonneg hdigits hparse)) List.not_mem_nil hscan
    rw [if_neg hminus] at h
    by_cases hend : c = ',' ∨ c = '}'
    · rw [if_pos hend] at h
      obtain ⟨last, hparse, hscan⟩ := Option.bind_eq_some_iff.mp h
      have hlast := parseInt_nonneg hdigits hparse
      have hfirst' : IsSeq (if first = -1 then last else first) := by
        split
        · exact hlast
        · exact hfirst.resolve_left ‹_›
      have hadded := addRange_tracks htracks (if first = -1 then last else first) last
      have hrs' : ∀ r ∈ rs ++ [⟨if first = -1 then last else first, last⟩],
          Ends IsSeq r :=
        List.forall_mem_append.mpr ⟨hrs, List.forall_mem_singleton.mpr ⟨hfirst', hlast⟩⟩
      by_cases hclose : c = '}'
      · rw [if_pos hclose, Option.some.injEq] at hscan
        exact ⟨_, hscan ▸ hadded, hrs'⟩
      · rw [if_neg hclose] at hscan
        exact ih hadded hrs' (Or.inl rfl) List.not_mem_nil hscan
    · rw [if_neg hend] at h
      refine ih htracks hrs hfirst ?_ h
      rw [List.mem_append, List.mem_singleton]
      rintro (hmem | rfl)
      · exact hdigits hmem
      · exact hminus rfl

theorem ofString_tracks {seq : Option Text} {t : SeqTracker} (h : ofString seq = some t) :
    ∃ rs, Tracks t rs ∧ ∀ r ∈ rs, Ends IsSeq r := by
  have hnew : some newTracker = some t → ∃ rs, Tracks t rs ∧ ∀ r ∈ rs, Ends IsSeq r := by
    intro heq
    cases heq
    exact ⟨[], newTracker_tracks, List.forall_mem_nil _⟩
  unfold ofString at h
  split at h
  · exact hnew h
  · exact hnew h
  · split at h
    · exact hnew h
    split at h
    · cases h
    exact scan_tracks newTracker_tracks (List.forall_mem_nil _) (Or.inl rfl) List.not_mem_nil h

end Reading

section Receiving

variable {P : ℤ → Prop}

theorem mergeRanges_ends {left right : List Interval} (h : ∀ r ∈ left ++ right, Ends P r) :
    ∀ r ∈ mergeRanges left right, Ends P r := by
  rcases List.eq_nil_or_concat left with rfl | ⟨left', p, rfl⟩
  · exact h
  rw [List.concat_eq_append] at h ⊢
  cases right with
  | nil =>
    rw [mergeRanges_nil_right]
    rwa [List.append_nil] at h
  | cons n rest =>
    rw [List.append_assoc, List.singleton_append, List.forall_mem_append, List.forall_mem_cons,
      List.forall_mem_cons] at h
    obtain ⟨hleft, hp, hn, hrest⟩ := h
    rw [mergeRanges_concat]
    split
    · exact List.forall_mem_append.mpr ⟨hleft, List.forall_mem_cons.mpr ⟨⟨hp.1, hn.2⟩, hrest⟩⟩
    · exact List.forall_mem_append.mpr
        ⟨hleft, List.forall_mem_cons.mpr ⟨hp, List.forall_mem_cons.mpr ⟨hn, hrest⟩⟩⟩

/-- An end that is moved is moved to the number received. -/
theorem receiveFrom_ends {seq : ℤ} (hseq : P seq) (rest : List Interval) {left : List Interval}
    (hleft : ∀ r ∈ left, Ends P r) (hrest : ∀ r ∈ rest, Ends P r) :
    ∀ r ∈ (receiveFrom seq left rest).2, Ends P r := by
  induction rest generalizing left with
  | nil => exact List.forall_mem_append.mpr ⟨hleft, List.forall_mem_singleton.mpr ⟨hseq, hseq⟩⟩
  | cons n rest ih =>
    obtain ⟨hn, hrest'⟩ := List.forall_mem_cons.mp hrest
    rw [receiveFrom]
    split_ifs with hin hbefore hless hafter
    · exact List.forall_mem_append.mpr ⟨hleft, hrest⟩
    · refine mergeRanges_ends
        (List.forall_mem_append.mpr ⟨hleft, List.forall_mem_cons.mpr ⟨⟨?_, hn.2⟩, hrest'⟩⟩)
      exact hbefore ▸ hseq
    · exact List.forall_mem_append.mpr ⟨hleft, List.forall_mem_cons.mpr ⟨⟨hseq, hseq⟩, hrest⟩⟩
    · refine mergeRanges_ends (List.forall_mem_append.mpr ⟨List.forall_mem_append.mpr ⟨hleft,
        List.forall_mem_singleton.mpr ⟨hn.1, ?_⟩⟩, hrest'⟩)
      exact hafter ▸ hseq
    · exact ih (List.forall_mem_append.mpr ⟨hleft, List.forall_mem_singleton.mpr hn⟩) hrest'

theorem receive_ends {seq : ℤ} (hseq : P seq) {rs : List Interval} (h : ∀ r ∈ rs, Ends P r) :
    ∀ r ∈ (receive seq rs).2, Ends P r := receiveFrom_ends hseq rs (List.forall_mem_nil _) h

end Receiving

end Succinct.TrackerTexts
