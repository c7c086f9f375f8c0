import Mathlib.Data.List.Basic
import Succinct.TextModels
import Succinct.RangeLimits

/-!
A text survives compression. Each layer of the text compressor is undone by its
decoder, and the layers are put together in the order in which the decoder reads
them: the positions of the characters outside the alphabet, the lower-case text,
its case. A character above 0x7f is coded by the place holder of its kind, by its
code page, where that is the first one or another one than before, and by its
place in the page; the classes of ctype.h hold of ASCII characters only.
-/
namespace Succinct.TextRoundTrip

open Arithmetic RangeLossless RangeMessages RangeCodecs RangeLimits Interpolative Charset
  TextModels

/-- A frequency that leaves both symbols of an alphabet of two a share. -/
def Splits (f : ℕ) : Prop := 1 ≤ f ∧ f ≤ 0xffffff

/-- Every model of the handle is a strictly increasing cumulative table below
2^24. A position may be unused, its frequency being 0, but for the first. -/
structure Stats.Valid (h : Stats) : Prop where
  messagelengths : Cumulative h.messagelengths 1024
  extractVector : ∀ s, Cumulative (h.extractVector s) CHARCOUNT
  casestartofmessage : Splits h.casestartofmessage
  casestartofword2 : ∀ a, Splits (h.casestartofword2 a)
  casestartofword3 : ∀ a b, Splits (h.casestartofword3 a b)
  caseposn1 : Splits h.caseposn1
  caseposn2 : ∀ a p, p < 80 → h.caseposn2 a p ≤ 0xffffff
  caseposn2_first : ∀ a, 1 ≤ h.caseposn2 a 0

theorem Splits.cumulative {f : ℕ} (h : Splits f) : Cumulative [f] 2 := by
  refine ⟨?_, ?_⟩
  · intro i hi
    have hzero : i = 0 := by omega
    subst hzero
    exact h
  · intro i j hij hj
    omega

theorem usedPosn_spec (frequencies : ℕ → ℕ) (hfirst : 1 ≤ frequencies 0) (pos : ℕ) :
    usedPosn frequencies pos ≤ pos ∧ 1 ≤ frequencies (usedPosn frequencies pos) := by
  induction pos with
  | zero => exact ⟨Nat.le_refl 0, hfirst⟩
  | succ pos ih =>
    rw [usedPosn]
    split
    · exact ⟨by omega, ih.2⟩
    · exact ⟨Nat.le_refl _, by omega⟩

theorem caseFrequency_splits (h : Stats) (hh : Stats.Valid h) (i : ℕ) (st : CaseState) :
    Splits (caseFrequency h i st.enterLetter) := by
  unfold caseFrequency
  split
  · split
    · exact hh.casestartofmessage
    · split
      · exact hh.casestartofword3 _ _
      · split
        · exact hh.casestartofword2 _
        · exact hh.caseposn1
  · have hlast : st.enterLetter.wordPosn.toNat < 80 := by
      unfold CaseState.enterLetter
      simp only
      omega
    obtain ⟨hle, hpos⟩ := usedPosn_spec (h.caseposn2 st.enterLetter.lastCase)
      (hh.caseposn2_first _) st.enterLetter.wordPosn.toNat
    exact ⟨hpos, hh.caseposn2 _ _ (by omega)⟩

section Case

variable (h : Stats) (hh : Stats.Valid h)

include hh

/-- The case decoder gets the text in lower case and gives the text back. -/
theorem caseModel1_codes (line : List ℕ) (i : ℕ) (st : CaseState) :
    Codes (encodeCaseModel1 h i st line) (decodeCaseModel1 h i st (line.map tolower))
      (some line) := by
  induction line generalizing i st with
  | nil => exact Codes.pure (some [])
  | cons c rest ih =>
    rw [List.map_cons, encodeCaseModel1, decodeCaseModel1, charInWord_tolower, isalpha_tolower]
    cases halpha : isalpha c with
    | false =>
      rw [tolower_of_not_alpha c halpha]
      by_cases hword : (!charInWord c) = true
      · rw [if_pos hword, if_pos hword]
        exact (ih (i + 1) st.leaveWord).map fun line => line.map (c :: ·)
      · rw [if_neg hword, if_neg hword, if_neg Bool.false_ne_true, if_neg Bool.false_ne_true]
        exact (ih (i + 1) st).map fun line => line.map (c :: ·)
    | true =>
      simp only [charInWord_of_alpha c halpha, Bool.not_true,
        Bool.false_eq_true, if_false, if_true]
      have hcase : (isupper c).toNat < 2 := Bool.toNat_lt _
      refine (Codes.sym _ 2 _ hcase (caseFrequency_splits h hh i st).cumulative).cons ?_
      rw [if_neg (by omega)]
      have hback : (if ((isupper c).toNat : ℤ) = 1 then toupper (tolower c)
        else tolower c) = c := by
        have hrecase := recase c
        cases hupper : isupper c with
        | false => simpa [hupper] using hrecase
        | true => simpa [hupper] using hrecase
      simp only [hback]
      exact (ih (i + 1) _).map fun line => line.map (c :: ·)

end Case

section Alphabet

/-- The lower-case alphabet: what stripNonAlpha and stripCase leave of ASCII. -/
def InAlphabet (t : ℕ) : Prop := t < 0x80 ∧ 0 ≤ charIdx t ∧ t ≠ unicodeMark

/-- The lower-case alphabet and the plane above ASCII. -/
def InPlane (t : ℕ) : Prop := InAlphabet t ∨ 0x80 ≤ t ∧ t < 0x10000

/-- The code pages are cumulative tables, with the other pages behind the characters. -/
def Pages (h : Stats) : Prop :=
  ∀ page, 1 ≤ page → page ≤ 511 → Cumulative (h.unicodePage page) (128 + 512)

theorem cumulative_take {frequencies : List ℕ} {n k : ℕ} (h : Cumulative frequencies n)
    (hk : k ≤ n) : Cumulative frequencies k :=
  ⟨fun i hi => h.1 i (by omega), fun i j hij hj => h.2 i j hij (by omega)⟩

theorem charIdx_above {t : ℕ} (ht : 0x80 ≤ t) : charIdx t = charIdx unicodeMark := by
  unfold charIdx
  rw [if_pos (show t > 0x7f from ht)]
  rfl

variable {h : Stats}

/-- The page of a character and its place in the page are read back, whether the page is the
first one, the last one or another one. -/
theorem unicode_codes (hp : Pages h) (page : ℕ) (hpage : 1 ≤ page ∧ page ≤ 511) (first : Bool)
    (t : ℕ) (hlow : 0x80 ≤ t) (hhigh : t < 0x10000) :
    Codes ((encodePage h page first t).1 ++
        [.symbol (h.unicodePage (t / 0x80)) (if (encodePage h page first t).2 then 128
          else 128 + 512) (t % 0x80)])
      (decodeUnicode h page first) (some ((t / 0x80 : ℕ), (t % 0x80 : ℕ))) := by
  have hbounds : 1 ≤ t / 0x80 ∧ t / 0x80 ≤ 511 := by omega
  have htable := hp (t / 0x80) hbounds.1 hbounds.2
  have hplace :=
    Codes.sym (h.unicodePage (t / 0x80)) 128 (t % 0x80) (by omega)
      (cumulative_take htable (by omega))
  have hsmall : ¬ ((t % 0x80 : ℕ) : ℤ) > 127 := by omega
  unfold encodePage decodeUnicode
  simp only [pure_bind]
  cases first with
  | true =>
    rw [if_pos rfl, if_pos rfl]
    refine (Codes.equi 511 (t / 0x80 - 1) (by omega) (by omega)).cons ?_
    have hback : ((t / 0x80 - 1 : ℕ) : ℤ) + 1 = (t / 0x80 : ℕ) := by omega
    rw [hback, Int.toNat_natCast]
    refine hplace.cons ?_
    rw [if_neg hsmall]
    exact Codes.pure _
  | false =>
    rw [if_neg Bool.false_ne_true, if_neg Bool.false_ne_true, Int.toNat_natCast]
    by_cases hsame : t / 0x80 = page
    · rw [if_neg (not_not_intro hsame), hsame]
      rw [hsame] at htable
      refine (Codes.sym (h.unicodePage page) (128 + 512) (t % 0x80) (by omega) htable).cons ?_
      rw [if_neg hsmall]
      exact Codes.pure _
    · rw [if_pos hsame]
      have hlast := hp page hpage.1 hpage.2
      refine (Codes.sym (h.unicodePage page) (128 + 512) (128 + t / 0x80)
        (by omega) hlast).cons ?_
      have hswitch : ((128 + t / 0x80 : ℕ) : ℤ) - 128 = (t / 0x80 : ℕ) := by omega
      have hlegal : legalPage ((t / 0x80 : ℕ) : ℤ) = true := by
        rw [legalPage, decide_eq_true_eq]
        omega
      have hlarge : ((128 + t / 0x80 : ℕ) : ℤ) > 127 := by omega
      rw [if_pos hlarge, hswitch, if_pos hlegal, Int.toNat_natCast]
      exact hplace.map fun inner => some (((t / 0x80 : ℕ) : ℤ), inner)

variable (hh : Stats.Valid h)

include hh

/-- A character of the alphabet leaves the page as it is. -/
theorem letter_codes (context rest : List ℕ) {t : ℕ} (ht : InAlphabet t) (page : ℕ)
    (first : Bool) {y : List ℕ}
    (hrest : Codes (encodeLCAlphaSpace h (context ++ [t]) rest page first)
      (decodeLCAlphaSpace h rest.length (context ++ [t]) page first) y) :
    Codes (encodeLCAlphaSpace h context (t :: rest) page first)
      (decodeLCAlphaSpace h (rest.length + 1) context page first) y := by
  obtain ⟨hlt, hidx, hmark⟩ := ht
  obtain ⟨hcount, hchar⟩ := charIdx_spec t hlt hidx
  have hplain : ¬ (t = unicodeMark ∨ t > 0x7f) := by omega
  rw [encodeLCAlphaSpace, decodeLCAlphaSpace]
  refine (Codes.sym (h.extractVector context) CHARCOUNT (charIdx t).toNat hcount
    (hh.extractVector context)).cons ?_
  simp only [Int.toNat_natCast, hchar]
  by_cases hdigit : 48 ≤ t ∧ t ≤ 57
  · have hfold : folded t = 48 := by
      unfold folded
      split <;> omega
    have hback : (48 + ((t - 48 : ℕ) : ℤ)).toNat = t := by omega
    have hdecimal : isDigit t = true := decide_eq_true hdigit
    have hplace : isDigit 48 = true := by decide
    rw [hfold, if_pos hdecimal, if_pos hplace]
    refine (Codes.equi 10 (t - 48) (by omega) (by omega)).cons ?_
    rw [hback]
    exact hrest
  · have hfold : folded t = t := if_neg (by omega)
    have hother : ¬ isDigit t = true := fun h => hdigit (of_decide_eq_true h)
    rw [hfold, if_neg hother, if_neg hother, if_neg hplain, if_neg hplain]
    exact hrest

/-- A character above ASCII: the page goes on to the rest. -/
theorem mark_codes (hp : Pages h) (context rest : List ℕ) {t : ℕ} (hlow : 0x80 ≤ t)
    (hhigh : t < 0x10000) (page : ℕ) (hpage : 1 ≤ page ∧ page ≤ 511) (first : Bool) {y : List ℕ}
    (hrest : Codes (encodeLCAlphaSpace h (context ++ [t]) rest (t / 0x80) false)
      (decodeLCAlphaSpace h rest.length (context ++ [t]) (t / 0x80 : ℕ) false) y) :
    Codes (encodeLCAlphaSpace h context (t :: rest) page first)
      (decodeLCAlphaSpace h (rest.length + 1) context page first) y := by
  have hcount : (charIdx t).toNat < CHARCOUNT := by
    rw [charIdx_above hlow]
    decide
  have hchar : chars.getD (charIdx t).toNat 0 = unicodeMark := by
    rw [charIdx_above hlow]
    decide
  have hdigit : ¬ isDigit t = true := by
    rw [isDigit, decide_eq_true_eq]
    omega
  have hmark : ¬ isDigit unicodeMark = true := by decide
  have hback : ((((t / 0x80 : ℕ) : ℤ) * 0x80 + ((t % 0x80 : ℕ) : ℤ)) % 0x10000).toNat =
    t := by omega
  rw [encodeLCAlphaSpace, decodeLCAlphaSpace]
  refine (Codes.sym (h.extractVector context) CHARCOUNT (charIdx t).toNat hcount
    (hh.extractVector context)).cons ?_
  simp only [Int.toNat_natCast, hchar]
  rw [if_neg hdigit, if_neg hmark, if_pos (Or.inr (by omega)),
    if_pos (Or.inl trivial), ← List.singleton_append, ← List.append_assoc]
  refine (unicode_codes hp page hpage first t hlow hhigh).bind ?_
  simp only [hback]
  exact hrest

/-- The context, the last page and whether there was a page go through the loop of both
sides. The pages are asked for above ASCII only. -/
theorem lcAlphaSpace_codes (s context : List ℕ) (hs : ∀ t ∈ s, InPlane t)
    (hp : ∀ t ∈ s, 0x80 ≤ t → Pages h) (page : ℕ) (hpage : 1 ≤ page ∧ page ≤ 511) (first : Bool) :
    Codes (encodeLCAlphaSpace h context s page first)
      (decodeLCAlphaSpace h s.length context page first) (context ++ s) := by
  induction s generalizing context page first with
  | nil =>
    rw [List.append_nil]
    exact Codes.pure context
  | cons t rest ih =>
    obtain ⟨ht, hothers⟩ := List.forall_mem_cons.mp hs
    obtain ⟨hpt, hpothers⟩ := List.forall_mem_cons.mp hp
    have hrest := ih (context ++ [t]) hothers hpothers
    rw [List.append_assoc, List.singleton_append] at hrest
    rcases ht with halpha | ⟨hlow, hhigh⟩
    · exact letter_codes hh context rest halpha page first (hrest page hpage first)
    · exact mark_codes hh (hpt hlow) context rest hlow hhigh page hpage first
        (hrest (t / 0x80) (by omega) false)

end Alphabet

section Munging

def toggled (before c next : ℕ) : ℕ :=
  if c < 0x80 ∧ tolower c = 105 ∧ !isalpha before ∧ !isalpha next then c ^^^ 0x20 else c

theorem toggled_cases (before c next : ℕ) :
    toggled before c next = c ∨ c = 73 ∧ toggled before c next = 105 ∨
      c = 105 ∧ toggled before c next = 73 := by
  unfold toggled
  by_cases h : c < 128 ∧ tolower c = 105 ∧ (!isalpha before) = true ∧ (!isalpha next) = true
  · rw [if_pos h]
    have hletter := h.2.1
    unfold tolower at hletter
    have hcases : c = 73 ∨ c = 105 := by
      split at hletter <;> omega
    rcases hcases with rfl | rfl
    · exact Or.inr (Or.inl ⟨rfl, rfl⟩)
    · exact Or.inr (Or.inr ⟨rfl, rfl⟩)
  · rw [if_neg h]
    exact Or.inl rfl

theorem tolower_toggled (before c next : ℕ) : tolower (toggled before c next) = tolower c := by
  rcases toggled_cases before c next with h | ⟨rfl, h⟩ | ⟨rfl, h⟩
  · rw [h]
  · rw [h]
    rfl
  · rw [h]
    rfl

theorem isalpha_toggled (before c next : ℕ) : isalpha (toggled before c next) = isalpha c := by
  rw [← isalpha_tolower, tolower_toggled, isalpha_tolower]

/-- Toggling depends on whether the neighbours are letters, and undoes itself. -/
theorem toggled_toggled (before c next next' : ℕ) (hnext : isalpha next' = isalpha next) :
    toggled before (toggled before c next) next' = c := by
  by_cases h : c < 0x80 ∧ tolower c = 105 ∧ !isalpha before ∧ !isalpha next
  · have hfirst : toggled before c next = c ^^^ 0x20 := if_pos h
    rcases toggled_cases before c next with hsame | ⟨rfl, h'⟩ | ⟨rfl, h'⟩
    · rw [hsame] at hfirst ⊢
      unfold toggled
      rw [hnext, if_pos h]
      exact hfirst.symm
    · rw [h']
      unfold toggled
      rw [hnext, if_pos ⟨by decide, by decide, h.2.2⟩]
      rfl
    · rw [h']
      unfold toggled
      rw [hnext, if_pos ⟨by decide, by decide, h.2.2⟩]
      rfl
  · have hfirst : toggled before c next = c := if_neg h
    rw [hfirst]
    unfold toggled
    rw [hnext, if_neg h]

theorem mungeFrom_cons (before c next : ℕ) (rest : List ℕ) :
    mungeFrom before (c :: next :: rest) =
      toggled before c next :: mungeFrom (toggled before c next) (next :: rest) := rfl

theorem mungeFrom_congr (b b' : ℕ) (hb : isalpha b = isalpha b') (s : List ℕ) :
    mungeFrom b s = mungeFrom b' s := by
  rcases s with _ | ⟨c, _ | ⟨next, rest⟩⟩
  · rfl
  · rfl
  · have htoggle : toggled b c next = toggled b' c next := by
      unfold toggled
      rw [hb]
    rw [mungeFrom_cons, mungeFrom_cons, htoggle]

theorem mungeFrom_head (before c : ℕ) (rest : List ℕ) :
    ∃ c' rest', mungeFrom before (c :: rest) = c' :: rest' ∧ isalpha c' = isalpha c := by
  cases rest with
  | nil => exact ⟨c, [], rfl, rfl⟩
  | cons next rest => exact ⟨_, _, rfl, isalpha_toggled before c next⟩

theorem mungeFrom_tolower (before : ℕ) (s : List ℕ) :
    (mungeFrom before s).map tolower = s.map tolower := by
  induction s generalizing before with
  | nil => rfl
  | cons c rest ih =>
    cases rest with
    | nil => rfl
    | cons next rest =>
      rw [mungeFrom_cons, List.map_cons, tolower_toggled, ih]
      rfl

theorem mungeFrom_mungeFrom (before : ℕ) (s : List ℕ) :
    mungeFrom before (mungeFrom before s) = s := by
  induction s generalizing before with
  | nil => rfl
  | cons c rest ih =>
    cases rest with
    | nil => rfl
    | cons next rest =>
      obtain ⟨next', rest', hrest, halpha⟩ := mungeFrom_head (toggled before c next) next rest
      have hback := ih (toggled before c next)
      rw [mungeFrom_cons, hrest, mungeFrom_cons, toggled_toggled before c next next' halpha]
      rw [hrest] at hback
      rw [mungeFrom_congr c (toggled before c next) (isalpha_toggled before c next).symm, hback]

theorem mungeCase_mungeCase (s : List ℕ) : mungeCase (mungeCase s) = s := by
  cases s with
  | nil => rfl
  | cons c rest =>
    change c :: mungeFrom c (mungeFrom c rest) = c :: rest
    rw [mungeFrom_mungeFrom]

theorem mungeCase_tolower (s : List ℕ) : (mungeCase s).map tolower = s.map tolower := by
  cases s with
  | nil => rfl
  | cons c rest =>
    change tolower c :: (mungeFrom c rest).map tolower = tolower c :: rest.map tolower
    rw [mungeFrom_tolower]

end Munging

section NonAlphabetic

theorem nonAlphaPositions_append (xs ys : List ℕ) :
    nonAlphaPositions (xs ++ ys) =
      nonAlphaPositions xs ++ (nonAlphaPositions ys).map (xs.length + ·) := by
  unfold nonAlphaPositions
  rw [List.length_append, List.range_add, List.filter_append]
  congr 1
  · apply List.filter_congr
    intro i hi
    rw [List.getD_append _ _ _ _ (List.mem_range.mp hi)]
  · rw [List.filter_map]
    congr 1
    apply List.filter_congr
    intro i _
    simp only [Function.comp_apply]
    rw [List.getD_append_right _ _ _ _ (Nat.le_add_right _ _), Nat.add_sub_cancel_left]

theorem nonAlphaPositions_single (c : ℕ) :
    nonAlphaPositions [c] = if nonAlpha c then [0] else [] := by
  have hrange : List.range [c].length = [0] := rfl
  unfold nonAlphaPositions
  rw [hrange]
  cases hc : nonAlpha c with
  | false => exact List.filter_cons_of_neg (by simp [hc])
  | true => exact List.filter_cons_of_pos hc

theorem length_nonAlphaPositions (m : List ℕ) :
    (nonAlphaPositions m).length = (m.filter nonAlpha).length := by
  induction m with
  | nil => rfl
  | cons c rest ih =>
    have happend := nonAlphaPositions_append [c] rest
    rw [List.singleton_append] at happend
    rw [happend, List.length_append, List.length_map, ih, nonAlphaPositions_single]
    cases hc : nonAlpha c with
    | false => simp [hc]
    | true =>
      simp [hc]
      omega

theorem nonAlphaPositions_increasing (m : List ℕ) :
    Increasing (fun i => ((nonAlphaPositions m).getD i.toNat 0 : ℕ))
      (nonAlphaPositions m).length m.length := by
  have hsorted : (nonAlphaPositions m).Pairwise (· < ·) := List.pairwise_lt_range.filter _
  have hget : ∀ i : ℕ, i < (nonAlphaPositions m).length →
      (nonAlphaPositions m).getD i 0 < m.length := by
    intro i hi
    rw [List.getD_eq_getElem _ _ hi]
    exact List.mem_range.mp (List.mem_filter.mp (List.getElem_mem hi)).1
  refine ⟨?_, ?_, ?_⟩
  · intro i _ _
    exact Int.natCast_nonneg _
  · intro i h1 h2
    have hlt := hget i.toNat (by omega)
    exact_mod_cast Nat.le_of_lt hlt
  · intro i h1 h2
    have h3 : i.toNat + 1 < (nonAlphaPositions m).length := by omega
    have hnext : (i + 1).toNat = i.toNat + 1 := by omega
    simp only [hnext]
    rw [List.getD_eq_getElem _ _ h3, List.getD_eq_getElem _ _ (by omega)]
    exact_mod_cast List.pairwise_iff_getElem.mp hsorted i.toNat (i.toNat + 1) (by omega) h3
      (Nat.lt_succ_self _)

def stored (m : List ℕ) : NonAlpha where
  positions := fun i => if 0 ≤ i ∧ i < ((nonAlphaPositions m).length : ℤ) then
    ((nonAlphaPositions m).getD i.toNat 0 : ℕ) else 0
  values := m.filter nonAlpha
  count := (nonAlphaPositions m).length

theorem decodeBytes_codes (v : List ℕ) (hv : ∀ c ∈ v, c < 256) :
    Codes (v.map fun c => .equiprobable 256 c) (decodeBytes v.length) v := by
  induction v with
  | nil => exact Codes.pure []
  | cons c rest ih =>
    have hc := hv c (List.mem_cons_self ..)
    have hrest := ih (fun x hx => hv x (List.mem_cons_of_mem _ hx))
    refine (Codes.equi 256 c hc (by omega)).cons ?_
    have hbyte : ((c : ℤ) % 0x100).toNat = c := by omega
    rw [hbyte]
    exact hrest.map fun rest => c :: rest

theorem probPackedASCII_cumulative : Cumulative [probPackedASCII] 2 :=
  Splits.cumulative ⟨by decide, by decide⟩

theorem probNoNonAlpha_cumulative : Cumulative [probNoNonAlpha] 2 :=
  Splits.cumulative ⟨by decide, by decide⟩

theorem nonAlpha_codes (m : List ℕ) (hm : m.length < 1024) :
    Codes (encodeNonAlpha m) (decodeNonAlpha m.length) (stored m) := by
  unfold encodeNonAlpha decodeNonAlpha
  simp only
  by_cases hnone : nonAlphaPositions m = []
  · have hfilter : m.filter nonAlpha = [] := by
      rw [← List.length_eq_zero_iff, ← length_nonAlphaPositions, hnone]
      rfl
    have hstored : stored m = ⟨fun _ => 0, [], 0⟩ := by
      unfold stored
      rw [hfilter, hnone]
      congr 1
      funext i
      exact if_neg (by simp)
    rw [if_pos hnone, hstored]
    refine (Codes.sym [probNoNonAlpha] 2 0 (by omega) probNoNonAlpha_cumulative).cons ?_
    exact Codes.pure _
  · have hcount : (nonAlphaPositions m).length ≤ m.length := by
      rw [length_nonAlphaPositions]
      exact List.length_filter_le _ _
    have hpos : 1 ≤ (nonAlphaPositions m).length :=
      List.length_pos_iff.mpr hnone
    rw [if_neg hnone, List.append_assoc, List.cons_append, List.cons_append, List.nil_append]
    refine (Codes.sym [probNoNonAlpha] 2 1 (by omega) probNoNonAlpha_cumulative).cons ?_
    rw [if_neg (by simp)]
    have hsize : ((m.length : ℤ) + 1).toNat = m.length + 1 := by omega
    rw [hsize]
    refine (Codes.equi (m.length + 1) (nonAlphaPositions m).length (by omega) (by omega)).cons ?_
    have hpositions := (nonAlphaPositions_increasing m).codes (by omega) (by omega)
      (by omega) (fun _ => 0)
    refine hpositions.bind ?_
    rw [Int.toNat_natCast]
    have hvalues := decodeBytes_codes (m.filter nonAlpha) (by
      intro c hc
      have hsmall := (List.mem_filter.mp hc).2
      unfold nonAlpha at hsmall
      rw [decide_eq_true_eq] at hsmall
      omega)
    rw [← length_nonAlphaPositions] at hvalues
    exact hvalues.map fun values => (⟨(stored m).positions, values, (stored m).count⟩ : NonAlpha)

/-- The loop puts every character back at its index: the pointer counts the
characters outside the alphabet that are already placed. -/
theorem reintegrate_stored (before after : List ℕ) :
    reintegrate (stored (before ++ after)) after.length before.length
      (before.filter nonAlpha).length (after.filter fun c => !nonAlpha c) = after := by
  induction after generalizing before with
  | nil => rfl
  | cons c rest ih =>
    have hsplit : before ++ c :: rest = before ++ [c] ++ rest := by simp
    have hnext := ih (before ++ [c])
    rw [← hsplit, List.length_append, List.length_singleton, List.filter_append,
      List.length_append] at hnext
    have hpositions : nonAlphaPositions (before ++ c :: rest) = nonAlphaPositions before ++
        ((if nonAlpha c then [before.length] else []) ++
          (nonAlphaPositions rest).map (before.length + 1 + ·)) := by
      rw [hsplit, nonAlphaPositions_append, nonAlphaPositions_append, nonAlphaPositions_single,
        List.length_append, List.length_singleton, List.append_assoc]
      congr 2
      cases nonAlpha c <;> rfl
    rw [List.length_cons, reintegrate]
    cases hc : nonAlpha c with
    | true =>
      rw [hc, if_pos rfl] at hpositions
      have hlen : (before.filter nonAlpha).length <
        (nonAlphaPositions (before ++ c :: rest)).length := by
        rw [hpositions, List.length_append, length_nonAlphaPositions]
        simp
      have hat : (nonAlphaPositions (before ++ c :: rest)).getD
        (before.filter nonAlpha).length 0 =
          before.length := by
        rw [hpositions, ← length_nonAlphaPositions,
          List.getD_append_right _ _ _ _ (Nat.le_refl _), Nat.sub_self]
        rfl
      have hvalue : (stored (before ++ c :: rest)).values.getD (before.filter nonAlpha).length 0 =
          c := by
        change ((before ++ c :: rest).filter nonAlpha).getD _ 0 = c
        rw [List.filter_append, List.getD_append_right _ _ _ _ (Nat.le_refl _), Nat.sub_self,
          List.filter_cons_of_pos hc]
        rfl
      have hcond : (((before.filter nonAlpha).length : ℕ) : ℤ) <
        (stored (before ++ c :: rest)).count ∧
          (stored (before ++ c :: rest)).positions ((before.filter nonAlpha).length : ℕ) =
            (before.length : ℕ) := by
        refine ⟨Int.ofNat_lt.mpr hlen, ?_⟩
        change (if _ then _ else _) = _
        rw [if_pos (by omega), Int.toNat_natCast, hat]
      rw [if_pos hcond, hvalue, List.filter_cons_of_neg (by simp [hc])]
      rw [List.filter_cons_of_pos hc] at hnext
      exact congrArg (c :: ·) hnext
    | false =>
      have hcond : ¬ ((((before.filter nonAlpha).length : ℕ) : ℤ) <
        (stored (before ++ c :: rest)).count ∧
          (stored (before ++ c :: rest)).positions ((before.filter nonAlpha).length : ℕ) =
            (before.length : ℕ)) := by
        rintro ⟨hlt, hat⟩
        have hlt' : (before.filter nonAlpha).length <
          (nonAlphaPositions (before ++ c :: rest)).length := by
          exact Int.ofNat_lt.mp hlt
        change (if _ then _ else _) = _ at hat
        rw [if_pos (by omega), Int.toNat_natCast, List.getD_eq_getElem _ _ hlt'] at hat
        have hmem := List.getElem_mem hlt'
        have hbad := (List.mem_filter.mp hmem).2
        rw [Int.ofNat_inj.mp hat, List.getD_append_right _ _ _ _ (Nat.le_refl _),
          Nat.sub_self] at hbad
        exact absurd hbad (by simp [hc])
      rw [if_neg hcond, List.filter_cons_of_pos (by simp [hc])]
      rw [List.filter_cons_of_neg (by simp [hc])] at hnext
      simp only [List.filter_nil, List.length_nil, Nat.add_zero] at hnext
      rw [List.headD_cons, List.tail_cons, hnext]

/-- What stands outside the alphabet is ASCII. -/
theorem stripNonAlpha_eq (s : List ℕ) : stripNonAlpha s = s.filter fun c => !nonAlpha c := by
  apply List.filter_congr
  intro c _
  have hkept : (c > 0x80 ∨ charIdx (tolower c) ≥ 0) ↔ ¬ (c < 0x80 ∧ charIdx (tolower c) < 0) := by
    constructor
    · omega
    · intro h
      by_cases hascii : c < 0x80
      · omega
      · have hlower : tolower c = c := if_neg (by omega)
        right
        rw [hlower, charIdx_above (by omega)]
        decide
  rw [nonAlpha, ← decide_not, decide_eq_decide]
  exact hkept

theorem stripCase_eq (s : List ℕ) : stripCase s = s.map tolower := by
  apply List.map_congr_left
  intro c _
  split
  · rfl
  · exact (if_neg (by omega)).symm

/-- A unit in lower case that is not taken out. -/
theorem inPlane_tolower {c : ℕ} (hc : c < 0x10000) (hkept : nonAlpha c = false) :
    InPlane (tolower c) := by
  rw [nonAlpha, decide_eq_false_iff_not] at hkept
  by_cases hascii : c < 0x80
  · exact Or.inl ⟨tolower_lt c hascii, by omega, tolower_ne_mark c⟩
  · have hlower : tolower c = c := if_neg (by omega)
    rw [hlower]
    exact Or.inr ⟨by omega, hc⟩

theorem length_kept (s : List ℕ) :
    (nonAlphaPositions s).length + (stripNonAlpha s).length = s.length := by
  rw [stripNonAlpha_eq, length_nonAlphaPositions]
  exact (s.length_eq_length_filter_add nonAlpha).symm

end NonAlphabetic

section Ascii

def Ascii (m : List UInt8) : Prop := ∀ b ∈ m, 0 < b.toNat ∧ b.toNat < 0x80

variable {m : List UInt8} (hm : Ascii m)

include hm

theorem utf8toutf16Loop_ascii (fuel i : ℕ) (hi : fuel + i = m.length) :
    utf8toutf16Loop m m.length fuel i = some ((m.drop i).map UInt8.toNat) := by
  induction fuel generalizing i with
  | zero =>
    rw [List.drop_eq_nil_iff.mpr (by omega)]
    rfl
  | succ fuel ih =>
    have hlt : i < m.length := by omega
    have hbyte : byteAt m i = m[i].toNat := by
      unfold byteAt
      rw [List.getD_eq_getElem _ _ hlt]
    have hsmall := (hm m[i] (List.getElem_mem hlt)).2
    rw [utf8toutf16Loop, if_neg (by omega)]
    simp only [hbyte]
    rw [if_neg (by omega), if_pos (by omega), ih (i + 1) (by omega),
      List.drop_eq_getElem_cons hlt]
    rfl

theorem utf8toutf16_ascii : utf8toutf16 m m.length = some (m.map UInt8.toNat) :=
  utf8toutf16Loop_ascii hm m.length 0 (by omega)

omit hm in
theorem utf16toutf8Loop_ascii (s : List ℕ) (hs : ∀ c ∈ s, c < 0x80) (out : List UInt8)
    (hlen : out.length + s.length ≤ 1024) :
    utf16toutf8Loop s out = out ++ s.map Nat.toUInt8 := by
  induction s generalizing out with
  | nil => simp [utf16toutf8Loop]
  | cons c rest ih =>
    rw [List.length_cons] at hlen
    rw [utf16toutf8Loop, if_pos (hs c (List.mem_cons_self ..)), if_neg (by omega),
      ih (fun x hx => hs x (List.mem_cons_of_mem _ hx))
        _ (by rw [List.length_append]; simp; omega)]
    simp

theorem utf16toutf8_ascii (hlen : m.length ≤ 1023) : utf16toutf8 (m.map UInt8.toNat) = m := by
  have hsmall : ∀ c ∈ m.map UInt8.toNat, c < 0x80 := by
    intro c hc
    obtain ⟨b, hb, rfl⟩ := List.mem_map.mp hc
    exact (hm b hb).2
  unfold utf16toutf8
  rw [utf16toutf8Loop_ascii _ hsmall [] (by simp; omega), List.nil_append, List.map_map]
  have hback : ∀ b ∈ m, (Nat.toUInt8 ∘ UInt8.toNat) b = id b := fun b _ => UInt8.ofNat_toNat
  rw [List.map_congr_left hback, List.map_id]

end Ascii

/-- The handle can encode the text, which has these units: it has the code pages if one of
them is needed. -/
structure Encodable (h : Stats) (m : List UInt8) (s : List ℕ) : Prop where
  stats : Stats.Valid h
  size : m.length ≤ 1023
  units : utf8toutf16 m m.length = some s
  written : utf16toutf8 s = m
  count : s.length ≤ m.length
  plane : ∀ c ∈ s, c < 0x10000
  pages : ∀ c ∈ s, 0x80 ≤ c → Pages h

theorem Ascii.encodable {m : List UInt8} (hm : Ascii m) {h : Stats} (hh : Stats.Valid h)
    (hlen : m.length ≤ 1023) : Encodable h m (m.map UInt8.toNat) where
  stats := hh
  size := hlen
  units := utf8toutf16_ascii hm
  written := utf16toutf8_ascii hm hlen
  count := (List.length_map _).le
  plane := by
    intro c hc
    obtain ⟨b, -, rfl⟩ := List.mem_map.mp hc
    exact b.toNat_lt.trans (by decide)
  pages := by
    intro c hc habove
    obtain ⟨b, hb, rfl⟩ := List.mem_map.mp hc
    have hsmall := (hm b hb).2
    omega

section Messages

variable {h : Stats} {m : List UInt8} {s : List ℕ} (he : Encodable h m s)

include he

/-- What is left for the alphabet. -/
theorem Encodable.kept {t : ℕ} (ht : t ∈ (stripNonAlpha s).map tolower) :
    InPlane t ∧ (0x80 ≤ t → Pages h) := by
  obtain ⟨c, hc, rfl⟩ := List.mem_map.mp ht
  rw [stripNonAlpha_eq] at hc
  obtain ⟨hmem, hkept⟩ := List.mem_filter.mp hc
  refine ⟨inPlane_tolower (he.plane c hmem) (by simpa using hkept), fun habove => ?_⟩
  by_cases hascii : c < 0x80
  · have hlower := tolower_lt c hascii
    omega
  · exact he.pages c hmem (by omega)

/-- The sub-model for words. -/
theorem model1_codes :
    Codes (stats3CompressModel1Append h m m.length).2 (stats3DecompressBits h)
      (some ⟨m, m.length⟩) := by
  have hshort : s.length < 1024 := he.count.trans_lt (Nat.lt_succ_of_le he.size)
  have hkept := length_kept s
  unfold stats3CompressModel1Append stats3DecompressBits
  rw [he.units]
  simp only [List.append_assoc, List.cons_append, List.nil_append]
  refine (Codes.equi 2 1 (by omega) (by omega)).cons ?_
  refine (Codes.equi 2 0 (by omega) (by omega)).cons ?_
  rw [if_neg (by simp)]
  refine (Codes.sym [probPackedASCII] 2 1 (by omega) probPackedASCII_cumulative).cons ?_
  refine (Codes.sym h.messagelengths 1024 s.length hshort he.stats.messagelengths).cons ?_
  rw [if_neg (by simp)]
  refine (nonAlpha_codes s hshort).bind ?_
  have halphaCount : ((s.length : ℤ) - (stored s).count).toNat = (stripNonAlpha s).length := by
    change ((s.length : ℤ) - ((nonAlphaPositions s).length : ℕ)).toNat = _
    omega
  have hall : (stripNonAlpha s).length + (stored s).count.toNat = s.length := by
    change (stripNonAlpha s).length + ((nonAlphaPositions s).length : ℤ).toNat = _
    omega
  simp only [halphaCount, hall]
  have htext := lcAlphaSpace_codes he.stats ((stripNonAlpha s).map tolower) []
    (fun t ht => (he.kept ht).1) (fun t ht => (he.kept ht).2) 1 (by omega) true
  rw [List.length_map] at htext
  rw [stripCase_eq]
  refine htext.bind ?_
  have hcase := caseModel1_codes h he.stats (mungeCase (stripNonAlpha s)) 0 {}
  rw [mungeCase_tolower] at hcase
  have hresult := hcase.map fun line => line.map fun line =>
    (⟨utf16toutf8 (reintegrate (stored s) s.length 0 0 (mungeCase line)),
      (utf16toutf8 (reintegrate (stored s) s.length 0 0 (mungeCase line))).length⟩ : Text)
  have hplaced : reintegrate (stored s) s.length 0 0 (stripNonAlpha s) = s := by
    rw [stripNonAlpha_eq]
    exact reintegrate_stored [] s
  simp only [Option.map_some, mungeCase_mungeCase, hplaced, he.written] at hresult
  exact hresult

omit he in
theorem encodePackedASCII_codes (m : List UInt8) (hprint : (encodePackedASCII m).1 = 0) :
    Codes (encodePackedASCII m).2 (decodePackedASCII m.length) m := by
  induction m with
  | nil => exact Codes.pure []
  | cons b rest ih =>
    rw [encodePackedASCII] at hprint ⊢
    by_cases hbad : printableCharIdx b.toNat < 0
    · simp [hbad] at hprint
    · simp only [if_neg hbad] at hprint ⊢
      obtain ⟨hlt, hchar⟩ := printableCharIdx_spec b.toNat (by omega)
      have hcount : PRINTABLECHARCOUNT < 0x80000000 := by decide
      refine (Codes.equi PRINTABLECHARCOUNT _ hlt hcount).cons ?_
      have hback : (printableChars.getD ((printableCharIdx b.toNat).toNat : ℤ).toNat
        0).toUInt8 = b := by
        rw [Int.toNat_natCast, hchar]
        exact UInt8.ofNat_toNat
      rw [hback]
      exact (ih hprint).map fun rest => b :: rest

theorem radix_codes (hprint : (stats3CompressRadixAppend h m m.length).1 = 0) :
    Codes (stats3CompressRadixAppend h m m.length).2 (stats3DecompressBits h)
      (some ⟨m, m.length⟩) := by
  have hpacked := encodePackedASCII_codes m hprint
  unfold stats3CompressRadixAppend stats3DecompressBits
  simp only [List.cons_append, List.nil_append]
  refine (Codes.equi 2 1 (by omega) (by omega)).cons ?_
  refine (Codes.equi 2 0 (by omega) (by omega)).cons ?_
  rw [if_neg (by simp)]
  refine (Codes.sym [probPackedASCII] 2 0 (by omega) probPackedASCII_cumulative).cons ?_
  refine (Codes.sym h.messagelengths 1024 m.length
    (Nat.lt_succ_of_le he.size) he.stats.messagelengths).cons ?_
  rw [if_pos Nat.cast_zero, Int.toNat_natCast]
  exact hpacked.map fun m' => some (⟨m', m.length⟩ : Text)

omit he in
theorem trialBits_le (steps : List Step) : trialBits steps ≤ 8192 := by
  have hused := encoded_bitsUsed (List.replicate 1024 0) steps
  rwa [List.length_replicate] at hused

omit he in
/-- One of the two sub-models is picked, the packed one only for a printable text. -/
theorem append_cases (h : Stats) (m : List UInt8) (len : ℕ) :
    stats3CompressAppend h m len = stats3CompressModel1Append h m len ∨
      (stats3CompressRadixAppend h m len).1 = 0 ∧
        stats3CompressAppend h m len = stats3CompressRadixAppend h m len := by
  have hbound1 := trialBits_le (stats3CompressModel1Append h m len).2
  have hbound2 := trialBits_le (stats3CompressRadixAppend h m len).2
  unfold stats3CompressAppend
  simp only
  by_cases hprint : (stats3CompressRadixAppend h m len).1 = 0
  · rw [if_neg (not_not_intro hprint)]
    split
    · exact Or.inl rfl
    · rw [if_pos (by omega)]
      exact Or.inr ⟨hprint, rfl⟩
  · rw [if_pos hprint, if_pos (by omega)]
    exact Or.inl rfl

theorem append_codes :
    Codes (stats3CompressAppend h m m.length).2 (stats3DecompressBits h)
      (some ⟨m, m.length⟩) := by
  rcases append_cases h m m.length with hmodel1 | ⟨hprint, hradix⟩
  · rw [hmodel1]
    exact model1_codes he
  · rw [hradix]
    exact radix_codes he hprint

def decodeBetween (h : Stats) (before after : List Step) :
    Decoder (List ℤ × Option Text × List ℤ) := do
  let xs ← decodeAll before
  let text ← stats3DecompressBits h
  let ys ← decodeAll after
  pure (xs, text, ys)

/-- A text that can be encoded comes back from between other symbols. -/
theorem between_round_trip (before after : List Step) (hbefore : ∀ step ∈ before, step.Valid)
    (hafter : ∀ step ∈ after, step.Valid) (buffer : List UInt8)
    (hroom : (encoded buffer
      (before ++ (stats3CompressAppend h m m.length).2 ++ after)).outOfBits = false)
    (stream : List UInt8) (length : ℕ) (further : List Bool)
    (hstream : streamBits stream length = RangePhases.emitted (encoded buffer
      (before ++ (stats3CompressAppend h m m.length).2 ++ after)) ++ further) :
    ((decodeBetween h before after).run (rangeDecodePrefetch (decoderOn stream length))).1 =
      (before.map fun step => (step.value : ℤ), some ⟨m, m.length⟩,
        after.map fun step => (step.value : ℤ)) := by
  have htext := append_codes he
  have hends := (Codes.all after hafter).map fun ys =>
    (before.map (fun step => (step.value : ℤ)), some (⟨m, m.length⟩ : Text), ys)
  have hmessage : Codes (before ++ ((stats3CompressAppend h m m.length).2 ++ after))
      (decodeBetween h before after) (before.map fun step => (step.value : ℤ), some ⟨m, m.length⟩,
        after.map fun step => (step.value : ℤ)) :=
    (Codes.all before hbefore).bind (htext.bind hends)
  rw [← List.append_assoc] at hmessage
  exact hmessage.decoded buffer hroom stream length further hstream

end Messages

section Texts

variable (h : Stats) (hh : Stats.Valid h) {m : List UInt8} (hm : Ascii m) (hlen : m.length ≤ 1023)

include hh hm hlen

theorem text_round_trip (before after : List Step) (hbefore : ∀ step ∈ before, step.Valid)
    (hafter : ∀ step ∈ after, step.Valid) (buffer : List UInt8)
    (hroom : (encoded buffer
      (before ++ (stats3CompressAppend h m m.length).2 ++ after)).outOfBits = false)
    (stream : List UInt8) (length : ℕ) (further : List Bool)
    (hstream : streamBits stream length = RangePhases.emitted (encoded buffer
      (before ++ (stats3CompressAppend h m m.length).2 ++ after)) ++ further) :
    ((decodeBetween h before after).run (rangeDecodePrefetch (decoderOn stream length))).1 =
      (before.map fun step => (step.value : ℤ), some ⟨m, m.length⟩,
        after.map fun step => (step.value : ℤ)) :=
  between_round_trip (hm.encodable hh hlen) before after hbefore hafter buffer hroom stream
    length further hstream

end Texts

def evenTable (k n : ℕ) : List ℕ := (List.range n).map fun i => k * (i + 1)

def half : ℕ := 0x800000

def evenStats : Stats where
  messagelengths := evenTable 16000 1024
  extractVector := fun _ => evenTable 200000 65
  unicodePage := fun _ => []
  casestartofmessage := half
  casestartofword2 := fun _ => half
  casestartofword3 := fun _ _ => half
  caseposn1 := half
  caseposn2 := fun _ _ => half

theorem even_cumulative (k n : ℕ) (hk : 1 ≤ k) (hn : k * n ≤ 0xffffff) :
    Cumulative (evenTable k n) n := by
  have hget : ∀ i, i < n → (evenTable k n).getD i 0 = k * (i + 1) := by
    intro i hi
    unfold evenTable
    rw [List.getD_eq_getElem _ _ (by simpa using hi)]
    simp
  refine ⟨?_, ?_⟩
  · intro i hi
    rw [hget i (by omega)]
    have hle : k * (i + 1) ≤ k * n := Nat.mul_le_mul_left k (by omega)
    have hpos : 1 * 1 ≤ k * (i + 1) := Nat.mul_le_mul hk (by omega)
    omega
  · intro i j hij hj
    rw [hget i (by omega), hget j (by omega)]
    exact Nat.mul_lt_mul_of_pos_left (by omega) hk

theorem half_splits : Splits half := ⟨by decide, by decide⟩

theorem evenStats_valid : Stats.Valid evenStats where
  messagelengths := by
    simp only [evenStats]
    exact even_cumulative 16000 1024 (by omega) (by omega)
  extractVector := fun _ => even_cumulative 200000 65 (by omega) (by omega)
  casestartofmessage := half_splits
  casestartofword2 := fun _ => half_splits
  casestartofword3 := fun _ _ => half_splits
  caseposn1 := half_splits
  caseposn2 := fun _ _ _ => half_splits.2
  caseposn2_first := fun _ => half_splits.1

def sampleText : List UInt8 := [72, 105, 1, 32, 73, 32, 55]

def sampleSteps : List Step :=
  [.equiprobable 5 3] ++ (stats3CompressAppend evenStats sampleText sampleText.length).2 ++
    [.equiprobable 9 7]

theorem text_round_trip_sample :
    (encoded (List.replicate 40 0) sampleSteps).outOfBits = false ∧
    ((decodeBetween evenStats [.equiprobable 5 3] [.equiprobable 9 7]).run (rangeDecodePrefetch
      (decoderOn (encoded (List.replicate 40 0) sampleSteps).bitStream
        (encoded (List.replicate 40 0) sampleSteps).bitsUsed))).1 =
      ([3], some ⟨sampleText, 7⟩, [7]) := by
  have hroom : (encoded (List.replicate 40 0) sampleSteps).outOfBits = false := by decide +kernel
  have hascii : Ascii sampleText := by
    unfold Ascii sampleText
    decide +kernel
  have hvalid : ∀ n t : ℕ, t < n ∧ n < 10 →
      ∀ step ∈ [Step.equiprobable n t], step.Valid := by
    intro n t hnt step hstep
    rw [List.mem_singleton] at hstep
    subst hstep
    exact ⟨hnt.1, by omega⟩
  refine ⟨hroom, ?_⟩
  exact text_round_trip evenStats evenStats_valid hascii (by decide) [.equiprobable 5 3]
    [.equiprobable 9 7] (hvalid 5 3 (by omega)) (hvalid 9 7 (by omega)) (List.replicate 40 0)
    hroom _ _ [] (List.append_nil _).symm

end Succinct.TextRoundTrip
