import Succinct.TextRoundTrip

/-!
Every symbol that the text compressor codes for a message lies in the
alphabet of its model, whichever sub-model is picked; nothing fails but for
want of room.
-/
namespace Succinct.TextSymbols

open RangeLossless RangeMessages Interpolative Charset TextModels TextRoundTrip

def AllValid (steps : List Step) : Prop := ∀ step ∈ steps, step.Valid

theorem AllValid.nil : AllValid [] := by simp [AllValid]

theorem AllValid.cons {step : Step} {rest : List Step} (h : step.Valid) (hrest : AllValid rest) :
    AllValid (step :: rest) :=
  List.forall_mem_cons.mpr ⟨h, hrest⟩

theorem AllValid.append {xs ys : List Step} (hx : AllValid xs) (hy : AllValid ys) :
    AllValid (xs ++ ys) :=
  List.forall_mem_append.mpr ⟨hx, hy⟩

section Models

variable {h : Stats} (hh : Stats.Valid h)

include hh

theorem caseModel1_valid (line : List ℕ) (i : ℕ) (st : CaseState) :
    AllValid (encodeCaseModel1 h i st line) := by
  induction line generalizing i st with
  | nil => exact AllValid.nil
  | cons c rest ih =>
    rw [encodeCaseModel1]
    split
    · exact ih _ _
    · split
      · exact AllValid.cons ⟨Bool.toNat_lt _,
          (caseFrequency_splits h hh i st).cumulative⟩ (ih _ _)
      · exact ih _ _

omit hh in
theorem encodePage_valid (hp : Pages h) (page : ℕ) (hpage : 1 ≤ page ∧ page ≤ 511) (first : Bool)
    (t : ℕ) (hlow : 0x80 ≤ t) (hhigh : t < 0x10000) : AllValid ((encodePage h page first t).1 ++
      [.symbol (h.unicodePage (t / 0x80)) (if (encodePage h page first t).2 then 128
        else 128 + 512) (t % 0x80)]) := by
  have htable := hp (t / 0x80) (by omega) (by omega)
  have hplace : Step.Valid (.symbol (h.unicodePage (t / 0x80)) 128 (t % 0x80)) :=
    ⟨by omega, cumulative_take htable (by omega)⟩
  unfold encodePage
  cases first with
  | true =>
    rw [if_pos rfl]
    exact AllValid.cons ⟨by omega, by omega⟩ (AllValid.cons hplace AllValid.nil)
  | false =>
    rw [if_neg Bool.false_ne_true]
    by_cases hsame : t / 0x80 = page
    · rw [if_neg (not_not_intro hsame)]
      exact AllValid.cons ⟨show t % 0x80 < 128 + 512 by omega, htable⟩ AllValid.nil
    · rw [if_pos hsame]
      exact AllValid.cons ⟨by omega, hp page hpage.1 hpage.2⟩ (AllValid.cons hplace AllValid.nil)

theorem lcAlphaSpace_valid (s context : List ℕ) (hs : ∀ t ∈ s, InPlane t)
    (hp : ∀ t ∈ s, 0x80 ≤ t → Pages h) (page : ℕ) (hpage : 1 ≤ page ∧ page ≤ 511) (first : Bool) :
    AllValid (encodeLCAlphaSpace h context s page first) := by
  induction s generalizing context page first with
  | nil => exact AllValid.nil
  | cons t rest ih =>
    obtain ⟨ht, hothers⟩ := List.forall_mem_cons.mp hs
    obtain ⟨hpt, hpothers⟩ := List.forall_mem_cons.mp hp
    have hrest := ih (context ++ [t]) hothers hpothers
    rw [encodeLCAlphaSpace]
    rcases ht with ⟨hlt, hidx, hmark⟩ | ⟨hlow, hhigh⟩
    · refine AllValid.cons ⟨(charIdx_spec t hlt hidx).1, hh.extractVector context⟩ ?_
      by_cases hdigit : isDigit t = true
      · have hbounds : 48 ≤ t ∧ t ≤ 57 := of_decide_eq_true hdigit
        rw [if_pos hdigit]
        exact AllValid.cons ⟨by omega, by omega⟩ (hrest page hpage first)
      · rw [if_neg hdigit, if_neg (by omega)]
        exact hrest page hpage first
    · have hcount : (charIdx t).toNat < CHARCOUNT := by
        rw [charIdx_above hlow]
        decide
      have hdigit : ¬ isDigit t = true := by
        rw [isDigit, decide_eq_true_eq]
        omega
      refine AllValid.cons ⟨hcount, hh.extractVector context⟩ ?_
      rw [if_neg hdigit, if_pos (Or.inr (by omega))]
      dsimp only
      rw [← List.singleton_append, ← List.append_assoc]
      exact (encodePage_valid (hpt hlow) page hpage first t hlow hhigh).append
        (hrest (t / 0x80) (by omega) false)

end Models

theorem nonAlpha_valid (m : List ℕ) (hm : m.length < 1024) : AllValid (encodeNonAlpha m) := by
  unfold encodeNonAlpha
  simp only
  by_cases hnone : nonAlphaPositions m = []
  · rw [if_pos hnone]
    exact AllValid.cons ⟨by omega, probNoNonAlpha_cumulative⟩ AllValid.nil
  · have hcount : (nonAlphaPositions m).length ≤ m.length := by
      rw [length_nonAlphaPositions]
      exact List.length_filter_le _ _
    have hpos : 1 ≤ (nonAlphaPositions m).length := List.length_pos_iff.mpr hnone
    rw [if_neg hnone]
    refine AllValid.append (AllValid.append (AllValid.cons ⟨by omega, probNoNonAlpha_cumulative⟩
      (AllValid.cons ⟨by omega, by omega⟩ AllValid.nil)) ?_) ?_
    · exact (nonAlphaPositions_increasing m).valid (by omega) (by omega) (by omega)
    · intro step hstep
      obtain ⟨c, hc, rfl⟩ := List.mem_map.mp hstep
      have hsmall := (List.mem_filter.mp hc).2
      rw [nonAlpha, decide_eq_true_eq] at hsmall
      exact ⟨by omega, by omega⟩

theorem packed_valid (m : List UInt8) : AllValid (encodePackedASCII m).2 := by
  induction m with
  | nil => exact AllValid.nil
  | cons b rest ih =>
    rw [encodePackedASCII]
    by_cases hbad : printableCharIdx b.toNat < 0
    · simp only [if_pos hbad]
      exact AllValid.nil
    · simp only [if_neg hbad]
      exact AllValid.cons ⟨(printableCharIdx_spec b.toNat (by omega)).1, by decide⟩ ih

section Messages

variable {h : Stats} {m : List UInt8} {s : List ℕ} (he : Encodable h m s)

include he

theorem radix_valid : AllValid (stats3CompressRadixAppend h m m.length).2 := by
  refine AllValid.append ?_ (packed_valid m)
  refine AllValid.cons ⟨by omega, by omega⟩ (AllValid.cons ⟨by omega, by omega⟩ ?_)
  refine AllValid.cons ⟨by omega, probPackedASCII_cumulative⟩ ?_
  exact AllValid.cons ⟨Nat.lt_succ_of_le he.size, he.stats.messagelengths⟩ AllValid.nil

theorem model1_valid : (stats3CompressModel1Append h m m.length).1 = 0 ∧
    AllValid (stats3CompressModel1Append h m m.length).2 := by
  have hshort : s.length < 1024 := he.count.trans_lt (Nat.lt_succ_of_le he.size)
  unfold stats3CompressModel1Append
  rw [he.units]
  dsimp only
  rw [stripCase_eq]
  refine ⟨rfl, AllValid.append (AllValid.append (AllValid.append ?_ ?_) ?_) ?_⟩
  · refine AllValid.cons ⟨by omega, by omega⟩ (AllValid.cons ⟨by omega, by omega⟩ ?_)
    refine AllValid.cons ⟨by omega, probPackedASCII_cumulative⟩ ?_
    exact AllValid.cons ⟨hshort, he.stats.messagelengths⟩ AllValid.nil
  · exact nonAlpha_valid _ hshort
  · exact lcAlphaSpace_valid he.stats _ [] (fun t ht => (he.kept ht).1)
      (fun t ht => (he.kept ht).2)
      1 (by omega) true
  · exact caseModel1_valid he.stats _ 0 {}

/-- No failure but those of the coder, and no symbol outside its alphabet. -/
theorem append_valid : (stats3CompressAppend h m m.length).1 = 0 ∧
    AllValid (stats3CompressAppend h m m.length).2 := by
  rcases append_cases h m m.length with hmodel1 | ⟨hprint, hradix⟩
  · rw [hmodel1]
    exact model1_valid he
  · rw [hradix]
    exact ⟨hprint, radix_valid he⟩

end Messages

end Succinct.TextSymbols
