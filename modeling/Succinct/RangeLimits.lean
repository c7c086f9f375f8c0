import Succinct.RangeMessages

/-!
What holds of an encoder that may run out of bits: it never takes more bits
than its buffer has.
-/
namespace Succinct.RangeLimits

open Arithmetic RangePhases RangeLossless RangeMessages

/-- Both coders encode into a buffer of the same length, and the second one
stays in it if the first one does. -/
structure Stays (c c' : RangeCoder) : Prop where
  decodingP : c'.decodingP = c.decodingP
  length : c'.bitStreamLength = c.bitStreamLength
  used : c.bitsUsed ≤ c.bitStreamLength → c'.bitsUsed ≤ c'.bitStreamLength

theorem Stays.refl (c : RangeCoder) : Stays c c := ⟨rfl, rfl, fun h => h⟩

theorem Stays.trans {a b c : RangeCoder} (h1 : Stays a b) (h2 : Stays b c) : Stays a c :=
  ⟨h2.decodingP.trans h1.decodingP, h2.length.trans h1.length, fun h => h2.used (h1.used h)⟩

theorem Stays.of_same {c c' : RangeCoder} (h1 : c'.decodingP = c.decodingP)
    (h2 : c'.bitStreamLength = c.bitStreamLength) (h3 : c'.bitsUsed = c.bitsUsed) : Stays c c' :=
  ⟨h1, h2, fun h => by omega⟩

theorem stays_andThen {c : RangeCoder} {r : ℤ × RangeCoder} {rest : RangeCoder → ℤ × RangeCoder}
    (h1 : Stays c r.2) (h2 : Stays r.2 (rest r.2).2) : Stays c (andThen r rest).2 := by
  unfold andThen
  split
  · exact h1.trans h2
  · exact h1

theorem rangeEmitbit_stays (c : RangeCoder) (b : Bool) : Stays c (rangeEmitbit c b).2 := by
  unfold rangeEmitbit
  split
  · exact Stays.of_same rfl rfl rfl
  · refine ⟨rfl, rfl, ?_⟩
    intro _
    simp only
    omega

theorem emitDeferred_stays (quiet b : Bool) (n : ℕ) (c : RangeCoder) :
    Stays c (emitDeferred quiet b n c).2 := by
  induction n generalizing c with
  | zero => exact Stays.of_same rfl rfl rfl
  | succ n ih =>
    have hdec : Stays c { c with underflow := c.underflow - 1 } := Stays.of_same rfl rfl rfl
    refine hdec.trans (stays_andThen ?_ (ih _))
    split
    · exact Stays.refl _
    · exact rangeEmitbit_stays _ b

theorem shiftOut_stays (c : RangeCoder) (hc : c.decodingP = false) : Stays c (shiftOut c).2 := by
  unfold shiftOut
  simp only [hc]
  exact Stays.of_same hc.symm rfl rfl

theorem emitStableBit_stays (c : RangeCoder) (hc : c.decodingP = false) :
    Stays c (emitStableBit c).2 := by
  have hfirst : Stays c (if c.decodingP then (0, c) else
      rangeEmitbit c (decide (0x80000000 ≤ c.low))).2 := by
    split
    · exact Stays.refl c
    · exact rangeEmitbit_stays c _
  refine stays_andThen hfirst ?_
  have hsecond : ∀ c' : RangeCoder, Stays c' (if c'.underflow ≠ 0 then
      emitDeferred c'.decodingP (!decide (0x80000000 ≤ c.low)) c'.underflow.toNat c'
      else (0, c')).2 := by
    intro c'
    split
    · exact emitDeferred_stays _ _ _ c'
    · exact Stays.refl c'
  refine stays_andThen (hsecond _) (shiftOut_stays _ ?_)
  rw [(hsecond _).decodingP, hfirst.decodingP, hc]

theorem stableLoop_stays (fuel : ℕ) (c : RangeCoder) (hc : c.decodingP = false) :
    Stays c (stableLoop fuel c).2 := by
  induction fuel generalizing c with
  | zero => exact Stays.refl c
  | succ fuel ih =>
    rw [stableLoop]
    split
    · have hstep := emitStableBit_stays c hc
      exact stays_andThen hstep (ih _ (hstep.decodingP.trans hc))
    · exact Stays.refl c

theorem rescaleBit_stays (c c' : RangeCoder) (hc : c.decodingP = false)
    (h : rescaleBit c = some c') : Stays c c' := by
  unfold rescaleBit at h
  simp only [hc] at h
  split at h
  · exact absurd h (by simp)
  · rw [if_neg Bool.false_ne_true] at h
    rw [← Option.some.inj h]
    exact Stays.of_same hc.symm rfl rfl

theorem rescaleLoop_stays (fuel : ℕ) (c : RangeCoder) (hc : c.decodingP = false) :
    Stays c (rescaleLoop fuel c) := by
  induction fuel generalizing c with
  | zero => exact Stays.refl c
  | succ fuel ih =>
    rw [rescaleLoop]
    split
    · cases hbit : rescaleBit c with
      | none => exact Stays.of_same rfl rfl rfl
      | some c' =>
        have hstep := rescaleBit_stays c c' hc hbit
        exact hstep.trans (ih c' (hstep.decodingP.trans hc))
    · exact Stays.refl c

theorem rangeEmitStableBits_stays (c : RangeCoder) (hc : c.decodingP = false) :
    Stays c (rangeEmitStableBits c).2 := by
  have hloop := stableLoop_stays 32 c hc
  refine stays_andThen hloop ?_
  split
  · exact Stays.refl _
  · exact rescaleLoop_stays 32 _ (hloop.decodingP.trans hc)

theorem rangeCalcNewRange_stays (c : RangeCoder) (pLow pHigh : ℕ) :
    Stays c (rangeCalcNewRange c pLow pHigh).2 := by
  unfold rangeCalcNewRange
  simp only
  split
  · exact Stays.of_same rfl rfl rfl
  · split <;> split <;> exact Stays.refl c

theorem rangeEncode_stays (c : RangeCoder) (hc : c.decodingP = false) (pLow pHigh : ℕ) :
    Stays c (rangeEncode c pLow pHigh).2 := by
  unfold rangeEncode
  split
  · exact Stays.refl c
  · split
    · exact Stays.refl c
    · have hcalc := rangeCalcNewRange_stays c pLow pHigh
      split
      case h_1 c' heq =>
        rw [heq] at hcalc
        exact hcalc
      case h_2 low high c' heq =>
        rw [heq] at hcalc
        simp only at hcalc ⊢
        have hset : Stays c { c' with low := low, high := high } :=
          hcalc.trans (Stays.of_same rfl rfl rfl)
        split
        · exact hset
        · exact hset.trans (stays_andThen
            (rangeEmitStableBits_stays _ (hset.decodingP.trans hc)) (Stays.refl _))

theorem encodeEquiprobable_stays (c : RangeCoder) (hc : c.decodingP = false) (n t : ℤ) :
    Stays c (encodeEquiprobable c n t).2 := by
  by_cases hn : n < 1
  · rw [encodeEquiprobable, if_pos hn]
    exact Stays.refl c
  · rw [encodeEquiprobable_eq c n t hn]
    exact rangeEncode_stays c hc _ _

theorem rangeEncodeEquiprobable_cases (c : RangeCoder) (n t : ℤ) :
    (∃ n1 t1 n2 t2, rangeEncodeEquiprobable c n t =
      (0, (encodeEquiprobable (encodeEquiprobable c n1 t1).2 n2 t2).2)) ∨
    rangeEncodeEquiprobable c n t = encodeEquiprobable c n t := by
  unfold rangeEncodeEquiprobable
  split
  · left
    exact ⟨_, _, _, _, rfl⟩
  · right
    rfl

theorem rangeEncodeEquiprobable_stays (c : RangeCoder) (hc : c.decodingP = false) (n t : ℤ) :
    Stays c (rangeEncodeEquiprobable c n t).2 := by
  rcases rangeEncodeEquiprobable_cases c n t with ⟨n1, t1, n2, t2, heq⟩ | heq
  · have hfirst := encodeEquiprobable_stays c hc n1 t1
    rw [(components_of_eq heq).2]
    exact hfirst.trans (encodeEquiprobable_stays _ (hfirst.decodingP.trans hc) n2 t2)
  · rw [heq]
    exact encodeEquiprobable_stays c hc n t

theorem rangeEncodeSymbol_stays (c : RangeCoder) (hc : c.decodingP = false) (frequencies : List ℕ)
    (n t : ℕ) : Stays c (rangeEncodeSymbol c frequencies n t).2 := by
  unfold rangeEncodeSymbol
  split
  · exact Stays.refl c
  · exact rangeEncode_stays c hc _ _

theorem encodeSteps_stays (steps : List Step) (c : RangeCoder) (hc : c.decodingP = false) :
    Stays c (encodeSteps steps c) := by
  induction steps generalizing c with
  | nil => exact Stays.refl c
  | cons step rest ih =>
    have hstep : Stays c (step.encode c).2 := by
      cases step with
      | equiprobable n t => exact rangeEncodeEquiprobable_stays c hc n t
      | symbol frequencies n t => exact rangeEncodeSymbol_stays c hc frequencies n t
    exact hstep.trans (ih _ (hstep.decodingP.trans hc))

theorem emitAll_stays (bits : List Bool) (c : RangeCoder) : Stays c (emitAll bits c).2 := by
  induction bits generalizing c with
  | nil => exact Stays.refl c
  | cons b rest ih => exact stays_andThen (rangeEmitbit_stays c b) (ih _)

theorem concludeTail_stays (c : RangeCoder) : Stays c (concludeTail c).2 := by
  unfold concludeTail
  simp only
  split
  · exact Stays.of_same rfl rfl rfl
  · refine Stays.trans ?_ (emitAll_stays _ _)
    exact Stays.of_same rfl rfl rfl

theorem rangeConclude_stays (c : RangeCoder) : Stays c (rangeConclude c).2 :=
  stays_andThen (rangeEmitbit_stays c _)
    (stays_andThen (emitDeferred_stays _ _ _ _) (concludeTail_stays _))

theorem encoded_bitsUsed (buffer : List UInt8) (steps : List Step) :
    (encoded buffer steps).bitsUsed ≤ 8 * buffer.length := by
  have hsteps := encodeSteps_stays steps (rangeNewCoder buffer) rfl
  have hall := hsteps.trans (rangeConclude_stays _)
  have hused := hall.used (Nat.zero_le _)
  rw [hall.length] at hused
  exact hused

end Succinct.RangeLimits
