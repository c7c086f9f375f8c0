import Succinct.RangeSpans

/-!
How many bits range_conclude needs. Behind the top bit and the deferred ones it
looks for the shortest start of the middle that no continuation leads out of the
ends that remain. The ends have lost their second bit then, and no longer leave
a quarter free on one side: two bits do not always suffice.
-/
namespace Succinct.ConcludingCosts

open Arithmetic BitWords IntervalCoding RangePhases RangeLossless RangeMessages RangeRoom
  RangeConclusions RangeSpans

def pushed (c : RangeCoder) : List Bool := concludingBits c.low c.high c.underflow.toNat

/-- Three bits and the deferred ones are enough to place a value in the interval. -/
structure Cheap (c : RangeCoder) : Prop where
  few : (pushed c).length ≤ c.underflow.toNat + 3
  inside : ∀ s, Starts (emitted c ++ pushed c) s → Denotes 30 (phase c) s

def Roomy (c : RangeCoder) : Prop :=
  c.low % 0x40000000 ≤ 0x20000000 ∨ 0x1fffffff ≤ c.high % 0x40000000

section Searching

variable {low high : ℕ}

theorem concludeBits_ge (mean fuel bits b : ℕ)
    (h : concludeBits low high mean fuel bits = some b) : bits ≤ b := by
  induction fuel generalizing bits with
  | zero =>
    rw [concludeBits] at h
    generalize (if bits = 0 then 0 else mean / 2 ^ (32 - bits) * 2 ^ (32 - bits)) = v at h
    split at h
    · cases h
    · exact (Option.some.inj h).le
  | succ fuel ih =>
    rw [concludeBits] at h
    generalize (if bits = 0 then 0 else mean / 2 ^ (32 - bits) * 2 ^ (32 - bits)) = v at h
    split at h
    · have hnext := ih (bits + 1) h
      omega
    · exact (Option.some.inj h).le

/-- One turn of the search, behind the first one. -/
theorem concludeBits_succ (mean fuel bits : ℕ) :
    concludeBits low high mean (fuel + 1) (bits + 1) =
    if mean / 2 ^ (31 - bits) * 2 ^ (31 - bits) < low ∨
        mean / 2 ^ (31 - bits) * 2 ^ (31 - bits) + 0xffffffff / 2 ^ (bits + 1) > high then
      concludeBits low high mean fuel (bits + 2)
    else some (bits + 1) := by
  have hshift : 32 - (bits + 1) = 31 - bits := by omega
  rw [concludeBits, if_neg (Nat.succ_ne_zero bits), hshift]

/-- A quarter around the middle is free on one side. -/
theorem concludeBits_le_two_iff {b : ℕ} (hlow : low < 0x80000000)
    (hhigh : 0x80000000 ≤ high ∧ high < 0x100000000)
    (h : concludeBits low high ((low + high) / 2) 31 0 = some b) :
    b ≤ 2 ↔ low ≤ 0x40000000 ∨ 0xbfffffff ≤ high := by
  rw [concludeBits] at h
  simp only [if_true, pow_zero, Nat.div_one, Nat.zero_add] at h
  split at h
  · rw [concludeBits_succ] at h
    simp only [Nat.reduceSub, Nat.reducePow, Nat.reduceAdd, Nat.reduceDiv] at h
    split at h
    · rw [concludeBits_succ] at h
      simp only [Nat.reduceSub, Nat.reducePow, Nat.reduceAdd, Nat.reduceDiv] at h
      split at h
      · have hmore := concludeBits_ge _ _ _ _ h
        omega
      · obtain rfl := Option.some.inj h
        omega
    · obtain rfl := Option.some.inj h
      omega
  · obtain rfl := Option.some.inj h
    omega

theorem tailBits_le_two_iff (hlow : low % 2 = 0 ∧ low < 0x80000000)
    (hhigh : high % 2 = 1 ∧ 0x80000000 ≤ high ∧ high < 0x100000000) :
    (tailBits low high).length ≤ 2 ↔ low ≤ 0x40000000 ∨ 0xbfffffff ≤ high := by
  obtain ⟨-, b, hsome, -⟩ := concludeBits_ends low high hlow hhigh
  have hmiddle : u32 (u32 (0x100000000 + high - low) / 2 + low) = (low + high) / 2 := by
    unfold u32
    omega
  have hlength : (tailBits low high).length = b := by
    simp only [tailBits, middle, hsome, topBits, List.length_map, List.length_range]
  rw [hmiddle] at hsome
  rw [hlength]
  exact concludeBits_le_two_iff hlow.2 hhigh.2 hsome

end Searching

theorem pushed_length (c : RangeCoder) :
    (pushed c).length = 1 + c.underflow.toNat +
      (tailBits (tailLow c.low) (tailHigh c.high)).length := by
  rw [pushed, concludingBits, List.length_append, List.length_append, List.length_replicate,
    List.length_singleton]

/-- The second bits of the ends play no part. -/
theorem few_iff (c : RangeCoder) : (pushed c).length ≤ c.underflow.toNat + 3 ↔ Roomy c := by
  have htail := @tailBits_le_two_iff (tailLow c.low) (tailHigh c.high)
    (by unfold tailLow u32; omega) (by unfold tailHigh u32; omega)
  have hlow : tailLow c.low = 2 * (c.low % 0x40000000) := by
    unfold tailLow u32
    omega
  have hhigh : tailHigh c.high = 0x80000000 + 2 * (c.high % 0x40000000) + 1 := by
    unfold tailHigh u32
    omega
  rw [pushed_length, Roomy]
  rw [hlow, hhigh] at htail ⊢
  omega

/-- Three bits and the deferred ones are enough exactly where low or high has room
around the middle. A buffer takes as many of the bits as it has room for. -/
theorem cheap_iff {c : RangeCoder} (h : EncoderRun c) :
    Fills c.bitStreamLength (emitted c ++ pushed c) (rangeConclude c) ∧ (Cheap c ↔ Roomy c) := by
  have hsettles := h.settles
  refine ⟨rangeConclude_fills hsettles.holds hsettles.room, ?_⟩
  rw [← few_iff]
  constructor
  · exact fun hcheap => hcheap.few
  · exact fun hfew => ⟨hfew, fun s hs => concluded_denotes hsettles.normal hs⟩

/-- A share from the end of the first eighth to the last quarter is concluded with three bits. -/
theorem cheap_wide : Cheap (rangeEncode (rangeNewCoder [0]) 0x200000 0xc00000).2 := by
  have hrun : EncoderRun (rangeEncode (rangeNewCoder [0]) 0x200000 0xc00000).2 :=
    EncoderRun.encode (EncoderRun.fresh [0]) (by decide) (by decide +kernel)
  exact (cheap_iff hrun).2.mpr (Or.inl (by decide +kernel))

/-- The middle one of three symbols takes a third bit behind the top one. A share that
just reaches over the middle takes twenty-three. -/
theorem narrow_middle_costs :
    EncoderRun (rangeEncode (rangeNewCoder [0]) 0x555555 0xaaaaaa).2 ∧
    (rangeEncode (rangeNewCoder [0]) 0x555555 0xaaaaaa).2.underflow = 1 ∧
    (rangeEncode (rangeNewCoder [0]) 0x555555 0xaaaaaa).2.bitsUsed = 0 ∧
    (rangeConclude (rangeEncode (rangeNewCoder [0]) 0x555555 0xaaaaaa).2).1 = 0 ∧
    (rangeConclude (rangeEncode (rangeNewCoder [0]) 0x555555 0xaaaaaa).2).2.bitsUsed = 5 ∧
    ¬ Cheap (rangeEncode (rangeNewCoder [0]) 0x555555 0xaaaaaa).2 ∧
    EncoderRun (rangeEncode (rangeNewCoder [0, 0, 0]) 0x3fffff 0x800001).2 ∧
    (rangeEncode (rangeNewCoder [0, 0, 0]) 0x3fffff 0x800001).2.underflow = 0 ∧
    (rangeEncode (rangeNewCoder [0, 0, 0]) 0x3fffff 0x800001).2.bitsUsed = 0 ∧
    (rangeConclude (rangeEncode (rangeNewCoder [0, 0, 0]) 0x3fffff 0x800001).2).1 = 0 ∧
    (rangeConclude (rangeEncode (rangeNewCoder [0, 0, 0]) 0x3fffff 0x800001).2).2.bitsUsed = 24 ∧
    ¬ Cheap (rangeEncode (rangeNewCoder [0, 0, 0]) 0x3fffff 0x800001).2 := by
  have hthird : ¬ (pushed (rangeEncode (rangeNewCoder [0]) 0x555555 0xaaaaaa).2).length ≤
      (rangeEncode (rangeNewCoder [0]) 0x555555 0xaaaaaa).2.underflow.toNat + 3 := by
        decide +kernel
  have hnarrow : ¬ (pushed (rangeEncode (rangeNewCoder [0, 0, 0]) 0x3fffff 0x800001).2).length ≤
      (rangeEncode (rangeNewCoder [0, 0, 0]) 0x3fffff 0x800001).2.underflow.toNat + 3 := by
        decide +kernel
  refine ⟨?_, by decide +kernel, by decide +kernel, by decide +kernel, by
    decide +kernel, fun h => hthird h.few,
    ?_, by decide +kernel, by decide +kernel, by decide +kernel, by
      decide +kernel, fun h => hnarrow h.few⟩
  · exact EncoderRun.encode (EncoderRun.fresh [0]) (by decide) (by decide +kernel)
  · exact EncoderRun.encode (EncoderRun.fresh [0, 0, 0]) (by decide) (by decide +kernel)

end Succinct.ConcludingCosts
