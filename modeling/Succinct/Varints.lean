import Succinct.MessageWrites
import Succinct.NativeStore

/-!
Numbers in groups of seven bits, as putLong and pack_uint write them and
getLong and unpack_uint read them. Both writers put the same bytes. Both readers
shift each group as an int of 32 bits and widen the result with its sign, so the
groups from the fifth on are lost, or fall on the bits of the first ones.
-/
namespace Succinct.Varints

open ByteBuffers Messages MessageStream MessageWrites NativeStore

/-- The int that n groups of a number give, when they are shifted as the groups
from the j-th on. -/
def word : ℕ → ℕ → ℕ → BitVec 32
  | 0, _, _ => 0
  | n + 1, j, value =>
    BitVec.ofNat 32 (value % 0x80) <<< (7 * j % 32) ||| word n (j + 1) (value / 0x80)

theorem word_zero (n j : ℕ) : word n j 0 = 0 := by
  induction n generalizing j with
  | zero => rfl
  | succ n ih => simp [word, ih]

theorem getLsbD_word (n j value i : ℕ) (hi : i < 32) :
    (word n j value).getLsbD i = true ↔
      ∃ k < n, 7 * (j + k) % 32 ≤ i ∧ i < 7 * (j + k) % 32 + 7 ∧
        value.testBit (7 * k + (i - 7 * (j + k) % 32)) = true := by
  induction n generalizing j value with
  | zero => simp [word]
  | succ n ih =>
    have hgroup : (BitVec.ofNat 32 (value % 0x80) <<< (7 * j % 32)).getLsbD i = true ↔
        7 * j % 32 ≤ i ∧ i < 7 * j % 32 + 7 ∧ value.testBit (i - 7 * j % 32) = true := by
      have hmod : value % 0x80 = value % 2 ^ 7 := rfl
      rw [BitVec.getLsbD_shiftLeft, BitVec.getLsbD_ofNat, hmod, Nat.testBit_mod_two_pow]
      simp only [Bool.and_eq_true, decide_eq_true_eq, Bool.not_eq_true', decide_eq_false_iff_not]
      constructor
      · rintro ⟨⟨-, hle⟩, -, hlt, hbit⟩
        exact ⟨by omega, by omega, hbit⟩
      · rintro ⟨hle, hlt, hbit⟩
        exact ⟨⟨hi, by omega⟩, by omega, by omega, hbit⟩
    have hshift : ∀ k, (value / 0x80).testBit k = value.testBit (7 + k) := by
      intro k
      have hdiv : value / 0x80 = value / 2 ^ 7 := rfl
      rw [hdiv, Nat.testBit_div_two_pow, Nat.add_comm]
    rw [word, BitVec.getLsbD_or, Bool.or_eq_true, hgroup, ih]
    constructor
    · rintro (⟨hle, hlt, hbit⟩ | ⟨k, hk, hle, hlt, hbit⟩)
      · refine ⟨0, by omega, hle, hlt, ?_⟩
        rw [Nat.mul_zero, Nat.zero_add, Nat.add_zero]
        exact hbit
      · rw [hshift] at hbit
        rw [Nat.add_assoc j 1 k, Nat.add_comm 1 k] at hle hlt hbit
        refine ⟨k + 1, by omega, hle, hlt, ?_⟩
        rw [Nat.mul_add, Nat.mul_one, Nat.add_comm (7 * k), Nat.add_assoc]
        exact hbit
    · rintro ⟨k, hk, hle, hlt, hbit⟩
      cases k with
      | zero =>
        rw [Nat.mul_zero, Nat.zero_add, Nat.add_zero] at hbit
        exact Or.inl ⟨hle, hlt, hbit⟩
      | succ k =>
        right
        rw [Nat.mul_add, Nat.mul_one, Nat.add_comm (7 * k), Nat.add_assoc] at hbit
        rw [Nat.add_comm k 1, ← Nat.add_assoc j 1 k] at hle hlt hbit
        refine ⟨k, by omega, hle, hlt, ?_⟩
        rw [hshift]
        exact hbit

/-- Five groups fill an int. -/
theorem word_five (value : ℕ) : word 5 0 value = BitVec.ofNat 32 value := by
  apply BitVec.eq_of_getLsbD_eq
  intro i hi
  rw [Bool.eq_iff_iff, getLsbD_word 5 0 value i hi, BitVec.getLsbD_ofNat]
  simp only [hi, decide_true, Bool.true_and, Nat.zero_add]
  constructor
  · rintro ⟨k, hk, hle, hlt, hbit⟩
    have hidx : 7 * k + (i - 7 * k % 32) = i := by omega
    rwa [hidx] at hbit
  · intro hbit
    have hidx : 7 * (i / 7) + (i - 7 * (i / 7) % 32) = i := by omega
    exact ⟨i / 7, by omega, by omega, by omega, by rwa [hidx]⟩

theorem getLsbD_mask {i : ℕ} (hi : i < 32) : (0xfffffff8#32).getLsbD i = decide (3 ≤ i) := by
  have hall : ∀ i : Fin 32, (0xfffffff8#32).getLsbD i = decide (3 ≤ i.val) := by decide
  exact hall ⟨i, hi⟩

/-- The groups beyond the fifth fall on the bits from the third on. -/
theorem word_ten (value : ℕ) :
    word 10 0 value = BitVec.ofNat 32 value |||
      (BitVec.ofNat 32 (value / 2 ^ 32) &&& 0xfffffff8#32) := by
  apply BitVec.eq_of_getLsbD_eq
  intro i hi
  rw [Bool.eq_iff_iff, getLsbD_word 10 0 value i hi, BitVec.getLsbD_or,
    BitVec.getLsbD_and, getLsbD_mask hi,
    BitVec.getLsbD_ofNat, BitVec.getLsbD_ofNat, Nat.testBit_div_two_pow]
  simp only [hi, decide_true, Bool.true_and, Nat.zero_add, Bool.or_eq_true, Bool.and_eq_true,
    decide_eq_true_eq]
  constructor
  · rintro ⟨k, hk, hle, hlt, hbit⟩
    by_cases hlow : k < 5
    · have hidx : 7 * k + (i - 7 * k % 32) = i := by omega
      rw [hidx] at hbit
      exact Or.inl hbit
    · have hidx : 7 * k + (i - 7 * k % 32) = i + 32 := by omega
      rw [hidx] at hbit
      exact Or.inr ⟨hbit, by omega⟩
  · rintro (hbit | ⟨hbit, hthree⟩)
    · have hidx : 7 * (i / 7) + (i - 7 * (i / 7) % 32) = i := by omega
      exact ⟨i / 7, by omega, by omega, by omega, by rwa [hidx]⟩
    · have hidx : 7 * ((i + 32) / 7) + (i - 7 * ((i + 32) / 7) % 32) = i + 32 := by omega
      exact ⟨(i + 32) / 7, by omega, by omega, by omega, by rwa [hidx]⟩

/-- The group that a byte carries. -/
theorem group_eq (b : UInt8) :
    (b.toBitVec &&& 0x7f).setWidth 32 = BitVec.ofNat 32 (b.toNat % 0x80) := by
  apply BitVec.eq_of_toNat_eq
  have hmask : BitVec.toNat (0x7f : BitVec 8) = 2 ^ 7 - 1 := rfl
  rw [BitVec.toNat_setWidth, BitVec.toNat_and, hmask, Nat.and_two_pow_sub_one_eq_mod,
    BitVec.toNat_ofNat]
  rfl

theorem word_succ_last {n j value : ℕ} (hvalue : value < 0x80) :
    word (n + 1) j value = BitVec.ofNat 32 value <<< (7 * j % 32) := by
  rw [word, Nat.mod_eq_of_lt hvalue, Nat.div_eq_of_lt hvalue, word_zero]
  exact BitVec.or_zero

section Java

variable (rest : List UInt8)

theorem getLongLoop_word (fuel j value : ℕ) (ret : BitVec 64)
    (hvalue : value < 0x80 ^ (fuel + 1)) :
    getLongLoop ret (7 * j) (longBytes fuel value ++ rest) =
      (.ok (ret ||| (word (fuel + 1) j value).signExtend 64), rest) := by
  induction fuel generalizing j value ret with
  | zero =>
    have hsmall : value < 0x80 := by simpa using hvalue
    have hbyte : (UInt8.ofNat (value % 0x80)).toNat = value := by
      rw [UInt8.toNat_ofNat']
      omega
    rw [longBytes, List.singleton_append, getLongLoop, group_eq, hbyte, if_pos hsmall,
      word_succ_last hsmall, Nat.mod_eq_of_lt hsmall]
  | succ fuel ih =>
    rw [longBytes]
    by_cases hlarge : 128 ≤ value
    · rw [if_pos hlarge]
      have hbyte : (UInt8.ofNat (0x80 + value % 0x80)).toNat = 0x80 + value % 0x80 := by
        rw [UInt8.toNat_ofNat']
        omega
      have hmod : (0x80 + value % 0x80) % 0x80 = value % 0x80 := by omega
      have hrest : value / 0x80 < 0x80 ^ (fuel + 1) := by
        rw [Nat.div_lt_iff_lt_mul (by omega), ← pow_succ]
        exact hvalue
      rw [List.cons_append, getLongLoop, group_eq, hbyte, if_neg (by omega), hmod]
      have hnext := ih (j + 1) (value / 0x80)
        (ret ||| (BitVec.ofNat 32 (value % 0x80) <<< (7 * j % 32)).signExtend 64) hrest
      rw [Nat.mul_add, Nat.mul_one] at hnext
      rw [hnext, BitVec.or_assoc, ← BitVec.signExtend_or]
      rfl
    · rw [if_neg hlarge]
      have hlarge : value < 0x80 := by omega
      have hbyte : (UInt8.ofNat value).toNat = value := by
        rw [UInt8.toNat_ofNat']
        omega
      rw [List.singleton_append, getLongLoop, group_eq, hbyte, if_pos hlarge,
        word_succ_last hlarge, Nat.mod_eq_of_lt hlarge]

def received (value : BitVec 64) : BitVec 64 :=
  (value.setWidth 32 ||| ((value >>> 32).setWidth 32 &&& 0xfffffff8#32)).signExtend 64

theorem getLong_received (value : BitVec 64) :
    getLong (longBytes 9 value.toNat ++ rest) = (.ok (received value), rest) := by
  have hvalue : value.toNat < 0x80 ^ (9 + 1) := lt_of_lt_of_le value.isLt (by decide)
  have hloop := getLongLoop_word rest 9 0 value.toNat 0 hvalue
  have hlow : BitVec.ofNat 32 value.toNat = value.setWidth 32 := rfl
  have hhigh : BitVec.ofNat 32 (value.toNat / 2 ^ 32) = (value >>> 32).setWidth 32 := by
    apply BitVec.eq_of_toNat_eq
    rw [BitVec.toNat_ofNat, BitVec.toNat_setWidth, BitVec.toNat_ushiftRight,
      Nat.shiftRight_eq_div_pow]
  rw [word_ten, hlow, hhigh] at hloop
  rw [getLong, received, ← BitVec.zero_or (x := BitVec.signExtend _ _)]
  exact hloop

end Java

section Native

theorem toNat_shift (v : UInt64) : (v >>> 7).toNat = v.toNat / 0x80 := by
  rw [UInt64.toNat_shiftRight, Nat.shiftRight_eq_div_pow]
  rfl

theorem toNat_low (v : UInt64) : (v &&& 0x7f).toNat = v.toNat % 0x80 := by
  have hmask : (0x7f : UInt64).toNat = 2 ^ 7 - 1 := rfl
  rw [UInt64.toNat_and, hmask, Nat.and_two_pow_sub_one_eq_mod]

/-- A group that others follow has the highest bit of its byte set. -/
theorem toNat_low_or (v : UInt64) : ((v &&& 0x7f) ||| 0x80).toNat = 0x80 + v.toNat % 0x80 := by
  have hmask : (0x80 : UInt64).toNat = 2 ^ 7 * 1 := rfl
  rw [UInt64.toNat_or, toNat_low, hmask, Nat.or_comm,
    ← Nat.two_pow_add_eq_or_of_lt (Nat.mod_lt _ (by decide))]

theorem shift_ne_zero_iff (v : UInt64) : v >>> 7 ≠ 0 ↔ 0x80 ≤ v.toNat := by
  rw [Ne, ← UInt64.toNat_inj, toNat_shift]
  change ¬ v.toNat / 0x80 = 0 ↔ _
  omega

theorem packLoop_eq (fuel : ℕ) (v : UInt64) (hv : v.toNat < 0x80 ^ (fuel + 1)) :
    packLoop (fuel + 1) v = longBytes fuel v.toNat := by
  induction fuel generalizing v with
  | zero =>
    have hsmall : v.toNat < 0x80 := by simpa using hv
    have hstop : ¬ v >>> 7 ≠ 0 := by
      rw [shift_ne_zero_iff]
      omega
    have hlast : ¬ v > 0x7f := by
      rw [gt_iff_lt, UInt64.lt_iff_toNat_lt]
      change ¬ 0x7f < v.toNat
      omega
    rw [packLoop, if_neg hstop, if_neg hlast, longBytes, UInt64.or_zero]
    congr 1
    apply UInt8.toNat_inj.mp
    rw [UInt64.toNat_toUInt8, toNat_low, UInt8.toNat_ofNat']
  | succ fuel ih =>
    rw [packLoop, longBytes]
    by_cases hlarge : 0x80 ≤ v.toNat
    · have hmore : v > 0x7f := by
        rw [gt_iff_lt, UInt64.lt_iff_toNat_lt]
        change 0x7f < v.toNat
        omega
      have hrest : (v >>> 7).toNat < 0x80 ^ (fuel + 1) := by
        rw [toNat_shift, Nat.div_lt_iff_lt_mul (by omega), ← pow_succ]
        exact hv
      rw [if_pos hmore, if_pos ((shift_ne_zero_iff v).mpr hlarge), if_pos hlarge,
        ih _ hrest, toNat_shift]
      congr 1
      apply UInt8.toNat_inj.mp
      rw [UInt64.toNat_toUInt8, toNat_low_or, UInt8.toNat_ofNat']
    · have hlast : ¬ v > 0x7f := by
        rw [gt_iff_lt, UInt64.lt_iff_toNat_lt]
        change ¬ 0x7f < v.toNat
        omega
      rw [if_neg hlast, if_neg (fun h => hlarge ((shift_ne_zero_iff v).mp h)),
        if_neg hlarge, UInt64.or_zero]
      congr 1
      apply UInt8.toNat_inj.mp
      rw [UInt64.toNat_toUInt8, toNat_low, UInt8.toNat_ofNat']
      omega

theorem packUint_eq (v : UInt64) : packUint v = longBytes 9 v.toNat :=
  packLoop_eq 9 v (lt_of_lt_of_le v.toNat_lt (by decide))

theorem toBitVec_signExtend (w : UInt32) :
    (signExtend w).toBitVec = w.toBitVec.signExtend 64 := by
  have hmask : (0x80000000 : UInt32).toBitVec = BitVec.twoPow 32 31 := by decide
  have hmsb : w &&& 0x80000000 ≠ 0 ↔ w.toBitVec.msb = true := by
    rw [Ne, ← UInt32.toBitVec_inj, UInt32.toBitVec_and, hmask, BitVec.and_twoPow,
      BitVec.msb_eq_getLsbD_last]
    cases w.toBitVec.getLsbD 31 <;> simp
  have hhigh : ∀ i : Fin 64, BitVec.getLsbD (0xffffffff00000000 : BitVec 64) i =
    decide (32 ≤ i.val) := by
    decide
  rw [signExtend, UInt64.toBitVec_or, UInt32.toBitVec_toUInt64]
  cases hw : w.toBitVec.msb with
  | false =>
    rw [if_neg (by rw [hmsb, hw]; decide), BitVec.signExtend_eq_setWidth_of_msb_false hw]
    exact BitVec.or_zero
  | true =>
    rw [if_pos (hmsb.mpr hw)]
    apply BitVec.eq_of_getLsbD_eq
    intro i hi
    rw [BitVec.getLsbD_or, BitVec.getLsbD_setWidth, BitVec.getLsbD_signExtend, hw]
    have hbit : BitVec.getLsbD (0xffffffff00000000 : BitVec 64) i = decide (32 ≤ i) :=
      hhigh ⟨i, hi⟩
    change (decide (i < 64) && w.toBitVec.getLsbD i ||
      BitVec.getLsbD (0xffffffff00000000 : BitVec 64) i) = _
    rw [hbit, decide_eq_true hi, Bool.true_and, Bool.true_and]
    by_cases hlow : i < 32
    · rw [if_pos hlow, decide_eq_false (by omega), Bool.or_false]
    · rw [if_neg hlow, decide_eq_true (by omega), Bool.or_true]

/-- A group that unpack_uint shifts, in one of its first five turns. -/
theorem toBitVec_group (byte : UInt8) {i : ℕ} (hi : i ≤ 4) :
    (signExtend ((byte &&& 0x7f).toUInt32 <<< UInt32.ofNat (i * 7))).toBitVec =
      (BitVec.ofNat 32 (byte.toNat % 0x80) <<< (7 * i % 32)).signExtend 64 := by
  have hshift : (UInt32.ofNat (i * 7)).toBitVec % 32 = BitVec.ofNat 32 (7 * i % 32) := by
    apply BitVec.eq_of_toNat_eq
    have hsmall : 7 * i < 32 := by omega
    change (i * 7) % 2 ^ 32 % 32 = 7 * i % 32 % 2 ^ 32
    rw [Nat.mul_comm i 7, Nat.mod_eq_of_lt hsmall, Nat.mod_eq_of_lt (lt_trans hsmall (by decide)),
      Nat.mod_eq_of_lt hsmall]
  have hamount : (BitVec.ofNat 32 (7 * i % 32)).toNat = 7 * i % 32 := by
    rw [BitVec.toNat_ofNat]
    omega
  rw [toBitVec_signExtend, UInt32.toBitVec_shiftLeft, hshift, UInt8.toBitVec_toUInt32,
    UInt8.toBitVec_and, ← group_eq, BitVec.shiftLeft_eq', hamount]
  rfl

theorem and_eq_zero_iff (byte : UInt8) : byte &&& 0x80 = 0 ↔ byte.toNat < 0x80 := by
  have hall : ∀ n : Fin 256, UInt8.ofNat n.val &&& 0x80 = 0 ↔ n.val < 0x80 := by decide +kernel
  have h := hall ⟨byte.toNat, byte.toNat_lt⟩
  rwa [UInt8.ofNat_toNat] at h

theorem longBytes_of_lt {fuel value : ℕ} (hvalue : value < 0x80) :
    longBytes fuel value = [UInt8.ofNat value] := by
  cases fuel with
  | zero => rw [longBytes, Nat.mod_eq_of_lt hvalue]
  | succ fuel => rw [longBytes, if_neg (by omega)]

section Unpack

variable (rest : List UInt8) {i value : ℕ} (hi : i ≤ 4) (v : UInt64)

include hi

theorem unpackLoop_last (hvalue : value < 0x80) (fuel f : ℕ) :
    unpackLoop (fuel + 1) i (longBytes f value ++ rest) v =
      some (i + 1, v ||| ⟨(BitVec.ofNat 32 value <<< (7 * i % 32)).signExtend 64⟩) := by
  have hbyte : (UInt8.ofNat value).toNat = value := by
    rw [UInt8.toNat_ofNat']
    omega
  have hgroup := toBitVec_group (UInt8.ofNat value) hi
  rw [hbyte, Nat.mod_eq_of_lt hvalue] at hgroup
  rw [longBytes_of_lt hvalue, List.singleton_append, unpackLoop,
    if_pos ((and_eq_zero_iff _).mpr (by rwa [hbyte])), ← hgroup]

theorem unpackLoop_more (hvalue : 0x80 ≤ value) (fuel f : ℕ) :
    unpackLoop (fuel + 1) i (longBytes (f + 1) value ++ rest) v =
      unpackLoop fuel (i + 1) (longBytes f (value / 0x80) ++ rest)
        (v ||| ⟨(BitVec.ofNat 32 (value % 0x80) <<< (7 * i % 32)).signExtend 64⟩) := by
  have hbyte : (UInt8.ofNat (0x80 + value % 0x80)).toNat = 0x80 + value % 0x80 := by
    rw [UInt8.toNat_ofNat']
    omega
  have hmod : (0x80 + value % 0x80) % 0x80 = value % 0x80 := by omega
  have hgroup := toBitVec_group (UInt8.ofNat (0x80 + value % 0x80)) hi
  rw [hbyte, hmod] at hgroup
  rw [longBytes, if_pos hvalue, List.cons_append, unpackLoop,
    if_neg (by rw [and_eq_zero_iff, hbyte]; omega), ← hgroup]

end Unpack

/-- The loop reads the bytes of a number that has not more groups than it has
turns, and no other. -/
theorem unpackLoop_word (rest : List UInt8) (fuel f i value : ℕ) (v : UInt64) (hi : i + fuel = 4)
    (hf : fuel ≤ f) (hvalue : value < 0x80 ^ (f + 1)) :
    unpackLoop (fuel + 1) i (longBytes f value ++ rest) v =
      if value < 0x80 ^ (fuel + 1) then
        some (i + (longBytes f value).length, v ||| ⟨(word (fuel + 1) i value).signExtend 64⟩)
      else none := by
  induction fuel generalizing f i value v with
  | zero =>
    rw [Nat.zero_add, pow_one]
    by_cases hsmall : value < 128
    · rw [if_pos hsmall]
      rw [unpackLoop_last rest (by omega) v hsmall, longBytes_of_lt hsmall, word_succ_last hsmall]
      rfl
    · rw [if_neg hsmall]
      cases f with
      | zero => exact absurd hvalue (by simpa using hsmall)
      | succ f =>
        rw [unpackLoop_more rest (by omega) v (by omega)]
        cases longBytes f (value / 0x80) ++ rest <;> rfl
  | succ fuel ih =>
    by_cases hsmall : value < 0x80
    · have hlt : value < 0x80 ^ (fuel + 1 + 1) :=
        lt_of_lt_of_le hsmall (Nat.le_self_pow (by omega) _)
      rw [if_pos hlt, unpackLoop_last rest (by omega) v hsmall, longBytes_of_lt hsmall,
        word_succ_last hsmall]
      rfl
    · obtain ⟨f, rfl⟩ : ∃ f', f = f' + 1 := ⟨f - 1, by omega⟩
      have hrest : value / 0x80 < 0x80 ^ (f + 1) := by
        rw [Nat.div_lt_iff_lt_mul (by omega), ← pow_succ]
        exact hvalue
      have hiff : value / 0x80 < 0x80 ^ (fuel + 1) ↔ value < 0x80 ^ (fuel + 1 + 1) := by
        rw [Nat.div_lt_iff_lt_mul (by omega), ← pow_succ]
      have hlength : (longBytes (f + 1) value).length =
        (longBytes f (value / 0x80)).length + 1 := by
        rw [longBytes, if_pos (by omega), List.length_cons]
      rw [unpackLoop_more rest (by omega) v (by omega), ih f _ _ _ (by omega) (by omega) hrest]
      simp only [hiff]
      split
      · congr 2
        · rw [hlength]
          omega
        · apply UInt64.toBitVec_inj.mp
          rw [UInt64.toBitVec_or, UInt64.toBitVec_or, UInt64.toBitVec_or, BitVec.or_assoc,
            ← BitVec.signExtend_or]
          rfl
      · rfl

/-- What unpack_uint makes of the bytes of pack_uint: an int, or nothing that is
defined. -/
theorem unpackUint_packUint (v : UInt64) (rest : List UInt8) :
    unpackUint (packUint v ++ rest) =
      if v.toNat < 2 ^ 35 then some
        ((packUint v).length, ⟨(v.toBitVec.setWidth 32).signExtend 64⟩)
      else none := by
  have hv : v.toNat < 0x80 ^ (9 + 1) := lt_of_lt_of_le v.toNat_lt (by decide)
  have hloop := unpackLoop_word rest 4 9 0 v.toNat 0 rfl (by decide) hv
  rw [Nat.zero_add, UInt64.zero_or, word_five] at hloop
  rw [unpackUint, packUint_eq]
  exact hloop

end Native

def Kept (value : BitVec 64) : Prop := -8 ≤ value.toInt ∧ value.toInt < 2 ^ 31

instance decidableKept (value : BitVec 64) : Decidable (Kept value) :=
  inferInstanceAs (Decidable (_ ∧ _))

theorem getLsbD_received (value : BitVec 64) {i : ℕ} (hi : i < 64) :
    (received value).getLsbD i =
      if i < 32 then value.getLsbD i || (value.getLsbD (32 + i) && decide (3 ≤ i))
      else value.getLsbD 31 || value.getLsbD 63 := by
  rw [received, BitVec.getLsbD_signExtend, decide_eq_true hi, Bool.true_and]
  split
  case isTrue hlow =>
    rw [BitVec.getLsbD_or, BitVec.getLsbD_and, BitVec.getLsbD_setWidth, BitVec.getLsbD_setWidth,
      BitVec.getLsbD_ushiftRight, getLsbD_mask hlow, decide_eq_true hlow,
        Bool.true_and, Bool.true_and]
  case isFalse =>
    rw [BitVec.msb_or, BitVec.msb_and, BitVec.msb_setWidth, BitVec.msb_setWidth]
    have hmask : (0xfffffff8#32).msb = true := rfl
    simp [hmask]

/-- The numbers below 2^31 have no bit from there on, and those from -8 on have
all bits but the lowest three. -/
theorem kept_iff_bits (value : BitVec 64) :
    Kept value ↔ (∀ i, 31 ≤ i → i < 64 → value.getLsbD i = false) ∨
      (∀ i, 3 ≤ i → i < 64 → value.getLsbD i = true) := by
  have hlow : value.toNat < 2 ^ 31 ↔ ∀ i, 31 ≤ i → i < 64 → value.getLsbD i = false := by
    constructor
    · intro h i hi _
      exact Nat.testBit_lt_two_pow (lt_of_lt_of_le h (Nat.pow_le_pow_right (by decide) hi))
    · intro h
      apply Nat.lt_pow_two_of_testBit
      intro i hi
      by_cases hlt : i < 64
      · exact h i hi hlt
      · exact BitVec.getLsbD_of_ge value i (by omega)
  have hhigh : (~~~value).toNat < 2 ^ 3 ↔ ∀ i, 3 ≤ i → i < 64 → value.getLsbD i = true := by
    constructor
    · intro h i hi hlt
      have hbit : (~~~value).getLsbD i = false :=
        Nat.testBit_lt_two_pow (lt_of_lt_of_le h (Nat.pow_le_pow_right (by decide) hi))
      simpa [BitVec.getLsbD_not, hlt] using hbit
    · intro h
      apply Nat.lt_pow_two_of_testBit
      intro i hi
      change (~~~value).getLsbD i = false
      by_cases hlt : i < 64
      · simp [hlt, h i hi hlt]
      · exact BitVec.getLsbD_of_ge _ i (by omega)
  rw [← hlow, ← hhigh, Kept, BitVec.toNat_not, BitVec.toInt_eq_toNat_cond]
  have hlt := value.isLt
  split <;> omega

theorem received_eq_iff (value : BitVec 64) : received value = value ↔ Kept value := by
  rw [kept_iff_bits]
  constructor
  · intro h
    have hbits : ∀ i, i < 64 → value.getLsbD i =
        if i < 32 then value.getLsbD i || (value.getLsbD (32 + i) && decide (3 ≤ i))
        else value.getLsbD 31 || value.getLsbD 63 := by
      intro i hi
      rw [← getLsbD_received value hi, h]
    cases hmsb : value.getLsbD 63 with
    | false =>
      left
      have hsign := hbits 63 (by decide)
      rw [if_neg (by decide), hmsb, Bool.or_false] at hsign
      intro i hi hlt
      by_cases hword : i < 32
      · obtain rfl : i = 31 := by omega
        exact hsign.symm
      · rw [hbits i hlt, if_neg hword, ← hsign, hmsb]
        rfl
    | true =>
      right
      have hupper : ∀ i, 32 ≤ i → i < 64 → value.getLsbD i = true := by
        intro i hi hlt
        rw [hbits i hlt, if_neg (by omega), hmsb, Bool.or_true]
      intro i hi hlt
      by_cases hword : i < 32
      · rw [hbits i hlt, if_pos hword, hupper (32 + i) (by omega) (by omega), decide_eq_true hi,
          Bool.and_true, Bool.or_true]
      · exact hupper i (by omega) hlt
  · intro h
    apply BitVec.eq_of_getLsbD_eq
    intro i hi
    rw [getLsbD_received value hi]
    rcases h with h | h
    · split
      · rw [h (32 + i) (by omega) (by omega), Bool.false_and, Bool.or_false]
      · rw [h 31 (by omega) (by omega), h 63 (by omega) (by omega), h i (by omega) hi]
        rfl
    · split
      · by_cases hthree : 3 ≤ i
        · rw [h i hthree hi, Bool.true_or]
        · rw [decide_eq_false hthree, Bool.and_false, Bool.or_false]
      · rw [h 31 (by omega) (by omega), h i (by omega) hi, Bool.true_or]

theorem getLong_append_iff (value : BitVec 64) (rest : List UInt8) :
    getLong (longBytes 9 value.toNat ++ rest) = (.ok value, rest) ↔ Kept value := by
  rw [getLong_received, ← received_eq_iff]
  simp

/-- Thirty-two bits of a version come back whatever they are widened to. -/
theorem unpackUint_version (w : UInt32) (rest : List UInt8) :
    ∃ v, unpackUint (packUint w.toUInt64 ++ rest) = some ((packUint w.toUInt64).length, v) ∧
      v.toUInt32 = w := by
  have hsmall : w.toUInt64.toNat < 2 ^ 35 := by
    rw [UInt32.toNat_toUInt64]
    exact lt_of_lt_of_le w.toNat_lt (by decide)
  refine ⟨⟨(w.toUInt64.toBitVec.setWidth 32).signExtend 64⟩, ?_, ?_⟩
  · rw [unpackUint_packUint, if_pos hsmall]
  · apply UInt32.toBitVec_inj.mp
    rw [UInt64.toBitVec_toUInt32, UInt32.toBitVec_toUInt64]
    apply BitVec.eq_of_getLsbD_eq
    intro i hi
    rw [BitVec.getLsbD_setWidth, BitVec.getLsbD_signExtend]
    simp [hi]
    omega

theorem unpackUint_eq_iff (v : UInt64) (rest : List UInt8) :
    unpackUint (packUint v ++ rest) = some ((packUint v).length, v) ↔ v.toNat < 2 ^ 31 := by
  rw [unpackUint_packUint]
  constructor
  · intro h
    by_cases hlt : v.toNat < 2 ^ 35
    · rw [if_pos hlt] at h
      have hv := congrArg (fun r => UInt64.toBitVec r.2) (Option.some.inj h)
      dsimp only at hv
      cases hmsb : (v.toBitVec.setWidth 32).msb with
      | false =>
        rw [BitVec.signExtend_eq_setWidth_of_msb_false hmsb] at hv
        rw [BitVec.msb_eq_false_iff_two_mul_lt, BitVec.toNat_setWidth] at hmsb
        have hnat := congrArg BitVec.toNat hv
        rw [BitVec.toNat_setWidth, BitVec.toNat_setWidth] at hnat
        have hv' : v.toBitVec.toNat = v.toNat := rfl
        omega
      | true =>
        have hbit : v.toBitVec.getLsbD 63 = true := by
          rw [← hv, BitVec.getLsbD_signExtend, hmsb]
          rfl
        have hnone : v.toBitVec.getLsbD 63 = false :=
          Nat.testBit_lt_two_pow (lt_trans hlt (by decide))
        rw [hbit] at hnone
        cases hnone
    · rw [if_neg hlt] at h
      cases h
  · intro h
    rw [if_pos (by omega)]
    congr 2
    apply UInt64.toBitVec_inj.mp
    have hmsb : (v.toBitVec.setWidth 32).msb = false := by
      rw [BitVec.msb_eq_false_iff_two_mul_lt, BitVec.toNat_setWidth]
      have hnat : v.toBitVec.toNat = v.toNat := rfl
      omega
    change (v.toBitVec.setWidth 32).signExtend 64 = v.toBitVec
    rw [BitVec.signExtend_eq_setWidth_of_msb_false hmsb]
    apply BitVec.eq_of_toNat_eq
    rw [BitVec.toNat_setWidth, BitVec.toNat_setWidth]
    have hnat : v.toBitVec.toNat = v.toNat := rfl
    omega

/-- A name and its terminator, as they are copied. -/
theorem copyName_append {name : Name} (hname : ∀ b ∈ name, b ≠ 0)
    (hlength : name.length < MAX_NAME) :
    copyName (name ++ [0]) = some name := by
  have htake : (name ++ [0]).takeWhile (· ≠ 0) = name := by
    rw [List.takeWhile_append_of_pos (by simpa using hname)]
    simp
  have hlen : (name ++ [0]).length = name.length + 1 := List.length_append
  rw [copyName, htake, hlen, if_neg (by omega)]

section Metadata

variable {key : List UInt8} {version : UInt32} {name : Name} (hkey : key.length = 8)
  (hname : ∀ b ∈ name, b ≠ 0) (hshort : name.length < MAX_NAME)

include hkey hname hshort

/-- What a metadata message carries: the version in any case, and the length as
unpack_uint reads it. -/
theorem parseMetadata_message (length : UInt64) :
    parseMetadata (key ++ packUint version.toUInt64 ++ packUint length ++ name ++ [0]) =
      (unpackUint (packUint length ++ (name ++ [0]))).map
        fun r => (key, ⟨version, r.2.toNat, name⟩) := by
  obtain ⟨v, hv, rfl⟩ := unpackUint_version version (packUint length ++ (name ++ [0]))
  have htake : (key ++ (packUint v.toUInt32.toUInt64 ++ (packUint length ++ (name ++ [0])))).take
    8 = key :=
    List.take_left' hkey
  have hdrop :
    (key ++ (packUint v.toUInt32.toUInt64 ++ (packUint length ++ (name ++ [0])))).drop 8 =
      packUint v.toUInt32.toUInt64 ++ (packUint length ++ (name ++ [0])) := List.drop_left' hkey
  have hlength := unpackUint_packUint length (name ++ [0])
  simp only [List.append_assoc, parseMetadata, htake, hdrop, hv,
    Option.bind_eq_bind, Option.bind_some, ← List.drop_drop, List.drop_left]
  rw [hlength]
  split
  · simp only [Option.bind_some, Option.map_some, List.drop_left, copyName_append hname hshort]
  · rfl

theorem parseMetadata_eq_iff (length : ℕ) :
    parseMetadata (key ++ packUint version.toUInt64 ++
      packUint (UInt64.ofNat length) ++ name ++ [0]) =
      some (key, ⟨version, length, name⟩) ↔ length < 2 ^ 31 := by
  rw [parseMetadata_message hkey hname hshort]
  constructor
  · intro h
    obtain ⟨⟨n, w⟩, hunpack, heq⟩ := Option.map_eq_some_iff.mp h
    have hlength : w.toNat = length := congrArg (fun r => r.2.length) heq
    have hw : UInt64.ofNat length = w := by rw [← hlength, UInt64.ofNat_toNat]
    have hn : n = (packUint w).length := by
      rw [hw, unpackUint_packUint] at hunpack
      split at hunpack
      · exact (congrArg Prod.fst (Option.some.inj hunpack)).symm
      · cases hunpack
    rw [hw, hn, unpackUint_eq_iff] at hunpack
    omega
  · intro h
    have hnat : (UInt64.ofNat length).toNat = length :=
      UInt64.toNat_ofNat_of_lt (lt_trans h (by decide))
    rw [(unpackUint_eq_iff _ _).mpr (by omega), Option.map_some, hnat]

end Metadata

/-- Numbers come back from the groups they were put into exactly when they are
small: below 2^31, or in Java down to -8. So do the offsets and lengths of
requests, the offsets of blocks, and the lengths of files. -/
theorem varints_round_trip_iff (heap : Heap) (room : ℕ) (value : BitVec 64) (v : UInt64)
    (rest : List UInt8) :
    (∀ out out' : List UInt8, putLong room value out = some out' →
      (getLong (out'.drop out.length ++ rest) = (.ok value, rest) ↔ Kept value)) ∧
    (unpackUint (packUint v ++ rest) = some ((packUint v).length, v) ↔ v.toNat < 2 ^ 31) ∧
    (∀ (filename body : List UInt8) (offset length : BitVec 64),
      room ≤ MTU → serialise room (.requestBlock filename offset length) = some body →
      (create heap .requestBlockMessage body = (.ok (.requestBlock filename offset length), []) ↔
        Kept offset ∧ Kept length)) ∧
    (∀ (filename body data : List UInt8) (offset : BitVec 64),
      room ≤ MTU → (∀ b ∈ filename, b ≠ 0) →
      serialise room (.fileBlock filename offset data) = some body →
      ((∃ data', create heap .fileBlockMessage body =
        (.ok (.fileBlock filename offset data'), [])) ↔
        Kept offset)) ∧
    (∀ (key : List UInt8) (version : FileVersion), key.length = 8 → (∀ b ∈ version.name, b ≠ 0) →
      version.name.length < MAX_NAME →
      (parseMetadata ((metadataMessage key version).drop 1) = some (key, version) ↔
        version.length < 2 ^ 31)) := by
  refine ⟨?_, unpackUint_eq_iff v rest, ?_, ?_, ?_⟩
  · intro out out' hput
    obtain ⟨rfl, -⟩ := put_eq_some hput
    rw [List.drop_left]
    exact getLong_append_iff value rest
  · intro filename body offset length hroom h
    rw [create_requestBlock hroom (getLong_received · offset) (getLong_received · length) h,
      ← received_eq_iff, ← received_eq_iff]
    simp
  · intro filename body data offset hroom hname h
    obtain ⟨data', hcreate⟩ := create_fileBlock hroom hname (getLong_received · offset) h
    rw [hcreate, ← received_eq_iff]
    simp
  · rintro key ⟨version, length, name⟩ hkey hname hshort
    exact parseMetadata_eq_iff hkey hname hshort length

/-- A request for the first thousand bytes of a file. -/
theorem request_round_trip :
    create ⟨65536, le_refl _⟩ .requestBlockMessage [0x00, 0xe8, 0x07, 0x63] =
      (.ok (.requestBlock [0x63] 0 1000), []) :=
  ((varints_round_trip_iff ⟨65536, le_refl _⟩ 1197 0 0 []).2.2.1 [0x63]
    [0x00, 0xe8, 0x07, 0x63] 0 1000
    (by decide) rfl).mpr (by decide)

/-- A length of 2^31 is read as a negative one on both sides. -/
theorem two_gigabytes_misread :
    putLong 10 0x80000000 [] = some [0x80, 0x80, 0x80, 0x80, 0x08] ∧
      getLong [0x80, 0x80, 0x80, 0x80, 0x08] = (.ok 0xffffffff80000000, []) ∧
      packUint 0x80000000 = [0x80, 0x80, 0x80, 0x80, 0x08] ∧
      unpackUint [0x80, 0x80, 0x80, 0x80, 0x08] = some (5, 0xffffffff80000000) ∧
      ¬ (getLong [0x80, 0x80, 0x80, 0x80, 0x08] = (.ok 0x80000000, []) ∨
        unpackUint [0x80, 0x80, 0x80, 0x80, 0x08] = some (5, 0x80000000)) := by
  have hlong : getLong [0x80, 0x80, 0x80, 0x80, 0x08] = (.ok 0xffffffff80000000, []) := by rfl
  have hunpack : unpackUint [0x80, 0x80, 0x80, 0x80, 0x08] =
    some (5, 0xffffffff80000000) := by decide
  refine ⟨by decide, hlong, by decide, hunpack, ?_⟩
  rw [hlong, hunpack]
  rintro (h | h)
  · have hvalue : (0xffffffff80000000 : BitVec 64) = 0x80000000 :=
      Except.ok.inj (congrArg Prod.fst h)
    exact absurd hvalue (by decide)
  · exact absurd h (by decide)

end Succinct.Varints
