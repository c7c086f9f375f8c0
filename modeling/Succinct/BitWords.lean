import Mathlib.Data.List.GetD
import Mathlib.Data.Nat.Bits
import Mathlib.Tactic.Ring

/-!
Fixed-width words read from an infinite bit stream, most significant bit
first. A finite list of bits is a prefix of a stream when the stream agrees
with it at every index; nothing is assumed about the bits after it.
-/
namespace Succinct.BitWords

def word (s : ℕ → Bool) (k : ℕ) : ℕ → ℕ
  | 0 => 0
  | n + 1 => 2 * word s k n + (s (k + n)).toNat

theorem word_lt (s : ℕ → Bool) (k n : ℕ) : word s k n < 2 ^ n := by
  induction n with
  | zero => simp [word]
  | succ n ih =>
    have hbit : (s (k + n)).toNat ≤ 1 := Bool.toNat_le _
    rw [word, pow_succ]
    omega

/-- The leading bit of a word, weighed by its place. -/
theorem word_succ_left (s : ℕ → Bool) (k n : ℕ) :
    word s k (n + 1) = (s k).toNat * 2 ^ n + word s (k + 1) n := by
  induction n with
  | zero => simp [word]
  | succ n ih =>
    rw [word, ih, word, pow_succ]
    have hidx : k + (n + 1) = k + 1 + n := by omega
    rw [hidx]
    ring

theorem word_add (s : ℕ → Bool) (k m n : ℕ) :
    word s k (m + n) = word s k m * 2 ^ n + word s (k + m) n := by
  induction n with
  | zero => simp [word]
  | succ n ih =>
    have hidx : k + (m + n) = k + m + n := by omega
    rw [← Nat.add_assoc, word, ih, word, pow_succ, hidx]
    ring

def Starts (bits : List Bool) (s : ℕ → Bool) : Prop :=
  ∀ i, i < bits.length → s i = bits.getD i false

theorem starts_append (left right : List Bool) (s : ℕ → Bool) :
    Starts (left ++ right) s ↔
      Starts left s ∧ ∀ i, i < right.length → s (left.length + i) = right.getD i false := by
  constructor
  · intro h
    refine ⟨?_, ?_⟩
    · intro i hi
      have hlen : i < (left ++ right).length := by simp only [List.length_append]; omega
      rw [h i hlen, List.getD_append _ _ _ _ hi]
    · intro i hi
      have hlen : left.length + i < (left ++ right).length := by
        simp only [List.length_append]; omega
      rw [h _ hlen, List.getD_append_right _ _ _ _ (by omega)]
      congr 1
      omega
  · rintro ⟨hleft, hright⟩ i hi
    simp only [List.length_append] at hi
    by_cases hl : i < left.length
    · rw [List.getD_append _ _ _ _ hl]
      exact hleft i hl
    · rw [List.getD_append_right _ _ _ _ (by omega), ← hright (i - left.length) (by omega)]
      congr 1
      omega

theorem starts_cons_replicate (bit : Bool) (u : ℕ) (left : List Bool) (s : ℕ → Bool) :
    Starts (left ++ bit :: List.replicate u (!bit)) s ↔
      Starts left s ∧ s left.length = bit ∧
        ∀ i, i < u → s (left.length + 1 + i) = !bit := by
  rw [starts_append]
  constructor
  · rintro ⟨hleft, hright⟩
    refine ⟨hleft, ?_, ?_⟩
    · simpa using hright 0 (by simp)
    · intro i hi
      have h := hright (i + 1) (by simpa using hi)
      rw [show left.length + (i + 1) = left.length + 1 + i by omega] at h
      simpa [List.getD_cons_succ, List.getElem?_replicate, hi] using h
  · rintro ⟨hleft, hbit, hrep⟩
    refine ⟨hleft, ?_⟩
    intro i hi
    cases i with
    | zero => simpa using hbit
    | succ i =>
      have hiu : i < u := by simpa using hi
      rw [show left.length + (i + 1) = left.length + 1 + i by omega, hrep i hiu]
      simp [hiu]

end Succinct.BitWords
