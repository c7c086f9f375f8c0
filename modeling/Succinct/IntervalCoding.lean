import Succinct.BitWords
import Mathlib.Tactic.Linarith

/-!
Binary interval coding with deferred bits, on words of n+2 bits. A phase is
what such a coder knows between two operations: the current interval, the
number of deferred bits whose value is the opposite of the next bit to be
settled, and the bits already settled. A stream is denoted by a phase when
it continues the settled bits, its deferred bits are right, and its
register lies in the interval.

Shifting only ever forgets streams: what is denoted after a shift was
denoted before it. A decoder that keeps the register of one stream while it
copies the shifts therefore sees it inside every interval an encoder chose.
-/
namespace Succinct.IntervalCoding

open BitWords

structure Phase where
  low : ℕ
  high : ℕ
  pending : ℕ
  out : List Bool

/-- The word a decoder holds: the next bit to be settled, then the n+1 bits
after the deferred ones. -/
def register (s : ℕ → Bool) (n k u : ℕ) : ℕ :=
  (s k).toNat * 2 ^ (n + 1) + word s (k + u + 1) (n + 1)

theorem register_lt (s : ℕ → Bool) (n k u : ℕ) : register s n k u < 4 * 2 ^ n := by
  have hbit : (s k).toNat ≤ 1 := Bool.toNat_le _
  have hword := word_lt s (k + u + 1) (n + 1)
  have hmul : (s k).toNat * 2 ^ (n + 1) ≤ 1 * 2 ^ (n + 1) := Nat.mul_le_mul_right _ hbit
  rw [pow_succ] at hword hmul
  unfold register
  rw [pow_succ]
  omega

theorem register_zero (s : ℕ → Bool) (n k : ℕ) : register s n k 0 = word s k (n + 2) := by
  rw [word_succ_left]
  rfl

/-- The top bit of the register is the next bit to be settled. -/
theorem register_top (s : ℕ → Bool) (n k u : ℕ) :
    (2 * 2 ^ n ≤ register s n k u ↔ s k = true) := by
  have hword := word_lt s (k + u + 1) (n + 1)
  rw [pow_succ] at hword
  unfold register
  rw [pow_succ]
  cases s k <;> simp <;> omega

/-- Settling the next bit: the register loses its top bit and the deferred
bits are gone. -/
theorem register_shift (s : ℕ → Bool) (n k u : ℕ) :
    register s n (k + 1 + u) 0 =
      (2 * register s n k u + (s (k + u + n + 2)).toNat) % (4 * 2 ^ n) := by
  have hword := word_lt s (k + u + 1) (n + 2)
  have hidx : k + 1 + u = k + u + 1 := by omega
  rw [register_zero, hidx]
  have hstep : word s (k + u + 1) (n + 2) =
      2 * word s (k + u + 1) (n + 1) + (s (k + u + n + 2)).toNat := by
    rw [word]
    congr 3
    omega
  rw [hstep, pow_succ, pow_succ] at hword
  have hsum : 2 * register s n k u + (s (k + u + n + 2)).toNat =
      (s k).toNat * (4 * 2 ^ n) +
        (2 * word s (k + u + 1) (n + 1) + (s (k + u + n + 2)).toNat) := by
    unfold register
    ring
  rw [hstep, hsum, Nat.mul_add_mod', Nat.mod_eq_of_lt (by omega)]

/-- Deferring one more bit: the register keeps its top bit and loses the
second one. -/
theorem register_defer (s : ℕ → Bool) (n k u : ℕ) :
    register s n k (u + 1) =
      (s k).toNat * (2 * 2 ^ n) +
        (2 * register s n k u + (s (k + u + n + 2)).toNat) % (2 * 2 ^ n) := by
  have hword := word_lt s (k + (u + 1) + 1) (n + 1)
  have hleft := word_succ_left s (k + u + 1) n
  have hstep : word s (k + (u + 1) + 1) (n + 1) =
      2 * word s (k + (u + 1) + 1) n + (s (k + u + n + 2)).toNat := by
    rw [word]
    congr 3
    omega
  rw [hstep, pow_succ] at hword
  have hsum : 2 * register s n k u + (s (k + u + n + 2)).toNat =
      (2 * (s k).toNat + (s (k + u + 1)).toNat) * (2 * 2 ^ n) +
        (2 * word s (k + (u + 1) + 1) n + (s (k + u + n + 2)).toNat) := by
    unfold register
    rw [hleft, show k + u + 1 + 1 = k + (u + 1) + 1 by omega]
    ring
  rw [hsum, Nat.mul_add_mod', Nat.mod_eq_of_lt (by omega)]
  unfold register
  rw [hstep, pow_succ]
  ring

def Denotes (n : ℕ) (p : Phase) (s : ℕ → Bool) : Prop :=
  Starts p.out s ∧
  (∀ i, i < p.pending → s (p.out.length + 1 + i) = !s p.out.length) ∧
  p.low ≤ register s n p.out.length p.pending ∧
  register s n p.out.length p.pending ≤ p.high

def Settled (n : ℕ) (p : Phase) : Prop :=
  p.low / (2 * 2 ^ n) = p.high / (2 * 2 ^ n)

instance (n : ℕ) (p : Phase) : Decidable (Settled n p) := by
  unfold Settled
  infer_instance

def Straddles (n : ℕ) (p : Phase) : Prop :=
  p.low / 2 ^ n = 1 ∧ p.high / 2 ^ n = 2

instance (n : ℕ) (p : Phase) : Decidable (Straddles n p) := by
  unfold Straddles
  infer_instance

def shift (n : ℕ) (p : Phase) : Phase :=
  { low := 2 * p.low % (4 * 2 ^ n)
    high := (2 * p.high + 1) % (4 * 2 ^ n)
    pending := 0
    out := p.out ++ decide (2 * 2 ^ n ≤ p.low) ::
      List.replicate p.pending (!decide (2 * 2 ^ n ≤ p.low)) }

/-- Defer the second bit, which differs from the top bit at both ends. -/
def defer (n : ℕ) (p : Phase) : Phase :=
  { p with
    low := 2 * p.low % (2 * 2 ^ n)
    high := 2 * 2 ^ n + (2 * p.high + 1) % (2 * 2 ^ n)
    pending := p.pending + 1 }

def Within (n : ℕ) (p : Phase) : Prop := p.low ≤ p.high ∧ p.high < 4 * 2 ^ n

theorem settled_iff (n : ℕ) (p : Phase) (hp : Within n p) :
    Settled n p ↔ p.high < 2 * 2 ^ n ∨ 2 * 2 ^ n ≤ p.low := by
  have hpos : 0 < 2 * 2 ^ n := by positivity
  obtain ⟨hle, hlt⟩ := hp
  unfold Settled
  have hhigh : p.high / (2 * 2 ^ n) < 2 := by
    rw [Nat.div_lt_iff_lt_mul hpos]
    omega
  rcases Nat.lt_or_ge p.low (2 * 2 ^ n) with hlow | hlow
  · rw [Nat.div_eq_of_lt hlow]
    rcases Nat.lt_or_ge p.high (2 * 2 ^ n) with hh | hh
    · rw [Nat.div_eq_of_lt hh]
      omega
    · have h1 : 1 ≤ p.high / (2 * 2 ^ n) := (Nat.one_le_div_iff hpos).mpr hh
      omega
  · have h1 : 1 ≤ p.low / (2 * 2 ^ n) := (Nat.one_le_div_iff hpos).mpr hlow
    have h2 : p.low / (2 * 2 ^ n) ≤ p.high / (2 * 2 ^ n) := Nat.div_le_div_right hle
    omega

theorem straddles_iff (n : ℕ) (p : Phase) :
    Straddles n p ↔ (2 ^ n ≤ p.low ∧ p.low < 2 * 2 ^ n) ∧
      (2 * 2 ^ n ≤ p.high ∧ p.high < 3 * 2 ^ n) := by
  have hpos : 0 < 2 ^ n := by positivity
  unfold Straddles
  rw [Nat.div_eq_iff hpos, Nat.div_eq_iff hpos]
  omega

theorem defer_ends (n : ℕ) (p : Phase) (hs : Straddles n p) :
    (defer n p).low + 2 * 2 ^ n = 2 * p.low ∧ (defer n p).high + 2 * 2 ^ n = 2 * p.high + 1 := by
  obtain ⟨⟨h1, h2⟩, h3, h4⟩ := (straddles_iff n p).mp hs
  unfold defer
  simp only
  rw [Nat.mod_eq_sub_mod (show 2 * 2 ^ n ≤ 2 * p.low by omega),
    Nat.mod_eq_of_lt (show 2 * p.low - 2 * 2 ^ n < 2 * 2 ^ n by omega),
    Nat.mod_eq_sub_mod (show 2 * 2 ^ n ≤ 2 * p.high + 1 by omega),
    Nat.mod_eq_sub_mod (show 2 * 2 ^ n ≤ 2 * p.high + 1 - 2 * 2 ^ n by omega),
    Nat.mod_eq_of_lt (show 2 * p.high + 1 - 2 * 2 ^ n - 2 * 2 ^ n < 2 * 2 ^ n by omega)]
  omega

/-- Shifting doubles the interval. -/
theorem shift_within (n : ℕ) (p : Phase) (hp : Within n p) (hs : Settled n p) :
    Within n (shift n p) ∧
      (shift n p).high - (shift n p).low = 2 * (p.high - p.low) + 1 := by
  have hset := (settled_iff n p hp).mp hs
  obtain ⟨hle, hlt⟩ := hp
  unfold Within shift
  simp only
  rcases hset with h | h
  · rw [Nat.mod_eq_of_lt (show 2 * p.low < 4 * 2 ^ n by omega),
      Nat.mod_eq_of_lt (show 2 * p.high + 1 < 4 * 2 ^ n by omega)]
    omega
  · rw [Nat.mod_eq_sub_mod (show 4 * 2 ^ n ≤ 2 * p.low by omega),
      Nat.mod_eq_sub_mod (show 4 * 2 ^ n ≤ 2 * p.high + 1 by omega),
      Nat.mod_eq_of_lt (show 2 * p.low - 4 * 2 ^ n < 4 * 2 ^ n by omega),
      Nat.mod_eq_of_lt (show 2 * p.high + 1 - 4 * 2 ^ n < 4 * 2 ^ n by omega)]
    omega

theorem defer_within (n : ℕ) (p : Phase) (hs : Straddles n p) :
    Within n (defer n p) ∧ ¬ Settled n (defer n p) ∧
      (defer n p).high - (defer n p).low = 2 * (p.high - p.low) + 1 := by
  obtain ⟨⟨h1, h2⟩, h3, h4⟩ := (straddles_iff n p).mp hs
  obtain ⟨hlow, hhigh⟩ := defer_ends n p hs
  have hw : Within n (defer n p) := by
    unfold Within
    omega
  refine ⟨hw, ?_, ?_⟩
  · rw [settled_iff n _ hw]
    omega
  · omega

theorem denotes_of_shift (n : ℕ) (p : Phase) (s : ℕ → Bool) (hp : Within n p)
    (hs : Settled n p) (h : Denotes n (shift n p) s) : Denotes n p s := by
  have hset := (settled_iff n p hp).mp hs
  obtain ⟨hle, hlt⟩ := hp
  obtain ⟨hstart, -, hlow, hhigh⟩ := h
  simp only [shift] at hstart hlow hhigh
  obtain ⟨hold, hbit, hdef⟩ := (starts_cons_replicate _ _ _ _).mp hstart
  have hlen : (p.out ++ decide (2 * 2 ^ n ≤ p.low) ::
      List.replicate p.pending (!decide (2 * 2 ^ n ≤ p.low))).length =
        p.out.length + 1 + p.pending := by
    simp
    omega
  rw [hlen, register_shift] at hlow hhigh
  have hreg := register_lt s n p.out.length p.pending
  have htop := register_top s n p.out.length p.pending
  have hnext : (s (p.out.length + p.pending + n + 2)).toNat ≤ 1 := Bool.toNat_le _
  refine ⟨hold, ?_, ?_⟩
  · intro i hi
    rw [hdef i hi, hbit]
  · rcases hset with hc | hc
    · have hmsb : ¬ 2 * 2 ^ n ≤ p.low := by omega
      rw [hbit, decide_eq_true_iff] at htop
      rw [Nat.mod_eq_of_lt (show 2 * p.low < 4 * 2 ^ n by omega),
        Nat.mod_eq_of_lt (by omega)] at hlow
      rw [Nat.mod_eq_of_lt (show 2 * p.high + 1 < 4 * 2 ^ n by omega),
        Nat.mod_eq_of_lt (by omega)] at hhigh
      omega
    · rw [hbit, decide_eq_true_iff] at htop
      have hbig := htop.mpr hc
      rw [Nat.mod_eq_sub_mod (show 4 * 2 ^ n ≤ 2 * p.low by omega),
        Nat.mod_eq_of_lt (show 2 * p.low - 4 * 2 ^ n < 4 * 2 ^ n by omega),
        Nat.mod_eq_sub_mod (by omega), Nat.mod_eq_of_lt (by omega)] at hlow
      rw [Nat.mod_eq_sub_mod (show 4 * 2 ^ n ≤ 2 * p.high + 1 by omega),
        Nat.mod_eq_of_lt (show 2 * p.high + 1 - 4 * 2 ^ n < 4 * 2 ^ n by omega),
        Nat.mod_eq_sub_mod (by omega), Nat.mod_eq_of_lt (by omega)] at hhigh
      omega

theorem denotes_of_defer (n : ℕ) (p : Phase) (s : ℕ → Bool)
    (hs : Straddles n p) (h : Denotes n (defer n p) s) : Denotes n p s := by
  obtain ⟨⟨h1, h2⟩, h3, h4⟩ := (straddles_iff n p).mp hs
  obtain ⟨elow, ehigh⟩ := defer_ends n p hs
  obtain ⟨hstart, hdef, hlow, hhigh⟩ := h
  change Starts p.out s at hstart
  change ∀ i, i < p.pending + 1 → s (p.out.length + 1 + i) = !s p.out.length at hdef
  change _ ≤ register s n p.out.length (p.pending + 1) at hlow
  change register s n p.out.length (p.pending + 1) ≤ _ at hhigh
  -- the bit dropped by the decoder is the last deferred one, so it is known
  have hlast := hdef p.pending (by omega)
  have hleft := word_succ_left s (p.out.length + p.pending + 1) n
  have hword := word_lt s (p.out.length + p.pending + 1 + 1) n
  have hstep : word s (p.out.length + (p.pending + 1) + 1) (n + 1) =
      2 * word s (p.out.length + p.pending + 1 + 1) n +
        (s (p.out.length + p.pending + n + 2)).toNat := by
    rw [word, show p.out.length + (p.pending + 1) + 1 = p.out.length + p.pending + 1 + 1 by omega]
    congr 3
    omega
  have hnext : (s (p.out.length + p.pending + n + 2)).toNat ≤ 1 := Bool.toNat_le _
  rw [show p.out.length + 1 + p.pending = p.out.length + p.pending + 1 by omega] at hlast
  refine ⟨hstart, fun i hi => hdef i (by omega), ?_⟩
  unfold register at hlow hhigh ⊢
  rw [hstep, pow_succ] at hlow hhigh
  rw [hleft, hlast, pow_succ]
  cases hbit : s p.out.length <;>
    simp only [hbit, Bool.not_false, Bool.not_true, Bool.toNat_true, Bool.toNat_false]
      at hlow hhigh ⊢ <;>
    omega

theorem denotes_of_narrow (n : ℕ) (p : Phase) (low high : ℕ) (s : ℕ → Bool)
    (hlow : p.low ≤ low) (hhigh : high ≤ p.high)
    (h : Denotes n { p with low := low, high := high } s) : Denotes n p s := by
  obtain ⟨hstart, hdef, hl, hh⟩ := h
  exact ⟨hstart, hdef, hlow.trans hl, hh.trans hhigh⟩

/-- Settling one top bit of an unsettled interval by hand, as a coder does
when it stops: only one end still constrains the bits that follow. -/
theorem denotes_of_top (n : ℕ) (p : Phase) (top : Bool) (s : ℕ → Bool)
    (hp : Within n p) (hset : ¬ Settled n p)
    (hstart : Starts (p.out ++ top :: List.replicate p.pending (!top)) s)
    (hlow : top = false → 2 * p.low ≤ word s (p.out.length + 1 + p.pending) (n + 2))
    (hhigh : top = true →
      word s (p.out.length + 1 + p.pending) (n + 2) + 4 * 2 ^ n ≤ 2 * p.high + 1) :
    Denotes n p s := by
  obtain ⟨hold, hbit, hdef⟩ := (starts_cons_replicate _ _ _ _).mp hstart
  rw [settled_iff n p hp] at hset
  have hstep : word s (p.out.length + 1 + p.pending) (n + 2) =
      2 * word s (p.out.length + p.pending + 1) (n + 1) +
        (s (p.out.length + 1 + p.pending + (n + 1))).toNat := by
    rw [word, show p.out.length + 1 + p.pending = p.out.length + p.pending + 1 by omega]
  have hnext : (s (p.out.length + 1 + p.pending + (n + 1))).toNat ≤ 1 := Bool.toNat_le _
  have hword := word_lt s (p.out.length + p.pending + 1) (n + 1)
  rw [pow_succ] at hword
  refine ⟨hold, ?_, ?_⟩
  · intro i hi
    rw [hdef i hi, hbit]
  · unfold register
    rw [hbit, pow_succ]
    cases top with
    | false =>
      have h := hlow rfl
      simp only [Bool.toNat_false]
      omega
    | true =>
      have h := hhigh rfl
      simp only [Bool.toNat_true]
      omega

def settle (n : ℕ) : ℕ → Phase → Phase
  | 0, p => p
  | fuel + 1, p => if Settled n p then settle n fuel (shift n p) else p

def deferAll (n : ℕ) : ℕ → Phase → Phase
  | 0, p => p
  | fuel + 1, p => if Straddles n p then deferAll n fuel (defer n p) else p

def normalise (n : ℕ) (p : Phase) : Phase :=
  deferAll n (n + 2) (settle n (n + 2) p)

/-- What normalisation leaves: the top bits differ and the interval is not
confined to the two middle quarters. -/
structure Normal (n : ℕ) (p : Phase) : Prop where
  within : Within n p
  unsettled : ¬ Settled n p
  wide : ¬ Straddles n p

theorem Normal.ends {n : ℕ} {p : Phase} (h : Normal n p) :
    p.low < 2 * 2 ^ n ∧ 2 * 2 ^ n ≤ p.high ∧ p.high < 4 * 2 ^ n ∧
      (p.low < 2 ^ n ∨ 3 * 2 ^ n ≤ p.high) := by
  have hu := h.unsettled
  have hw := h.wide
  have hlt := h.within.2
  rw [settled_iff n p h.within] at hu
  rw [straddles_iff] at hw
  omega

/-- The interval of a normal phase spans more than a quarter of the word. -/
theorem Normal.span {n : ℕ} {p : Phase} (h : Normal n p) :
    2 ^ n < p.high - p.low := by
  have hends := h.ends
  omega

theorem settle_spec (n fuel : ℕ) (p : Phase) (hp : Within n p)
    (hfuel : 4 * 2 ^ n ≤ 2 ^ fuel * (p.high - p.low + 1)) :
    Within n (settle n fuel p) ∧ ¬ Settled n (settle n fuel p) ∧
      ∀ s, Denotes n (settle n fuel p) s → Denotes n p s := by
  induction fuel generalizing p with
  | zero =>
    refine ⟨hp, ?_, fun s h => h⟩
    rw [settle, settled_iff n p hp]
    have hpos : 0 < 2 ^ n := by positivity
    have hlt := hp.2
    rw [pow_zero] at hfuel
    omega
  | succ fuel ih =>
    rw [settle]
    by_cases hs : Settled n p
    · rw [if_pos hs]
      obtain ⟨hw, hspan⟩ := shift_within n p hp hs
      obtain ⟨h1, h2, h3⟩ := ih (shift n p) hw (by
        rw [hspan]
        calc 4 * 2 ^ n ≤ 2 ^ (fuel + 1) * (p.high - p.low + 1) := hfuel
          _ = 2 ^ fuel * (2 * (p.high - p.low) + 1 + 1) := by rw [pow_succ]; ring)
      exact ⟨h1, h2, fun s h => denotes_of_shift n p s hp hs (h3 s h)⟩
    · rw [if_neg hs]
      exact ⟨hp, hs, fun s h => h⟩

theorem deferAll_spec (n fuel : ℕ) (p : Phase) (hp : Within n p) (hset : ¬ Settled n p)
    (hfuel : 4 * 2 ^ n ≤ 2 ^ fuel * (p.high - p.low + 1)) :
    Normal n (deferAll n fuel p) ∧ ∀ s, Denotes n (deferAll n fuel p) s → Denotes n p s := by
  induction fuel generalizing p with
  | zero =>
    refine ⟨⟨hp, hset, ?_⟩, fun s h => h⟩
    rw [deferAll, straddles_iff]
    have hpos : 0 < 2 ^ n := by positivity
    have hlt := hp.2
    rw [pow_zero] at hfuel
    omega
  | succ fuel ih =>
    rw [deferAll]
    by_cases hs : Straddles n p
    · rw [if_pos hs]
      obtain ⟨hw, hunset, hspan⟩ := defer_within n p hs
      obtain ⟨h1, h2⟩ := ih (defer n p) hw hunset (by
        rw [hspan]
        calc 4 * 2 ^ n ≤ 2 ^ (fuel + 1) * (p.high - p.low + 1) := hfuel
          _ = 2 ^ fuel * (2 * (p.high - p.low) + 1 + 1) := by rw [pow_succ]; ring)
      exact ⟨h1, fun s h => denotes_of_defer n p s hs (h2 s h)⟩
    · rw [if_neg hs]
      exact ⟨⟨hp, hset, hs⟩, fun s h => h⟩

theorem fuel_suffices (n d : ℕ) : 4 * 2 ^ n ≤ 2 ^ (n + 2) * (d + 1) := by
  have h : 2 ^ (n + 2) = 4 * 2 ^ n := by rw [pow_add]; ring
  rw [h]
  exact Nat.le_mul_of_pos_right _ (by omega)

theorem normalise_normal (n : ℕ) (p : Phase) (hp : Within n p) : Normal n (normalise n p) := by
  obtain ⟨hw, hunset, -⟩ := settle_spec n (n + 2) p hp (fuel_suffices n _)
  exact (deferAll_spec n (n + 2) _ hw hunset (fuel_suffices n _)).1

theorem denotes_of_normalise (n : ℕ) (p : Phase) (s : ℕ → Bool) (hp : Within n p)
    (h : Denotes n (normalise n p) s) : Denotes n p s := by
  obtain ⟨hw, hunset, hsettle⟩ := settle_spec n (n + 2) p hp (fuel_suffices n _)
  exact hsettle s ((deferAll_spec n (n + 2) _ hw hunset (fuel_suffices n _)).2 s h)

end Succinct.IntervalCoding
