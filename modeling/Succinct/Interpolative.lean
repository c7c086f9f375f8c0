import Succinct.CStrings
import Succinct.RangeCodecs

/-!
The interpolative coder of forms/gsinterpolative.c, which codes an increasing
list of numbers by halving it. An int array is the function from an index to
the int stored there; a result that does not fit an int is wrapped. The step
of the recursion is a power of two, or 0 for
an empty list where it is as good as 1: its exponent drives the recursion.
-/
namespace Succinct.Interpolative

open CStrings RangeMessages RangeCodecs

def biggestBelow (v : ℤ) : ℕ → ℤ
  | 0 => 0
  | b + 1 => if 2 ^ b < v then 2 ^ b else biggestBelow v b

def biggestPowerOf2 (v : ℤ) : ℤ := biggestBelow v 31

def binaryEncode (low p high : ℤ) : List Step :=
  [.equiprobable (high - low + 1).toNat (p - low).toNat]

def binaryDecode (low high : ℤ) : Decoder ℤ := do
  let value ← decodeEqui (high - low + 1).toNat
  pure (value + low)

def docLow (list : ℤ → ℤ) (lo p : ℤ) : ℤ := (if lo > -1 then list lo + 1 else 0) + (p - lo - 1)

def docHigh (list : ℤ → ℤ) (listLength maxValue p hi : ℤ) : ℤ :=
  int32 ((if hi < listLength then list hi - 1 else int32 (maxValue + (hi - listLength))) -
    (hi - p - 1))

/-- The entry at p is coded unless p is past the list. -/
def encodeEntry (list : ℤ → ℤ) (listLength maxValue lo p hi : ℤ) : List Step :=
  if p < listLength then
    binaryEncode (docLow list lo p) (list p) (docHigh list listLength maxValue p hi)
  else []

def decodeEntry (list : ℤ → ℤ) (listLength maxValue lo p hi : ℤ) : Decoder (ℤ → ℤ) :=
  if p < listLength then do
    let x ← binaryDecode (docLow list lo p) (docHigh list listLength maxValue p hi)
    pure (Function.update list p x)
  else pure list

def icEncodeRecursiveR (list : ℤ → ℤ) (listLength maxValue : ℤ) : ℕ → ℤ → ℤ → ℤ → List Step
  | b, lo, p, hi =>
    if lo ≥ listLength then []
    else
      encodeEntry list listLength maxValue lo p hi ++
      match b with
      | 0 => []
      | b + 1 =>
        icEncodeRecursiveR list listLength maxValue b lo (p - 2 ^ b) p ++
          icEncodeRecursiveR list listLength maxValue b p (p + 2 ^ b) hi

def icDecodeRecursiveR (listLength maxValue : ℤ) : ℕ → ℤ → ℤ → ℤ → (ℤ → ℤ) → Decoder (ℤ → ℤ)
  | b, lo, p, hi, list =>
    if lo ≥ listLength then pure list
    else do
      let list ← decodeEntry list listLength maxValue lo p hi
      match b with
      | 0 => pure list
      | b + 1 => do
        let list ← icDecodeRecursiveR listLength maxValue b lo (p - 2 ^ b) p list
        icDecodeRecursiveR listLength maxValue b p (p + 2 ^ b) hi list

def exponent (step : ℤ) : ℕ := step.toNat.log2

def icEncodeRecursive (list : ℤ → ℤ) (listLength maxValue : ℤ) : List Step :=
  let powerof2 := biggestPowerOf2 (int32 (listLength + 1))
  icEncodeRecursiveR list listLength maxValue (exponent powerof2) (-1) (powerof2 - 1)
    (int32 (listLength + 1))

def icDecodeRecursive (list : ℤ → ℤ) (listLength maxValue : ℤ) : Decoder (ℤ → ℤ) :=
  let powerof2 := biggestPowerOf2 (int32 (listLength + 1))
  icDecodeRecursiveR listLength maxValue (exponent powerof2) (-1) (powerof2 - 1)
    (int32 (listLength + 1)) list

/-- A sum that overflows on the way to a difference that fits does no harm. -/
theorem docHigh_eq (list : ℤ → ℤ) (listLength maxValue p hi : ℤ)
    (hfit : IsInt ((if hi < listLength then list hi - 1 else maxValue + (hi - listLength)) -
      (hi - p - 1))) :
    docHigh list listLength maxValue p hi =
      (if hi < listLength then list hi - 1 else maxValue + (hi - listLength)) - (hi - p - 1) := by
  unfold docHigh
  by_cases hin : hi < listLength
  · rw [if_pos hin] at hfit ⊢
    rw [if_pos hin]
    exact int32_eq hfit
  · rw [if_neg hin] at hfit ⊢
    rw [if_neg hin]
    have hwrap : int32 (int32 (maxValue + (hi - listLength)) - (hi - p - 1)) =
        int32 (maxValue + (hi - listLength) - (hi - p - 1)) := Int.bmod_sub_bmod
    rw [hwrap, int32_eq hfit]

theorem biggestBelow_spec (v : ℤ) (hv : 2 ≤ v) (k : ℕ) (hk : v ≤ 2 ^ k) :
    ∃ b, biggestBelow v k = 2 ^ b ∧ 2 ^ b < v ∧ v ≤ 2 ^ (b + 1) := by
  induction k with
  | zero =>
    rw [pow_zero] at hk
    omega
  | succ k ih =>
    by_cases hlt : (2 : ℤ) ^ k < v
    · exact ⟨k, if_pos hlt, hlt, hk⟩
    · rw [biggestBelow, if_neg hlt]
      exact ih (by omega)

theorem biggestPowerOf2_spec (v : ℤ) (hv : 2 ≤ v) (hmax : v ≤ 2 ^ 31) :
    ∃ b, biggestPowerOf2 v = 2 ^ b ∧ exponent (biggestPowerOf2 v) = b ∧ 2 ^ b < v ∧
      v ≤ 2 ^ (b + 1) := by
  obtain ⟨b, hb, hlt, hle⟩ := biggestBelow_spec v hv 31 hmax
  refine ⟨b, hb, ?_, hlt, hle⟩
  have hcast : ((2 : ℤ) ^ b).toNat = 2 ^ b := by
    rw [← Int.toNat_natCast (2 ^ b)]
    push_cast
    rfl
  rw [biggestPowerOf2, hb, exponent, hcast, Nat.log2_two_pow]

section RoundTrip

variable (list : ℤ → ℤ) (n maxValue : ℤ)

structure Increasing : Prop where
  low : ∀ i, 0 ≤ i → i < n → 0 ≤ list i
  high : ∀ i, 0 ≤ i → i < n → list i ≤ maxValue
  steps : ∀ i, 0 ≤ i → i + 1 < n → list i < list (i + 1)

variable {list n maxValue} (h : Increasing list n maxValue)

include h

theorem Increasing.gap (i : ℤ) (hi : 0 ≤ i) (k : ℕ) (hk : i + k < n) :
    list i + k ≤ list (i + k) := by
  induction k with
  | zero => simp
  | succ k ih =>
    push_cast at hk ⊢
    have hprev := ih (by omega)
    have hstep := h.steps (i + k) (by omega) (by omega)
    rw [show i + ((k : ℤ) + 1) = i + k + 1 by omega]
    omega

theorem Increasing.spread (i j : ℤ) (hi : 0 ≤ i) (hij : i ≤ j) (hj : j < n) :
    list i + (j - i) ≤ list j := by
  have hgap := h.gap i hi (j - i).toNat (by omega)
  have hcast : ((j - i).toNat : ℤ) = j - i := by omega
  rw [hcast] at hgap
  rwa [show i + (j - i) = j by omega] at hgap

/-- The entry lies between the bounds that its neighbours leave to it. -/
theorem Increasing.bounds (hmax : maxValue + 1 < 0x80000000) (lo p hi : ℤ) (hlo : -1 ≤ lo)
    (hp : lo < p) (hpn : p < n) (hhi : p < hi) :
    docLow list lo p ≤ list p ∧ list p ≤ docHigh list n maxValue p hi ∧
      docHigh list n maxValue p hi - docLow list lo p ≤ maxValue := by
  have hfirst := h.spread 0 p (Int.le_refl 0) (by omega) hpn
  have hzero := h.low 0 (Int.le_refl 0) (by omega)
  have hlast := h.spread p (n - 1) (by omega) (by omega) (by omega)
  have htop := h.high (n - 1) (by omega) (by omega)
  have hleft : lo > -1 → list lo + (p - lo) ≤ list p ∧ 0 ≤ list lo := by
    intro hpos
    exact ⟨h.spread lo p (by omega) (by omega) hpn, h.low lo (by omega) (by omega)⟩
  have hright : hi < n → list p + (hi - p) ≤ list hi ∧ list hi ≤ maxValue := by
    intro hin
    exact ⟨h.spread p hi (by omega) (by omega) hin, h.high hi (by omega) hin⟩
  have hfit : IsInt ((if hi < n then list hi - 1 else maxValue + (hi - n)) - (hi - p - 1)) := by
    unfold IsInt
    split
    · have h2 := hright ‹_›
      omega
    · omega
  rw [docHigh_eq list n maxValue p hi hfit]
  unfold docLow
  split
  · have h1 := hleft ‹_›
    split
    · have h2 := hright ‹_›
      omega
    · omega
  · split
    · have h2 := hright ‹_›
      omega
    · omega

def fill (list old : ℤ → ℤ) (n lo hi : ℤ) : ℤ → ℤ :=
  fun i => if lo < i ∧ i < hi ∧ i < n then list i else old i

theorem Increasing.codes_entry (hmax : maxValue + 1 < 0x80000000) (old : ℤ → ℤ) (lo p hi : ℤ)
    (hlo : -1 ≤ lo) (hp : lo < p) (hpn : p < n) (hhi : p < hi)
    (holdLo : lo > -1 → old lo = list lo) (holdHi : hi < n → old hi = list hi) :
    Codes (binaryEncode (docLow list lo p) (list p) (docHigh list n maxValue p hi))
      (binaryDecode (docLow old lo p) (docHigh old n maxValue p hi)) (list p) := by
  obtain ⟨h1, h2, h3⟩ := h.bounds hmax lo p hi hlo hp hpn hhi
  have heqLow : docLow old lo p = docLow list lo p := by
    unfold docLow
    split
    · rw [holdLo ‹_›]
    · rfl
  have heqHigh : docHigh old n maxValue p hi = docHigh list n maxValue p hi := by
    unfold docHigh
    by_cases hin : hi < n
    · rw [if_pos hin, if_pos hin, holdHi hin]
    · rw [if_neg hin, if_neg hin]
  rw [heqLow, heqHigh]
  generalize docLow list lo p = low at *
  generalize docHigh list n maxValue p hi = high at *
  have hcodes := Codes.equi (high - low + 1).toNat (list p - low).toNat (by omega) (by omega)
  have hmap := hcodes.map fun value => value + low
  have hback : ((list p - low).toNat : ℤ) + low = list p := by omega
  rwa [hback] at hmap

/-- The entry of one call, or none when the index is past the list. -/
theorem Increasing.codes_here (hmax : maxValue + 1 < 0x80000000) (old : ℤ → ℤ) (lo p hi : ℤ)
    (hlo : -1 ≤ lo) (hp : lo < p) (hhi : p < n → p < hi) (hlon : lo < n)
    (holdLo : lo > -1 → lo < n → old lo = list lo) (holdHi : hi < n → old hi = list hi) :
    Codes (encodeEntry list n maxValue lo p hi) (decodeEntry old n maxValue lo p hi)
      (if p < n then Function.update old p (list p) else old) := by
  unfold encodeEntry decodeEntry
  by_cases hpn : p < n
  · rw [if_pos hpn, if_pos hpn, if_pos hpn]
    exact (h.codes_entry hmax old lo p hi hlo hp hpn (hhi hpn) (fun hpos => holdLo hpos hlon)
      holdHi).map fun x => Function.update old p x
  · rw [if_neg hpn, if_neg hpn, if_neg hpn]
    exact Codes.pure old

omit h in
theorem fill_same (old : ℤ → ℤ) (lo hi : ℤ) (hout : n ≤ lo ∨ hi ≤ lo + 1) :
    fill list old n lo hi = old := by
  funext i
  exact if_neg (by omega)

omit h in
/-- The entry at p, the entries before it and the entries after it. -/
theorem fill_split (old : ℤ → ℤ) (lo p hi : ℤ) (hlo : lo < p) (hhi : p < hi) :
    fill list (fill list (if p < n then Function.update old p (list p) else old) n lo p) n p hi =
      fill list old n lo hi := by
  funext i
  unfold fill
  by_cases hip : i = p
  · subst hip
    by_cases hin : i < n
    · simp [hin, hlo, hhi]
    · simp [hin]
  · have hupdate : (if p < n then Function.update old p (list p) else old) i = old i := by
      split
      · exact Function.update_of_ne hip ..
      · rfl
    rw [hupdate]
    by_cases hafter : p < i ∧ i < hi ∧ i < n
    · rw [if_pos hafter, if_pos (by omega)]
    · rw [if_neg hafter]
      by_cases hbefore : lo < i ∧ i < p ∧ i < n
      · rw [if_pos hbefore, if_pos (by omega)]
      · rw [if_neg hbefore, if_neg (by omega)]

/-- The induction is on the exponent of the step: the entries between lo and
p + step are coded, given those at lo and hi. -/
theorem Increasing.codes_recursive (hmax : maxValue + 1 < 0x80000000) (b : ℕ) (old : ℤ → ℤ)
    (lo p hi : ℤ) (hlo : lo = p - 2 ^ b) (hlo' : -1 ≤ lo)
    (hhi : hi = p + 2 ^ b ∨ n ≤ hi ∧ n ≤ p + 2 ^ b)
    (holdLo : lo > -1 → lo < n → old lo = list lo) (holdHi : hi < n → old hi = list hi) :
    Codes (icEncodeRecursiveR list n maxValue b lo p hi)
      (icDecodeRecursiveR n maxValue b lo p hi old) (fill list old n lo (p + 2 ^ b)) := by
  induction b generalizing old lo p hi with
  | zero =>
    unfold icEncodeRecursiveR icDecodeRecursiveR
    rw [pow_zero] at hlo hhi ⊢
    by_cases hout : lo ≥ n
    · rw [if_pos hout, if_pos hout, fill_same old lo (p + 1) (Or.inl hout)]
      exact Codes.pure old
    · rw [if_neg hout, if_neg hout]
      have hhere :=
        h.codes_here hmax old lo p hi hlo' (by omega) (by omega) (by omega) holdLo holdHi
      refine hhere.bind ?_
      rw [← fill_split old lo p (p + 1) (by omega) (by omega), fill_same _ p (p + 1) (by omega),
        fill_same _ lo p (by omega)]
      exact Codes.pure _
  | succ b ih =>
    have hpow : (2 : ℤ) ^ (b + 1) = 2 ^ b + 2 ^ b := by
      rw [pow_succ]
      omega
    have hpos : (0 : ℤ) < 2 ^ b := by positivity
    unfold icEncodeRecursiveR icDecodeRecursiveR
    rw [hpow] at hlo hhi ⊢
    by_cases hout : lo ≥ n
    · rw [if_pos hout, if_pos hout, fill_same old lo _ (Or.inl hout)]
      exact Codes.pure old
    · rw [if_neg hout, if_neg hout]
      have hhere :=
        h.codes_here hmax old lo p hi hlo' (by omega) (by omega) (by omega) holdLo holdHi
      refine hhere.bind ?_
      rw [← fill_split old lo p (p + (2 ^ b + 2 ^ b)) (by omega) (by omega)]
      generalize hnow : (if p < n then Function.update old p (list p) else old) = now
      have hother : ∀ i, i ≠ p → now i = old i := by
        intro i hi
        rw [← hnow]
        split
        · exact Function.update_of_ne hi ..
        · rfl
      have hthis : p < n → now p = list p := by
        intro hpn
        rw [← hnow, if_pos hpn, Function.update_self]
      have hleft := ih now lo (p - 2 ^ b) p (by omega) hlo' (Or.inl (by omega))
        (fun hpos' hlon => by rw [hother lo (by omega), holdLo hpos' hlon]) hthis
      rw [show p - 2 ^ b + 2 ^ b = p by omega] at hleft
      refine hleft.bind ?_
      have hright := ih (fill list now n lo p) p (p + 2 ^ b) hi (by omega) (by omega) (by omega)
        (fun _ hpn => by
          unfold fill
          rw [if_neg (by omega), hthis hpn])
        (fun hin => by
          unfold fill
          rw [if_neg (by omega), hother hi (by omega), holdHi hin])
      rwa [show p + 2 ^ b + 2 ^ b = p + (2 ^ b + 2 ^ b) by omega] at hright

/-- Whatever the output array held, its first n entries are the list. -/
theorem Increasing.codes (hmax : maxValue + 1 < 0x80000000) (hn : 1 ≤ n)
    (hlength : n + 1 < 0x80000000) (old : ℤ → ℤ) :
    Codes (icEncodeRecursive list n maxValue) (icDecodeRecursive old n maxValue)
      (fun i => if 0 ≤ i ∧ i < n then list i else old i) := by
  have hspan := h.spread 0 (n - 1) (by omega) (by omega) (by omega)
  have hzero := h.low 0 (by omega) (by omega)
  have htop := h.high (n - 1) (by omega) (by omega)
  obtain ⟨b, hb, hexp, hlt, hle⟩ := biggestPowerOf2_spec (n + 1) (by omega) (by omega)
  have hint : int32 (n + 1) = n + 1 := int32_eq ⟨by omega, by omega⟩
  have hpow : (2 : ℤ) ^ (b + 1) = 2 ^ b + 2 ^ b := by
    rw [pow_succ]
    omega
  have hcodes := h.codes_recursive hmax b old (-1) (2 ^ b - 1) (n + 1) (by omega) (by omega)
    (Or.inr (by omega)) (fun hpos => by omega) (fun hin => by omega)
  unfold icEncodeRecursive icDecodeRecursive
  simp only
  rw [hint, hexp, hb]
  have hresult : fill list old n (-1) (2 ^ b - 1 + 2 ^ b) =
      fun i => if 0 ≤ i ∧ i < n then list i else old i := by
    funext i
    unfold fill
    by_cases hin : 0 ≤ i ∧ i < n
    · rw [if_pos hin, if_pos (by omega)]
    · rw [if_neg hin, if_neg (by omega)]
  rwa [hresult] at hcodes

theorem Increasing.valid_entry (hmax : maxValue + 1 < 0x80000000) (lo p hi : ℤ)
    (hlo : -1 ≤ lo) (hp : lo < p)
    (hhi : p < n → p < hi) : ∀ step ∈ encodeEntry list n maxValue lo p hi, step.Valid := by
  intro step hstep
  rw [encodeEntry] at hstep
  by_cases hpn : p < n
  · rw [if_pos hpn] at hstep
    obtain ⟨h1, h2, h3⟩ := h.bounds hmax lo p hi hlo hp hpn (hhi hpn)
    rw [binaryEncode, List.mem_singleton] at hstep
    subst hstep
    refine ⟨?_, ?_⟩
    · omega
    · omega
  · rw [if_neg hpn] at hstep
    cases hstep

/-- Every entry is coded within the bounds that its neighbours leave. -/
theorem Increasing.valid_recursive (hmax : maxValue + 1 < 0x80000000) (b : ℕ) (lo p hi : ℤ)
    (hlo : lo = p - 2 ^ b) (hlo' : -1 ≤ lo) (hhi : hi = p + 2 ^ b ∨ n ≤ hi ∧ n ≤ p + 2 ^ b) :
    ∀ step ∈ icEncodeRecursiveR list n maxValue b lo p hi, step.Valid := by
  induction b generalizing lo p hi with
  | zero =>
    rw [pow_zero] at hlo hhi
    unfold icEncodeRecursiveR
    split
    · simp
    · rw [List.append_nil]
      exact h.valid_entry hmax lo p hi hlo' (by omega) (by omega)
  | succ b ih =>
    have hpow : (2 : ℤ) ^ (b + 1) = 2 ^ b + 2 ^ b := by
      rw [pow_succ]
      omega
    have hpos : (0 : ℤ) < 2 ^ b := by positivity
    rw [hpow] at hlo hhi
    unfold icEncodeRecursiveR
    split
    · simp
    · have hhere := h.valid_entry hmax lo p hi hlo' (by omega) (by omega)
      have hleft := ih lo (p - 2 ^ b) p (by omega) hlo' (Or.inl (by omega))
      have hright := ih p (p + 2 ^ b) hi (by omega) (by omega) (by omega)
      intro step hstep
      rcases List.mem_append.mp hstep with hmem | hmem
      · exact hhere step hmem
      · rcases List.mem_append.mp hmem with hmem | hmem
        · exact hleft step hmem
        · exact hright step hmem

theorem Increasing.valid (hmax : maxValue + 1 < 0x80000000) (hn : 1 ≤ n)
    (hlength : n + 1 < 0x80000000) :
    ∀ step ∈ icEncodeRecursive list n maxValue, step.Valid := by
  obtain ⟨b, hb, hexp, hlt, hle⟩ := biggestPowerOf2_spec (n + 1) (by omega) (by omega)
  have hint : int32 (n + 1) = n + 1 := int32_eq ⟨by omega, by omega⟩
  have hpow : (2 : ℤ) ^ (b + 1) = 2 ^ b + 2 ^ b := by
    rw [pow_succ]
    omega
  unfold icEncodeRecursive
  simp only
  rw [hint, hexp, hb]
  exact h.valid_recursive hmax b (-1) (2 ^ b - 1) (n + 1) (by omega) (by omega)
    (Or.inr (by omega))

end RoundTrip

end Succinct.Interpolative
