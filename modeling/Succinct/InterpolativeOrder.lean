import Succinct.Interpolative

/-!
The order in which the interpolative coder visits its list. The recursion runs
over a complete tree that is larger than the list; the entries past the end
are skipped, and every other entry is met once. What the coder emits is the
code of each entry between its two neighbours, in this order. The rounded
size of the list has to fit an int.
-/
namespace Succinct.InterpolativeOrder

open CStrings Arithmetic RangePhases RangeLossless RangeMessages RangeCodecs Interpolative

structure Visit where
  lo : ℤ
  index : ℤ
  hi : ℤ
  deriving DecidableEq

def visitsR (listLength : ℤ) : ℕ → ℤ → ℤ → ℤ → List Visit
  | b, lo, p, hi =>
    if lo ≥ listLength then []
    else
      (if p < listLength then [⟨lo, p, hi⟩] else []) ++
      match b with
      | 0 => []
      | b + 1 =>
        visitsR listLength b lo (p - 2 ^ b) p ++ visitsR listLength b p (p + 2 ^ b) hi

def visits (listLength : ℤ) : List Visit :=
  let powerof2 := biggestPowerOf2 (int32 (listLength + 1))
  visitsR listLength (exponent powerof2) (-1) (powerof2 - 1) (int32 (listLength + 1))

section Entries

variable (list : ℤ → ℤ) (n maxValue : ℤ)

def low (v : Visit) : ℤ := docLow list v.lo v.index

def high (v : Visit) : ℤ := docHigh list n maxValue v.index v.hi

def alphabetSize (v : Visit) : ℤ := high list n maxValue v - low list v + 1

def symbol (v : Visit) : ℤ := list v.index - low list v

def encodeVisit (v : Visit) : List Step :=
  [.equiprobable (alphabetSize list n maxValue v).toNat (symbol list v).toNat]

theorem encodeEntry_visit (lo p hi : ℤ) :
    encodeEntry list n maxValue lo p hi =
      (if p < n then [(⟨lo, p, hi⟩ : Visit)] else []).flatMap (encodeVisit list n maxValue) := by
  unfold encodeEntry
  split <;> rfl

theorem icEncodeRecursiveR_visits (b : ℕ) (lo p hi : ℤ) :
    icEncodeRecursiveR list n maxValue b lo p hi =
      (visitsR n b lo p hi).flatMap (encodeVisit list n maxValue) := by
  induction b generalizing lo p hi with
  | zero =>
    unfold icEncodeRecursiveR visitsR
    split
    · rfl
    · rw [List.append_nil, List.append_nil, encodeEntry_visit]
  | succ b ih =>
    unfold icEncodeRecursiveR visitsR
    split
    · rfl
    · simp only [encodeEntry_visit, ih, List.flatMap_append]

theorem icEncodeRecursive_visits :
    icEncodeRecursive list n maxValue = (visits n).flatMap (encodeVisit list n maxValue) :=
  icEncodeRecursiveR_visits list n maxValue _ _ _ _

end Entries

def Visit.Bounded (n : ℤ) (v : Visit) : Prop :=
  -1 ≤ v.lo ∧ v.lo < v.index ∧ v.index < n ∧ v.index < v.hi

section Recursion

variable {n : ℤ}

theorem bounded_here (b : ℕ) (lo p hi : ℤ) (hlo : lo = p - 2 ^ b) (hlo' : -1 ≤ lo)
    (hhi : hi = p + 2 ^ b ∨ n ≤ hi) (v : Visit)
    (hv : v ∈ (if p < n then [(⟨lo, p, hi⟩ : Visit)] else [])) : v.Bounded n := by
  have hpos : (0 : ℤ) < 2 ^ b := by positivity
  by_cases hp : p < n
  · rw [if_pos hp] at hv
    rw [List.mem_singleton] at hv
    subst hv
    unfold Visit.Bounded
    simp only
    omega
  · rw [if_neg hp] at hv
    exact absurd hv List.not_mem_nil

theorem visitsR_bounded (b : ℕ) (lo p hi : ℤ) (hlo : lo = p - 2 ^ b) (hlo' : -1 ≤ lo)
    (hhi : hi = p + 2 ^ b ∨ n ≤ hi) (v : Visit) (hv : v ∈ visitsR n b lo p hi) : v.Bounded n := by
  induction b generalizing lo p hi with
  | zero =>
    unfold visitsR at hv
    split at hv
    · exact absurd hv List.not_mem_nil
    · rw [List.append_nil] at hv
      exact bounded_here 0 lo p hi hlo hlo' hhi v hv
  | succ b ih =>
    have hpow : (2 : ℤ) ^ (b + 1) = 2 ^ b + 2 ^ b := by
      rw [pow_succ]
      omega
    have hpos : (0 : ℤ) < 2 ^ b := by positivity
    unfold visitsR at hv
    split at hv
    · exact absurd hv List.not_mem_nil
    · rcases List.mem_append.mp hv with hv | hv
      · exact bounded_here (b + 1) lo p hi hlo hlo' hhi v hv
      · rw [hpow] at hlo hhi
        rcases List.mem_append.mp hv with hv | hv
        · exact ih lo (p - 2 ^ b) p (by omega) hlo' (by omega) hv
        · exact ih p (p + 2 ^ b) hi (by omega) (by omega) (by omega) hv

theorem count_here (lo p hi i : ℤ) :
    ((if p < n then [(⟨lo, p, hi⟩ : Visit)] else []).map Visit.index).count i =
      if i = p ∧ p < n then 1 else 0 := by
  by_cases hp : p < n
  · by_cases hi : i = p
    · simp [hp, hi]
    · simp [hp, hi, Ne.symm hi]
  · simp [hp]

/-- The induction is on the exponent of the step: between lo and p + step
every index of the list is visited once. -/
theorem visitsR_count (b : ℕ) (lo p hi i : ℤ) (hlo : lo = p - 2 ^ b) :
    ((visitsR n b lo p hi).map Visit.index).count i =
      if lo < i ∧ i < p + 2 ^ b ∧ i < n then 1 else 0 := by
  induction b generalizing lo p hi with
  | zero =>
    rw [pow_zero] at hlo ⊢
    unfold visitsR
    split
    · simp
      omega
    · rw [List.append_nil, count_here]
      split <;> split <;> omega
  | succ b ih =>
    have hpow : (2 : ℤ) ^ (b + 1) = 2 ^ b + 2 ^ b := by
      rw [pow_succ]
      omega
    have hpos : (0 : ℤ) < 2 ^ b := by positivity
    rw [hpow] at hlo ⊢
    unfold visitsR
    split
    · simp
      omega
    · have hleft := ih lo (p - 2 ^ b) p (by omega)
      have hright := ih p (p + 2 ^ b) hi (by omega)
      simp only [List.map_append, List.count_append, count_here, hleft, hright]
      split_ifs <;> omega

end Recursion

section RoundTrip

variable {list : ℤ → ℤ} {n maxValue : ℤ}

/-- The tree that the recursion starts on covers the list. -/
theorem visits_eq (hn : 1 ≤ n) (hlength : n + 1 < 0x80000000) :
    ∃ b : ℕ, visits n = visitsR n b (-1) (2 ^ b - 1) (n + 1) ∧ n ≤ 2 ^ b - 1 + 2 ^ b := by
  obtain ⟨b, hb, hexp, -, hle⟩ := biggestPowerOf2_spec (n + 1) (by omega) (by omega)
  have hint : int32 (n + 1) = n + 1 := int32_eq ⟨by omega, by omega⟩
  refine ⟨b, ?_, ?_⟩
  · unfold visits
    simp only
    rw [hint, hexp, hb]
  · rw [pow_succ] at hle
    omega

theorem visits_count (hn : 1 ≤ n) (hlength : n + 1 < 0x80000000) (i : ℤ) :
    ((visits n).map Visit.index).count i = if 0 ≤ i ∧ i < n then 1 else 0 := by
  obtain ⟨b, heq, hcover⟩ := visits_eq hn hlength
  rw [heq, visitsR_count b (-1) (2 ^ b - 1) (n + 1) i (by omega)]
  split <;> split <;> omega

theorem visits_bounded (hn : 1 ≤ n) (hlength : n + 1 < 0x80000000) (v : Visit)
    (hv : v ∈ visits n) : v.Bounded n := by
  obtain ⟨b, heq, hcover⟩ := visits_eq hn hlength
  rw [heq] at hv
  exact visitsR_bounded b (-1) (2 ^ b - 1) (n + 1) (by omega) (by omega) (by omega) v hv

theorem symbol_inside (h : Increasing list n maxValue) (hmax : maxValue + 1 < 0x80000000)
    (v : Visit) (hv : v.Bounded n) :
    0 ≤ symbol list v ∧ symbol list v < alphabetSize list n maxValue v ∧
      alphabetSize list n maxValue v ≤ maxValue + 1 := by
  obtain ⟨h1, h2, h3, h4⟩ := hv
  obtain ⟨hlow, hhigh, hwidth⟩ := h.bounds hmax v.lo v.index v.hi h1 h2 h3 h4
  unfold symbol alphabetSize low high
  omega

/-- Every entry of the list is coded once, under a symbol of its alphabet, and
a decoder that starts on the stream returns the list. -/
theorem codes_once (h : Increasing list n maxValue) (hn : 1 ≤ n) (hlength : n + 1 < 0x80000000)
    (hmax : maxValue + 1 < 0x80000000) :
    icEncodeRecursive list n maxValue = (visits n).flatMap (encodeVisit list n maxValue) ∧
      (∀ i, ((visits n).map Visit.index).count i = if 0 ≤ i ∧ i < n then 1 else 0) ∧
      (∀ v ∈ visits n, 1 ≤ alphabetSize list n maxValue v ∧ 0 ≤ symbol list v ∧
        symbol list v < alphabetSize list n maxValue v) ∧
      ∀ old, Codes (icEncodeRecursive list n maxValue) (icDecodeRecursive old n maxValue)
          (fun i => if 0 ≤ i ∧ i < n then list i else old i) ∧
        ∀ buffer stream length further,
          (encoded buffer (icEncodeRecursive list n maxValue)).outOfBits = false →
          streamBits stream length =
            emitted (encoded buffer (icEncodeRecursive list n maxValue)) ++ further →
          ((icDecodeRecursive old n maxValue).run
              (rangeDecodePrefetch (decoderOn stream length))).1 =
            fun i => if 0 ≤ i ∧ i < n then list i else old i := by
  refine ⟨icEncodeRecursive_visits list n maxValue, visits_count hn hlength, ?_, ?_⟩
  · intro v hv
    obtain ⟨h1, h2, -⟩ := symbol_inside h hmax v (visits_bounded hn hlength v hv)
    exact ⟨by omega, h1, h2⟩
  · intro old
    have hcodes := h.codes hmax hn hlength old
    refine ⟨hcodes, ?_⟩
    intro buffer stream length further hroom hstream
    exact hcodes.decoded buffer hroom stream length further hstream

def three : ℤ → ℤ := fun i => [1, 3, 4].getD i.toNat 0

theorem three_increasing : Increasing three 3 7 := by
  refine ⟨?_, ?_, ?_⟩
  · intro i h1 h2
    interval_cases i <;> decide
  · intro i h1 h2
    interval_cases i <;> decide
  · intro i h1 h2
    have hcases : i = 0 ∨ i = 1 := by omega
    rcases hcases with rfl | rfl <;> decide

/-- Eight bits hold three numbers up to seven. -/
theorem codes_once_three :
    (visits 3).map Visit.index = [1, 0, 2] ∧
      ((icDecodeRecursive (fun _ => 0) 3 7).run
        (rangeDecodePrefetch (decoderOn [102, 0xff] 16))).1 2 = 4 := by
  refine ⟨by decide +kernel, ?_⟩
  obtain ⟨-, -, -, hback⟩ := codes_once three_increasing (by decide) (by decide) (by decide)
  have hread := (hback fun _ => 0).2 [0, 0, 0, 0] [102, 0xff] 16 (List.replicate 8 true)
    (by decide +kernel) (by decide +kernel)
  rw [hread]
  decide

/-- The size of the longest list overflows when it is rounded up: the step is
0, and the only entry that is visited stands before the list. -/
theorem longest_list_missed :
    Increasing (fun i => i) 2147483647 2147483646 ∧
      ((visits 2147483647).map Visit.index).count 0 = 0 ∧
      visits 2147483647 = [⟨-1, -1, -2147483648⟩] := by
  refine ⟨⟨?_, ?_, ?_⟩, by decide +kernel, by decide +kernel⟩
  · intro i h1 _
    exact h1
  · intro i _ h2
    omega
  · intro i _ _
    omega

end RoundTrip

end Succinct.InterpolativeOrder
