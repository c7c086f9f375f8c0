import Succinct.RangePhases
import Mathlib.Tactic.NormNum

/-!
Whatever a range coder encodes, a decoder on the emitted bits gets back.
Each encoding call is read as a transfer between two phases: a stream
denoted after the call was denoted before it, and a decoder that tracks the
phase before the call returns the encoded symbol and tracks the phase after
it. Transfers compose.
-/
namespace Succinct.RangeLossless

open Arithmetic BitWords IntervalCoding RangePhases

def space (p : Phase) : ℕ := (p.high - p.low) / 256 * 256

def narrowed (p : Phase) (pLow pHigh : ℕ) : Phase :=
  { p with
    low := p.low + pLow * space p / 0x1000000
    high := if pHigh ≥ MAXVALUEPLUS1 then p.high
      else p.low + pHigh * space p / 0x1000000 - 1 }

def Share (pLow pHigh : ℕ) : Prop := pLow < pHigh ∧ pHigh ≤ 0x1000000

theorem space_bounds (p : Phase) (hp : Normal 30 p) :
    0x40000000 ≤ space p ∧ p.low + space p ≤ p.high ∧ p.high < 0x100000000 := by
  have hspan := hp.span
  have hends := hp.ends
  unfold space
  omega

/-- A share of the interval lies inside it and is at least 64 wide. -/
theorem narrowed_bounds (p : Phase) (hp : Normal 30 p) (pLow pHigh : ℕ)
    (hs : Share pLow pHigh) :
    p.low ≤ (narrowed p pLow pHigh).low ∧
      (narrowed p pLow pHigh).low + 63 ≤ (narrowed p pLow pHigh).high ∧
      (narrowed p pLow pHigh).high ≤ p.high := by
  obtain ⟨hlt, hle⟩ := hs
  obtain ⟨hspace, hfit, -⟩ := space_bounds p hp
  have hstep : pLow * space p + space p ≤ pHigh * space p := by
    calc pLow * space p + space p = (pLow + 1) * space p := by ring
      _ ≤ pHigh * space p := Nat.mul_le_mul_right _ hlt
  have htop : pHigh * space p ≤ 0x1000000 * space p := Nat.mul_le_mul_right _ hle
  unfold narrowed MAXVALUEPLUS1 MAXVALUE
  simp only
  split <;> omega

theorem narrowed_within (p : Phase) (hp : Normal 30 p) (pLow pHigh : ℕ)
    (hs : Share pLow pHigh) : Within 30 (narrowed p pLow pHigh) := by
  have hb := narrowed_bounds p hp pLow pHigh hs
  have hends := hp.ends
  unfold Within
  omega

theorem rangeSpace_eq (c : RangeCoder) (p : Phase) (hp : Normal 30 p)
    (hlow : c.low = p.low) (hhigh : c.high = p.high) : rangeSpace c = space p := by
  have hends := hp.ends
  unfold rangeSpace space u32
  rw [hlow, hhigh]
  omega

/-- The new range, when the space suffices as it does in a normal phase. -/
theorem rangeCalcNewRange_eq (c : RangeCoder) (p : Phase) (hp : Normal 30 p)
    (hlow : c.low = p.low) (hhigh : c.high = p.high) (pLow pHigh : ℕ)
    (hs : Share pLow pHigh) :
    rangeCalcNewRange c pLow pHigh =
      if c.decodingP ∧ ((narrowed p pLow pHigh).low > c.value ∨
        (narrowed p pLow pHigh).high < c.value) then (none, c)
      else (some ((narrowed p pLow pHigh).low, (narrowed p pLow pHigh).high), c) := by
  have hspace := rangeSpace_eq c p hp hlow hhigh
  obtain ⟨hbig, hfit, htop⟩ := space_bounds p hp
  obtain ⟨hlt, hle⟩ := hs
  have hprodLow : pLow * space p ≤ 0x1000000 * space p := Nat.mul_le_mul_right _ (by omega)
  have hprodHigh : pHigh * space p ≤ 0x1000000 * space p := Nat.mul_le_mul_right _ hle
  have hprodPos : 1 * space p ≤ pHigh * space p := Nat.mul_le_mul_right _ (by omega)
  have hnewLow : u32 (c.low + pLow * space p / 0x1000000) = (narrowed p pLow pHigh).low := by
    unfold u32 narrowed
    simp only
    omega
  have hnewHigh : (if pHigh ≥ MAXVALUEPLUS1 then c.high
      else u32 (0xffffffff + c.low + pHigh * space p / 0x1000000)) =
        (narrowed p pLow pHigh).high := by
    unfold u32 narrowed
    simp only
    split
    · exact hhigh
    · omega
  have hnot : ¬ rangeSpace c < MAXVALUEPLUS1 := by
    rw [hspace]
    unfold MAXVALUEPLUS1 MAXVALUE
    omega
  unfold rangeCalcNewRange
  simp only
  rw [if_neg hnot, hspace, hnewLow, hnewHigh]

theorem rangeEncode_outOfBits (c : RangeCoder) (pLow pHigh : ℕ)
    (h : (rangeEncode c pLow pHigh).2.outOfBits = false) : c.outOfBits = false := by
  unfold rangeEncode at h
  split at h
  · exact h
  · split at h
    · exact h
    · have hcalc : (rangeCalcNewRange c pLow pHigh).2.outOfBits = c.outOfBits := by
        unfold rangeCalcNewRange
        simp only
        split
        · rfl
        · split <;> split <;> rfl
      split at h
      case h_1 c' heq =>
        rw [heq] at hcalc
        rw [← hcalc]
        exact h
      case h_2 low high c' heq =>
        rw [heq] at hcalc
        rw [← hcalc]
        simp only at h
        split at h
        · exact h
        · have hstable := andThen_outOfBits _ (fun c => (0, c)) (fun _ h' => h') h
          exact rangeEmitStableBits_outOfBits { c' with low := low, high := high } hstable

def narrowTo (c : RangeCoder) (pLow pHigh : ℕ) : RangeCoder :=
  { c with
    low := (narrowed (phase c) pLow pHigh).low
    high := (narrowed (phase c) pLow pHigh).high }

theorem narrowTo_encoding {c : RangeCoder} (hc : Encoding c) (pLow pHigh : ℕ) :
    Encoding (narrowTo c pLow pHigh) :=
  ⟨hc.encodes, hc.rescales, hc.errorless, hc.deferred, hc.stream.update rfl rfl rfl⟩

/-- range_encode of a share, behind its tests. -/
theorem rangeEncode_eq (c : RangeCoder) (hc : Encoding c) (hp : Normal 30 (phase c))
    (pLow pHigh : ℕ) (hs : Share pLow pHigh) : rangeEncode c pLow pHigh =
      andThen (rangeEmitStableBits (narrowTo c pLow pHigh)) fun c => (0, c) := by
  have hcalc := rangeCalcNewRange_eq c (phase c) hp rfl rfl pLow pHigh hs
  rw [if_neg (by simp [hc.encodes])] at hcalc
  obtain ⟨hlt, hle⟩ := hs
  unfold rangeEncode MAXVALUEPLUS1 MAXVALUE
  rw [if_neg (by omega), if_neg (by omega), hcalc]
  simp only
  rw [if_neg (by omega)]
  rfl

theorem rangeEncode_phase (c : RangeCoder) (hc : Encoding c) (hp : Normal 30 (phase c))
    (pLow pHigh : ℕ) (hs : Share pLow pHigh)
    (hroom : (rangeEncode c pLow pHigh).2.outOfBits = false) :
    (rangeEncode c pLow pHigh).1 = 0 ∧ Encoding (rangeEncode c pLow pHigh).2 ∧
      phase (rangeEncode c pLow pHigh).2 = normalise 30 (narrowed (phase c) pLow pHigh) := by
  rw [rangeEncode_eq c hc hp pLow pHigh hs] at hroom ⊢
  have hfirst := andThen_outOfBits _ _ (fun _ h => h) hroom
  have hc' := narrowTo_encoding hc pLow pHigh
  obtain ⟨hret, henc, hphase⟩ := rangeEmitStableBits_phase _ hc' hfirst
  rw [andThen_zero _ _ hret]
  exact ⟨rfl, henc, hphase⟩

theorem rangeCheck_of (c : RangeCoder) (hlt : c.low < c.high) (hlow : c.low ≤ c.value)
    (hhigh : c.value ≤ c.high) : rangeCheck c = true := by
  simp [rangeCheck, hlt, hlow, hhigh]

theorem rangeDecodeCommon_inside (s : ℕ → Bool) (p : Phase) (d : RangeCoder)
    (hp : Normal 30 p) (ht : Tracks s p d) (pLow pHigh : ℕ) (hs : Share pLow pHigh)
    (hlow : (narrowed p pLow pHigh).low ≤ register s 30 p.out.length p.pending)
    (hhigh : register s 30 p.out.length p.pending ≤ (narrowed p pLow pHigh).high) :
    (rangeDecodeCommon d pLow pHigh).1 = 0 ∧
      Tracks s (normalise 30 (narrowed p pLow pHigh)) (rangeDecodeCommon d pLow pHigh).2 := by
  obtain ⟨hb1, hb2, hb3⟩ := narrowed_bounds p hp pLow pHigh hs
  rw [← ht.value] at hlow hhigh
  have hcalc := rangeCalcNewRange_eq d p hp ht.low ht.high pLow pHigh hs
  rw [if_neg (by omega)] at hcalc
  have hdlow := ht.low
  have hdhigh := ht.high
  have hunfold : rangeDecodeCommon d pLow pHigh = (0, { (rangeEmitStableBits { d with
      decodingP := true
      low := (narrowed p pLow pHigh).low
      high := (narrowed p pLow pHigh).high }).2 with decodingP := false }) := by
    unfold rangeDecodeCommon
    rw [if_neg (by omega), rangeCheck_of d (by omega) (by omega) (by omega)]
    simp only [Bool.not_true, Bool.false_eq_true, if_false, hcalc]
    rw [rangeCheck_of { d with decodingP := true } (show d.low < d.high by omega)
      (show d.low ≤ d.value by omega) (show d.value ≤ d.high by omega)]
    simp only [Bool.not_true, Bool.false_eq_true, if_false]
    rw [if_neg (by omega), rangeCheck_of { d with
      decodingP := true
      low := (narrowed p pLow pHigh).low
      high := (narrowed p pLow pHigh).high }
      (show (narrowed p pLow pHigh).low < (narrowed p pLow pHigh).high by omega) hlow hhigh]
    simp only [Bool.not_true, Bool.false_eq_true, if_false]
  rw [hunfold]
  refine ⟨rfl, Tracks.decodingP ?_ false⟩
  exact rangeEmitStableBits_tracks s (narrowed p pLow pHigh) _ rfl
    ((ht.decodingP true).narrow _ _)

theorem rangeDecodeCommon_outside (s : ℕ → Bool) (p : Phase) (d : RangeCoder)
    (hp : Normal 30 p) (ht : Tracks s p d) (pLow pHigh : ℕ) (hs : Share pLow pHigh)
    (hlow : p.low ≤ register s 30 p.out.length p.pending)
    (hhigh : register s 30 p.out.length p.pending ≤ p.high)
    (hout : (narrowed p pLow pHigh).low > register s 30 p.out.length p.pending ∨
      (narrowed p pLow pHigh).high < register s 30 p.out.length p.pending) :
    (rangeDecodeCommon d pLow pHigh).1 ≠ 0 ∧ Tracks s p (rangeDecodeCommon d pLow pHigh).2 := by
  obtain ⟨hb1, hb2, hb3⟩ := narrowed_bounds p hp pLow pHigh hs
  rw [← ht.value] at hlow hhigh hout
  have hcalc := rangeCalcNewRange_eq d p hp ht.low ht.high pLow pHigh hs
  have hdlow := ht.low
  have hdhigh := ht.high
  unfold rangeDecodeCommon
  rw [if_neg (by omega), rangeCheck_of d (by omega) (by omega) (by omega)]
  simp only [Bool.not_true, Bool.false_eq_true, if_false]
  by_cases hdec : d.decodingP = true
  · rw [if_pos ⟨hdec, hout⟩] at hcalc
    simp only [hcalc]
    exact ⟨by simp, ht⟩
  · rw [if_neg (fun h => hdec h.1)] at hcalc
    simp only [hcalc]
    rw [rangeCheck_of { d with decodingP := true } (show d.low < d.high by omega)
      (show d.low ≤ d.value by omega) (show d.value ≤ d.high by omega)]
    simp only [Bool.not_true, Bool.false_eq_true, if_false]
    rw [if_pos hout]
    exact ⟨by simp, ht.decodingP true⟩

/-- An encoding call from one phase to another, seen from the decoder. -/
structure Transfer (p p' : Phase) (decode : RangeCoder → ℤ × RangeCoder) (symbol : ℤ) : Prop where
  back : ∀ s, Denotes 30 p' s → Denotes 30 p s
  forth : ∀ s d, Denotes 30 p' s → Tracks s p d →
    (decode d).1 = symbol ∧ Tracks s p' (decode d).2

/-- A stream denoted after a share was encoded has its register in the share. -/
theorem register_in_share (p : Phase) (hp : Normal 30 p) (pLow pHigh : ℕ)
    (hs : Share pLow pHigh) (s : ℕ → Bool)
    (h : Denotes 30 (normalise 30 (narrowed p pLow pHigh)) s) :
    Denotes 30 p s ∧
      (narrowed p pLow pHigh).low ≤ register s 30 p.out.length p.pending ∧
      register s 30 p.out.length p.pending ≤ (narrowed p pLow pHigh).high := by
  have hshare := denotes_of_normalise 30 _ s (narrowed_within p hp pLow pHigh hs) h
  obtain ⟨hb1, hb2, hb3⟩ := narrowed_bounds p hp pLow pHigh hs
  exact ⟨denotes_of_narrow 30 p _ _ s hb1 hb3 hshare, hshare.2.2.1, hshare.2.2.2⟩

/-- What an encoding call has to establish to be undone by a decoding call. -/
structure Encodes (c : RangeCoder) (r : ℤ × RangeCoder) (decode : RangeCoder → ℤ × RangeCoder)
    (symbol : ℤ) : Prop where
  code : r.1 = 0
  encoding : Encoding r.2
  normal : Normal 30 (phase r.2)
  transfer : Transfer (phase c) (phase r.2) decode symbol

/-- Encoding one share is undone by any decoder that recognises the share. -/
theorem rangeEncode_encodes (c : RangeCoder) (hc : Encoding c) (hp : Normal 30 (phase c))
    (pLow pHigh : ℕ) (hs : Share pLow pHigh)
    (hroom : (rangeEncode c pLow pHigh).2.outOfBits = false)
    (decode : RangeCoder → ℤ × RangeCoder) (symbol : ℤ)
    (hdecode : ∀ s d, Tracks s (phase c) d → Denotes 30 (phase c) s →
      (narrowed (phase c) pLow pHigh).low ≤ register s 30 (phase c).out.length (phase c).pending →
      register s 30 (phase c).out.length (phase c).pending ≤
        (narrowed (phase c) pLow pHigh).high →
      (decode d).1 = symbol ∧
        Tracks s (normalise 30 (narrowed (phase c) pLow pHigh)) (decode d).2) :
    Encodes c (rangeEncode c pLow pHigh) decode symbol := by
  obtain ⟨hret, henc, hphase⟩ := rangeEncode_phase c hc hp pLow pHigh hs hroom
  have hwithin := narrowed_within (phase c) hp pLow pHigh hs
  refine ⟨hret, henc, ?_, ?_, ?_⟩
  · rw [hphase]
    exact normalise_normal 30 _ hwithin
  · intro s h
    rw [hphase] at h
    exact (register_in_share _ hp pLow pHigh hs s h).1
  · intro s d h ht
    rw [hphase] at h ⊢
    obtain ⟨hden, hlow, hhigh⟩ := register_in_share _ hp pLow pHigh hs s h
    exact hdecode s d ht hden hlow hhigh

/-- A cumulative table: its first n-1 entries rise strictly through
1..0xffffff. -/
def Cumulative (frequencies : List ℕ) (n : ℕ) : Prop :=
  (∀ i, i + 1 < n → 1 ≤ frequencies.getD i 0 ∧ frequencies.getD i 0 ≤ 0xffffff) ∧
  ∀ i j, i < j → j + 1 < n → frequencies.getD i 0 < frequencies.getD j 0

def symbolLow (frequencies : List ℕ) (symbol : ℕ) : ℕ :=
  if symbol > 0 then frequencies.getD (symbol - 1) 0 else 0

def symbolHigh (frequencies : List ℕ) (n symbol : ℕ) : ℕ :=
  if symbol < n - 1 then frequencies.getD symbol 0 else MAXVALUEPLUS1

theorem symbol_share (frequencies : List ℕ) (n symbol : ℕ) (hf : Cumulative frequencies n)
    (hs : symbol < n) : Share (symbolLow frequencies symbol)
      (symbolHigh frequencies n symbol) := by
  obtain ⟨hrange, hmono⟩ := hf
  unfold Share symbolLow symbolHigh MAXVALUEPLUS1 MAXVALUE
  by_cases hpos : symbol > 0
  · rw [if_pos hpos]
    have hprev := hrange (symbol - 1) (by omega)
    by_cases hlast : symbol < n - 1
    · rw [if_pos hlast]
      have hcur := hrange symbol (by omega)
      have hlt := hmono (symbol - 1) symbol (by omega) (by omega)
      omega
    · rw [if_neg hlast]
      omega
  · rw [if_neg hpos]
    by_cases hlast : symbol < n - 1
    · rw [if_pos hlast]
      have hcur := hrange symbol (by omega)
      omega
    · rw [if_neg hlast]
      omega

theorem searchSymbol_eq (c : RangeCoder) (frequencies : List ℕ) (sp t fuel s : ℕ)
    (hst : s ≤ t) (htf : t ≤ s + fuel)
    (hbelow : ∀ i, s ≤ i → i < t →
      ¬ c.value < u32 (c.low + frequencies.getD i 0 * sp / 0x1000000))
    (habove : t < s + fuel → c.value < u32 (c.low + frequencies.getD t 0 * sp / 0x1000000)) :
    searchSymbol c frequencies sp fuel s = t := by
  induction fuel generalizing s with
  | zero =>
    rw [searchSymbol]
    omega
  | succ fuel ih =>
    rw [searchSymbol]
    by_cases heq : s = t
    · subst s
      rw [if_pos (habove (by omega))]
    · rw [if_neg (hbelow s (Nat.le_refl s) (by omega))]
      apply ih (s + 1) (by omega) (by omega)
      · intro i hi hit
        exact hbelow i (by omega) hit
      · intro hlt
        exact habove (by omega)

/-- The search stops at the symbol whose share holds the register. -/
theorem rangeDecodeSymbol_finds (s : ℕ → Bool) (p : Phase) (d : RangeCoder)
    (hp : Normal 30 p) (ht : Tracks s p d) (frequencies : List ℕ) (n symbol : ℕ)
    (hf : Cumulative frequencies n) (hn : symbol < n)
    (hlow : (narrowed p (symbolLow frequencies symbol) (symbolHigh frequencies n symbol)).low ≤
      register s 30 p.out.length p.pending)
    (hhigh : register s 30 p.out.length p.pending ≤
      (narrowed p (symbolLow frequencies symbol) (symbolHigh frequencies n symbol)).high) :
    searchSymbol d frequencies (rangeSpace d) (n - 1) 0 = symbol := by
  obtain ⟨hrange, hmono⟩ := hf
  obtain ⟨hbig, hfit, htop⟩ := space_bounds p hp
  rw [rangeSpace_eq d p hp ht.low ht.high]
  rw [← ht.value] at hlow hhigh
  simp only [narrowed] at hlow hhigh
  have hbound : ∀ i, i + 1 < n →
      u32 (d.low + frequencies.getD i 0 * space p / 0x1000000) =
        p.low + frequencies.getD i 0 * space p / 0x1000000 := by
    intro i hi
    have hle : frequencies.getD i 0 * space p ≤ 0x1000000 * space p :=
      Nat.mul_le_mul_right _ (by have := hrange i hi; omega)
    rw [ht.low]
    unfold u32
    omega
  apply searchSymbol_eq d frequencies (space p) symbol (n - 1) 0 (by omega) (by omega)
  · intro i _ hi
    rw [hbound i (by omega)]
    have hsym : symbolLow frequencies symbol = frequencies.getD (symbol - 1) 0 := by
      rw [symbolLow, if_pos (by omega)]
    rw [hsym] at hlow
    have hmul : frequencies.getD i 0 * space p ≤ frequencies.getD (symbol - 1) 0 * space p := by
      apply Nat.mul_le_mul_right
      by_cases heq : i = symbol - 1
      · rw [heq]
      · exact Nat.le_of_lt (hmono i (symbol - 1) (by omega) (by omega))
    omega
  · intro hlt
    rw [hbound symbol (by omega)]
    have hcur := hrange symbol (by omega)
    have hsym : symbolHigh frequencies n symbol = frequencies.getD symbol 0 := by
      rw [symbolHigh, if_pos (by omega)]
    have hmul : 1 * space p ≤ frequencies.getD symbol 0 * space p :=
      Nat.mul_le_mul_right _ hcur.1
    rw [hsym] at hhigh
    unfold MAXVALUEPLUS1 MAXVALUE at hhigh
    rw [if_neg (by omega)] at hhigh
    omega

theorem rangeEncodeSymbol_encodes (c : RangeCoder) (hc : Encoding c) (hp : Normal 30 (phase c))
    (frequencies : List ℕ) (n symbol : ℕ) (hf : Cumulative frequencies n) (hn : symbol < n)
    (hroom : (rangeEncodeSymbol c frequencies n symbol).2.outOfBits = false) :
    Encodes c (rangeEncodeSymbol c frequencies n symbol)
      (fun d => rangeDecodeSymbol d frequencies n) symbol := by
  have hunfold : rangeEncodeSymbol c frequencies n symbol =
      rangeEncode c (symbolLow frequencies symbol) (symbolHigh frequencies n symbol) := by
    rw [rangeEncodeSymbol, if_neg (by simp [hc.errorless])]
    rfl
  have hshare := symbol_share frequencies n symbol hf hn
  rw [hunfold] at hroom ⊢
  apply rangeEncode_encodes c hc hp _ _ hshare hroom
  intro s d ht _ hlow hhigh
  have hfind := rangeDecodeSymbol_finds s (phase c) _ hp (ht.decodingP false) frequencies n symbol
    hf hn hlow hhigh
  obtain ⟨hret, htr⟩ := rangeDecodeCommon_inside s (phase c) _ hp (ht.decodingP false) _ _ hshare
    hlow hhigh
  unfold rangeDecodeSymbol
  simp only [hfind]
  change (andThen (rangeDecodeCommon { d with decodingP := false }
    (symbolLow frequencies symbol) (symbolHigh frequencies n symbol)) _).1 = _ ∧ Tracks s _
    (andThen (rangeDecodeCommon { d with decodingP := false }
    (symbolLow frequencies symbol) (symbolHigh frequencies n symbol)) _).2
  rw [andThen_zero _ _ hret]
  exact ⟨rfl, htr⟩

def equiprobableLow (n symbol : ℕ) : ℕ := symbol * 0xffffff / n

theorem rangeEquiprobableRange_eq (n symbol : ℕ) (hn : n < 0x400000) (hs : symbol < n) :
    rangeEquiprobableRange n symbol =
      (equiprobableLow n symbol, equiprobableLow n (symbol + 1)) := by
  have hull : ∀ m : ℕ, m < 0x400000 → ull (m : ℤ) = m := by
    intro m hm
    unfold ull
    omega
  have hle : ∀ m : ℕ, m ≤ n → m * 0xffffff / n ≤ 0xffffff := by
    intro m hm
    apply Nat.div_le_of_le_mul
    exact Nat.mul_le_mul_right _ hm
  have hlow : u32 (ull (symbol : ℤ) * 0xffffff % 0x10000000000000000 / ull (n : ℤ)) =
      symbol * 0xffffff / n := by
    rw [hull n hn, hull symbol (by omega), Nat.mod_eq_of_lt (by omega)]
    have := hle symbol (by omega)
    exact Nat.mod_eq_of_lt (by omega)
  have hhigh : u32 ((1 + ull (symbol : ℤ)) * 0xffffff % 0x10000000000000000 / ull (n : ℤ)) =
      (symbol + 1) * 0xffffff / n := by
    rw [hull n hn, hull symbol (by omega), Nat.mod_eq_of_lt (by omega), Nat.add_comm 1 symbol]
    have := hle (symbol + 1) (by omega)
    exact Nat.mod_eq_of_lt (by omega)
  have hlast : (symbol : ℤ) = (n : ℤ) - 1 → 0xffffff = (symbol + 1) * 0xffffff / n := by
    intro h
    have heq : symbol + 1 = n := by omega
    rw [heq, Nat.mul_div_cancel_left _ (by omega)]
  unfold rangeEquiprobableRange equiprobableLow
  simp only [hlow, hhigh]
  split
  case isTrue h =>
    rw [← hlast h]
  case isFalse =>
    rfl

theorem equiprobable_mono (n a b : ℕ) (h : a ≤ b) : equiprobableLow n a ≤ equiprobableLow n b :=
  Nat.div_le_div_right (Nat.mul_le_mul_right _ h)

theorem equiprobable_share (n symbol : ℕ) (hn : n < 0x400000) (hs : symbol < n) :
    Share (equiprobableLow n symbol) (equiprobableLow n (symbol + 1)) := by
  have hpos : 0 < n := by omega
  refine ⟨?_, ?_⟩
  · have hstep : symbol * 0xffffff / n + 1 = (symbol * 0xffffff + n) / n :=
      (Nat.add_div_right _ hpos).symm
    have hle : (symbol * 0xffffff + n) / n ≤ (symbol + 1) * 0xffffff / n := by
      apply Nat.div_le_div_right
      omega
    unfold equiprobableLow
    omega
  · have hle : (symbol + 1) * 0xffffff / n ≤ 0xffffff := by
      apply Nat.div_le_of_le_mul
      exact Nat.mul_le_mul_right _ (by omega)
    unfold equiprobableLow
    omega

/-- The estimate from the offset in the interval is the symbol or the one
before it, however the two divisions were rounded. -/
theorem estimate_near (n t sp v : ℕ) (hn : n < 0x400000) (ht : t < n) (hsp : 0x40000000 ≤ sp)
    (hlow : equiprobableLow n t * sp / 0x1000000 ≤ v)
    (hhigh : v + 1 ≤ equiprobableLow n (t + 1) * sp / 0x1000000) :
    v * n / sp ≤ t ∧ t ≤ v * n / sp + 1 := by
  have hpos : 0 < sp := by omega
  have hnpos : 0 < n := by omega
  constructor
  · have h1 : equiprobableLow n (t + 1) * n ≤ (t + 1) * 0xffffff := Nat.div_mul_le_self _ _
    have h2 : (v + 1) * 0x1000000 ≤ equiprobableLow n (t + 1) * sp :=
      (Nat.le_div_iff_mul_le (by norm_num)).mp hhigh
    have h3 : v * n * 0x1000000 < (t + 1) * sp * 0x1000000 := by
      calc v * n * 0x1000000 = v * 0x1000000 * n := by ring
        _ < (v + 1) * 0x1000000 * n := by
          apply Nat.mul_lt_mul_of_pos_right _ hnpos
          omega
        _ ≤ equiprobableLow n (t + 1) * sp * n := Nat.mul_le_mul_right _ h2
        _ = equiprobableLow n (t + 1) * n * sp := by ring
        _ ≤ (t + 1) * 0xffffff * sp := Nat.mul_le_mul_right _ h1
        _ = (t + 1) * sp * 0xffffff := by ring
        _ ≤ (t + 1) * sp * 0x1000000 := Nat.mul_le_mul_left _ (by norm_num)
    have h4 : v * n < (t + 1) * sp := Nat.lt_of_mul_lt_mul_right h3
    have h5 : v * n / sp < t + 1 := (Nat.div_lt_iff_lt_mul hpos).mpr h4
    omega
  · have h1 : t * 0xffffff < (equiprobableLow n t + 1) * n := by
      have := Nat.lt_mul_div_succ (t * 0xffffff) hnpos
      unfold equiprobableLow
      rw [Nat.mul_comm _ n]
      exact this
    have h2 : equiprobableLow n t * sp < (v + 1) * 0x1000000 := by
      have := Nat.lt_mul_div_succ (equiprobableLow n t * sp) (show 0 < 0x1000000 by norm_num)
      calc equiprobableLow n t * sp <
        0x1000000 * (equiprobableLow n t * sp / 0x1000000 + 1) := this
        _ ≤ 0x1000000 * (v + 1) := Nat.mul_le_mul_left _ (by omega)
        _ = (v + 1) * 0x1000000 := by ring
    have h3 : t * sp * 0xffffff ≤ v * n * 0x1000000 + n * 0x1000000 + n * sp := by
      calc t * sp * 0xffffff = t * 0xffffff * sp := by ring
        _ ≤ (equiprobableLow n t + 1) * n * sp := Nat.mul_le_mul_right _ (Nat.le_of_lt h1)
        _ = equiprobableLow n t * sp * n + n * sp := by ring
        _ ≤ (v + 1) * 0x1000000 * n + n * sp :=
          Nat.add_le_add_right (Nat.mul_le_mul_right _ (Nat.le_of_lt h2)) _
        _ = v * n * 0x1000000 + n * 0x1000000 + n * sp := by ring
    have h4 : t * sp ≤ 0x400000 * sp := Nat.mul_le_mul_right _ (by omega)
    have h5 : n * sp ≤ 0x400000 * sp := Nat.mul_le_mul_right _ (by omega)
    have h6 : t * sp ≤ v * n + sp := by omega
    have h7 : (v * n + sp) / sp = v * n / sp + 1 := Nat.add_div_right _ hpos
    rw [← h7]
    exact (Nat.le_div_iff_mul_le hpos).mpr h6

theorem candidates_spec (n t e : ℕ) (ht : t < n) (h1 : e ≤ t) (h2 : t ≤ e + 1) :
    t ∈ candidates n e ∧ (∀ x ∈ candidates n e, x < n) ∧ (candidates n e).Pairwise (· < ·) := by
  unfold candidates
  refine ⟨?_, ?_, ?_⟩
  · simp only [List.mem_filter, decide_eq_true_eq, Nat.cast_lt, ht, and_true]
    split
    · simp
      omega
    · simp
      omega
  · intro x hx
    simp only [List.mem_filter, decide_eq_true_eq, Nat.cast_lt] at hx
    exact hx.2
  · apply List.Pairwise.filter
    split
    · simp
      omega
    · simp

/-- Trying candidates in order stops at the encoded symbol: the shares of
the symbols below it end below the register. -/
theorem tryCandidates_finds (s : ℕ → Bool) (p : Phase) (hp : Normal 30 p) (hden : Denotes 30 p s)
    (n t : ℕ) (hn : n < 0x400000) (ht : t < n)
    (hlow : (narrowed p (equiprobableLow n t) (equiprobableLow n (t + 1))).low ≤
      register s 30 p.out.length p.pending)
    (hhigh : register s 30 p.out.length p.pending ≤
      (narrowed p (equiprobableLow n t) (equiprobableLow n (t + 1))).high)
    (list : List ℕ) (hmem : t ∈ list) (hall : ∀ x ∈ list, x < n) (hsorted : list.Pairwise (· < ·))
    (d : RangeCoder) (htr : Tracks s p d) :
    ∃ d', tryCandidates n list d = (some t, d') ∧
      Tracks s (normalise 30 (narrowed p (equiprobableLow n t) (equiprobableLow n (t + 1))))
        d' := by
  induction list generalizing d with
  | nil => simp at hmem
  | cons x rest ih =>
    have hxn : x < n := hall x (List.mem_cons_self ..)
    rw [tryCandidates]
    simp only [rangeEquiprobableRange_eq n x hn hxn]
    by_cases hxt : x = t
    · subst x
      obtain ⟨hret, htr'⟩ := rangeDecodeCommon_inside s p d hp htr _ _
        (equiprobable_share n t hn ht) hlow hhigh
      rw [if_pos hret]
      exact ⟨_, rfl, htr'⟩
    · have hrest : t ∈ rest := (List.mem_cons.mp hmem).resolve_left (fun h => hxt h.symm)
      have hlt : x < t := List.rel_of_pairwise_cons hsorted hrest
      have hshare := equiprobable_share n x hn hxn
      have hmul : equiprobableLow n (x + 1) * space p ≤ equiprobableLow n t * space p :=
        Nat.mul_le_mul_right _ (equiprobable_mono n (x + 1) t hlt)
      have hpos : 1 * space p ≤ equiprobableLow n (x + 1) * space p :=
        Nat.mul_le_mul_right _ (by have := hshare.1; omega)
      have hbig := (space_bounds p hp).1
      have hout : (narrowed p (equiprobableLow n x) (equiprobableLow n (x + 1))).high <
          register s 30 p.out.length p.pending := by
        have hshare' := equiprobable_share n t hn ht
        have hle := equiprobable_mono n (x + 1) t hlt
        simp only [narrowed] at hlow ⊢
        unfold MAXVALUEPLUS1 MAXVALUE
        rw [if_neg (by have := hshare'.1; have := hshare'.2; omega)]
        omega
      obtain ⟨hret, htr'⟩ := rangeDecodeCommon_outside s p d hp htr _ _ hshare hden.2.2.1
        hden.2.2.2 (Or.inr hout)
      rw [if_neg hret]
      exact ih hrest (fun y hy => hall y (List.mem_cons_of_mem _ hy))
        (List.Pairwise.of_cons hsorted)
        _ htr'

theorem decodeEquiprobable_finds (s : ℕ → Bool) (p : Phase) (hp : Normal 30 p)
    (hden : Denotes 30 p s) (n t : ℕ) (hn : n < 0x400000) (ht : t < n)
    (hlow : (narrowed p (equiprobableLow n t) (equiprobableLow n (t + 1))).low ≤
      register s 30 p.out.length p.pending)
    (hhigh : register s 30 p.out.length p.pending ≤
      (narrowed p (equiprobableLow n t) (equiprobableLow n (t + 1))).high)
    (d : RangeCoder) (htr : Tracks s p d) :
    (decodeEquiprobable d n).1 = t ∧
      Tracks s (normalise 30 (narrowed p (equiprobableLow n t) (equiprobableLow n (t + 1))))
        (decodeEquiprobable d n).2 := by
  have hshare := equiprobable_share n t hn ht
  have hvalue := htr.value
  have hdlow := htr.low
  obtain ⟨hbig, hfit, htop⟩ := space_bounds p hp
  have hreg := register_lt s 30 p.out.length p.pending
  have hmul : 1 * space p ≤ equiprobableLow n (t + 1) * space p :=
    Nat.mul_le_mul_right _ (by have := hshare.1; omega)
  have hle : equiprobableLow n (t + 1) ≤ 0xffffff := by
    apply Nat.div_le_of_le_mul
    exact Nat.mul_le_mul_right _ (by omega)
  have hoffset : u32 (0x100000000 + d.value - d.low) = d.value - p.low := by
    rw [← hvalue] at hreg
    simp only [narrowed] at hlow
    unfold u32
    omega
  have hnear := estimate_near n t (space p) (d.value - p.low) hn ht hbig
    (by rw [hvalue]; simp only [narrowed] at hlow; omega)
    (by
      rw [hvalue]
      simp only [narrowed] at hlow hhigh
      unfold MAXVALUEPLUS1 MAXVALUE at hhigh
      rw [if_neg (by omega)] at hhigh
      omega)
  have hestimate : u32 ((d.value - p.low) * (n : ℤ).toNat / space p) =
      (d.value - p.low) * n / space p := by
    rw [Int.toNat_natCast]
    exact Nat.mod_eq_of_lt (by omega)
  obtain ⟨hmem, hall, hsorted⟩ := candidates_spec n t _ ht hnear.1 hnear.2
  obtain ⟨d', htry, htr'⟩ := tryCandidates_finds s p hp hden n t hn ht hlow hhigh _ hmem hall
    hsorted d htr
  have hunfold : decodeEquiprobable d n = ((t : ℤ), d') := by
    unfold decodeEquiprobable
    rw [if_neg (by omega)]
    simp only [rangeSpace_eq d p hp hdlow htr.high, hoffset, hestimate, htry]
  rw [hunfold]
  exact ⟨rfl, htr'⟩

theorem encodeEquiprobable_eq (c : RangeCoder) (n t : ℤ) (hn : ¬ n < 1) :
    encodeEquiprobable c n t =
      rangeEncode c (rangeEquiprobableRange n t).1 (rangeEquiprobableRange n t).2 := by
  rw [encodeEquiprobable, if_neg hn]

theorem encodeEquiprobable_encodes (c : RangeCoder) (hc : Encoding c) (hp : Normal 30 (phase c))
    (n t : ℕ) (hn : n < 0x400000) (ht : t < n)
    (hroom : (encodeEquiprobable c n t).2.outOfBits = false) :
    Encodes c (encodeEquiprobable c n t) (fun d => decodeEquiprobable d n) t := by
  have hunfold : encodeEquiprobable c n t =
      rangeEncode c (equiprobableLow n t) (equiprobableLow n (t + 1)) := by
    rw [encodeEquiprobable_eq c n t (by omega), rangeEquiprobableRange_eq n t hn ht]
  rw [hunfold] at hroom ⊢
  apply rangeEncode_encodes c hc hp _ _ (equiprobable_share n t hn ht) hroom
  intro s d htr hden hlow hhigh
  exact decodeEquiprobable_finds s (phase c) hp hden n t hn ht hlow hhigh d htr

theorem encodeEquiprobable_outOfBits (c : RangeCoder) (n t : ℤ)
    (h : (encodeEquiprobable c n t).2.outOfBits = false) : c.outOfBits = false := by
  by_cases hn : n < 1
  · rw [encodeEquiprobable, if_pos hn] at h
    exact h
  · rw [encodeEquiprobable_eq c n t hn] at h
    exact rangeEncode_outOfBits c _ _ h

/-- The two halves of a split symbol are put together again. -/
theorem halves_join (t : ℕ) (ht : t < 0x80000000) :
    toInt (u32 (ull ((t % 0x10000 : ℕ) : ℤ)) |||
      u32 (u32 (ull ((t / 0x10000 : ℕ) : ℤ)) * 0x10000)) = t := by
  have hull : ∀ m : ℕ, m < 0x80000000 → u32 (ull (m : ℤ)) = m := by
    intro m hm
    unfold u32 ull
    omega
  have hor : (t % 0x10000) ||| (t / 0x10000 * 0x10000) = t := by
    have h :=
      Nat.two_pow_add_eq_or_of_lt (i := 16) (show t % 0x10000 < 2 ^ 16 by omega) (t / 0x10000)
    rw [Nat.or_comm, Nat.mul_comm]
    change 2 ^ 16 * (t / 0x10000) ||| t % 0x10000 = t
    rw [← h]
    omega
  rw [hull _ (by omega), hull _ (by omega)]
  have hshift : u32 (t / 0x10000 * 0x10000) = t / 0x10000 * 0x10000 := by
    unfold u32
    omega
  rw [hshift, hor]
  unfold toInt
  rw [if_pos ht]

theorem components_of_eq {α β : Type} {r : α × β} {a : α} {b : β} (h : r = (a, b)) :
    r.1 = a ∧ r.2 = b := by
  rw [h]
  exact ⟨rfl, rfl⟩

/-- Two encoding calls in a row, undone by a decoding call that joins the
two symbols. -/
theorem Encodes.join {c : RangeCoder} {r1 r2 r : ℤ × RangeCoder}
    {decode1 decode2 : RangeCoder → ℤ × RangeCoder} {x y : ℤ}
    (h1 : Encodes c r1 decode1 x) (h2 : Encodes r1.2 r2 decode2 y)
    (hcode : r.1 = 0) (hcoder : r.2 = r2.2) (decode : RangeCoder → ℤ × RangeCoder) (symbol : ℤ)
    (hdecode : ∀ d, (decode1 d).1 = x → (decode2 (decode1 d).2).1 = y →
      decode d = (symbol, (decode2 (decode1 d).2).2)) : Encodes c r decode symbol := by
  refine ⟨hcode, ?_, ?_, ?_, ?_⟩
  · rw [hcoder]
    exact h2.encoding
  · rw [hcoder]
    exact h2.normal
  · intro s h
    rw [hcoder] at h
    exact h1.transfer.back s (h2.transfer.back s h)
  · intro s d h htr
    rw [hcoder] at h ⊢
    obtain ⟨hx, htr1⟩ := h1.transfer.forth s d (h2.transfer.back s h) htr
    obtain ⟨hy, htr2⟩ := h2.transfer.forth s _ h htr1
    rw [hdecode d hx hy]
    exact ⟨rfl, htr2⟩

/-- A large alphabet is coded as two symbols of smaller ones. -/
theorem rangeEncodeEquiprobable_split (c : RangeCoder) (n t : ℕ) (hn : 0x400000 ≤ n) :
    rangeEncodeEquiprobable c n t = (0, (encodeEquiprobable
      (encodeEquiprobable c (1 + n / 0x10000 : ℕ) (t / 0x10000 : ℕ)).2 (0x10000 : ℕ)
      (t % 0x10000 : ℕ)).2) := by
  have hsize : (1 : ℤ) + (n : ℤ) / 0x10000 = ((1 + n / 0x10000 : ℕ) : ℤ) := by omega
  have htop : (t : ℤ).tdiv 0x10000 = ((t / 0x10000 : ℕ) : ℤ) := by
    rw [Int.tdiv_eq_ediv_of_nonneg (by omega)]
    omega
  have hrest : (t : ℤ) % 0x10000 = ((t % 0x10000 : ℕ) : ℤ) := by omega
  have hten : (0x10000 : ℤ) = ((0x10000 : ℕ) : ℤ) := rfl
  rw [rangeEncodeEquiprobable, if_pos (by omega), hsize, htop, hrest, hten]

theorem rangeDecodeEquiprobable_split (d : RangeCoder) (n t : ℕ) (hn : 0x400000 ≤ n)
    (ht : t < 0x80000000)
    (hhigh : (decodeEquiprobable d (1 + n / 0x10000 : ℕ)).1 = (t / 0x10000 : ℕ))
    (hlow : (decodeEquiprobable (decodeEquiprobable d (1 + n / 0x10000 : ℕ)).2 (0x10000 : ℕ)).1 =
      (t % 0x10000 : ℕ)) :
    rangeDecodeEquiprobable d n = ((t : ℤ), (decodeEquiprobable
      (decodeEquiprobable d (1 + n / 0x10000 : ℕ)).2 (0x10000 : ℕ)).2) := by
  have hsize : (1 : ℤ) + (n : ℤ) / 0x10000 = ((1 + n / 0x10000 : ℕ) : ℤ) := by omega
  have hten : (0x10000 : ℤ) = ((0x10000 : ℕ) : ℤ) := rfl
  rw [rangeDecodeEquiprobable, if_pos (by omega), hsize, hten]
  generalize decodeEquiprobable d (1 + n / 0x10000 : ℕ) = first at hhigh hlow ⊢
  obtain ⟨high, c⟩ := first
  simp only at hhigh hlow ⊢
  generalize decodeEquiprobable c (0x10000 : ℕ) = second at hlow ⊢
  obtain ⟨low, c'⟩ := second
  simp only at hlow ⊢
  rw [hhigh, hlow, halves_join t ht]

theorem rangeEncodeEquiprobable_encodes (c : RangeCoder) (hc : Encoding c)
    (hp : Normal 30 (phase c)) (n t : ℕ) (hn : n < 0x80000000) (ht : t < n)
    (hroom : (rangeEncodeEquiprobable c n t).2.outOfBits = false) :
    Encodes c (rangeEncodeEquiprobable c n t) (fun d => rangeDecodeEquiprobable d n) t := by
  by_cases hsplit : n < 0x400000
  · have henc : rangeEncodeEquiprobable c n t = encodeEquiprobable c n t := by
      rw [rangeEncodeEquiprobable, if_neg (by omega)]
    have hdec : (fun d => rangeDecodeEquiprobable d n) = fun d => decodeEquiprobable d n := by
      funext d
      rw [rangeDecodeEquiprobable, if_neg (by omega)]
    rw [henc] at hroom ⊢
    rw [hdec]
    exact encodeEquiprobable_encodes c hc hp n t hsplit ht hroom
  · obtain ⟨hcode, hcoder⟩ := components_of_eq (rangeEncodeEquiprobable_split c n t (by omega))
    rw [hcoder] at hroom
    have h1 := encodeEquiprobable_encodes c hc hp (1 + n / 0x10000) (t / 0x10000) (by omega)
      (by omega) (encodeEquiprobable_outOfBits _ _ _ hroom)
    have h2 := encodeEquiprobable_encodes _ h1.encoding h1.normal 0x10000 (t % 0x10000)
      (by omega) (by omega) hroom
    apply h1.join h2 hcode hcoder
    intro d hhigh hlow
    exact rangeDecodeEquiprobable_split d n t (by omega) (by omega) hhigh hlow

end Succinct.RangeLossless
