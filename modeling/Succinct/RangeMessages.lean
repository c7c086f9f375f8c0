import Succinct.RangeLossless

/-!
Whole messages of the range coder: a sequence of symbols under their models,
closed by range_conclude. The concluding bits place every continuation in
the last interval, so a decoder set up on them followed by any further bits
returns the symbols of the message.
-/
namespace Succinct.RangeMessages

open Arithmetic BitWords IntervalCoding RangePhases RangeLossless

theorem word_topBits (s : ℕ → Bool) (k v b : ℕ) (hb : b ≤ 32) (hv : v < 0x100000000)
    (h : ∀ i, i < b → s (k + i) = v.testBit (31 - i)) : word s k b = v / 2 ^ (32 - b) := by
  induction b with
  | zero =>
    rw [word, Nat.div_eq_of_lt]
    exact hv
  | succ b ih =>
    have hbit := h b (by omega)
    have hrest := ih (by omega) (fun i hi => h i (by omega))
    have hpow : 2 ^ (32 - b) = 2 ^ (31 - b) * 2 := by
      rw [← pow_succ]
      congr 1
      omega
    have hsub : 32 - (b + 1) = 31 - b := by omega
    rw [word, hrest, hbit, Nat.testBit_eq_decide_div_mod_eq, hsub, hpow, ← Nat.div_div_eq_div_mul]
    rcases Nat.mod_two_eq_zero_or_one (v / 2 ^ (31 - b)) with hm | hm
    · simp only [hm, Nat.zero_ne_one, decide_false, Bool.toNat_false]
      omega
    · simp only [hm, decide_true, Bool.toNat_true]
      omega

/-- The top bits of the middle, then anything, stay between low and high. -/
def Fits (low high mean b : ℕ) : Prop :=
  low ≤ mean / 2 ^ (32 - b) * 2 ^ (32 - b) ∧
    mean / 2 ^ (32 - b) * 2 ^ (32 - b) + 0xffffffff / 2 ^ b ≤ high

theorem concludeBits_some (low high mean : ℕ) (hmean : mean < 0x100000000)
    (hfit : Fits low high mean 31) (fuel bits : ℕ) (hbits : fuel + bits = 31) :
    ∃ b, concludeBits low high mean fuel bits = some b ∧ b ≤ 31 ∧ Fits low high mean b := by
  induction fuel generalizing bits with
  | zero =>
    have heq : bits = 31 := by omega
    subst bits
    obtain ⟨hlow, hhigh⟩ := hfit
    refine ⟨31, ?_, Nat.le_refl _, hlow, hhigh⟩
    unfold concludeBits
    simp only [Nat.reduceSub, Nat.reducePow, Nat.reduceDiv] at hlow hhigh ⊢
    rw [if_neg]
    rintro (h | h)
    · simp at h
      omega
    · simp at h
      omega
  | succ fuel ih =>
    unfold concludeBits
    simp only
    by_cases hzero : bits = 0
    · subst bits
      simp only [if_true]
      by_cases hnot : 0 < low ∨ 0 + 4294967295 / 2 ^ 0 > high
      · rw [if_pos hnot]
        exact ih 1 (by omega)
      · rw [if_neg hnot]
        refine ⟨0, rfl, by omega, ?_⟩
        have hdiv : mean / 2 ^ (32 - 0) = 0 := Nat.div_eq_of_lt hmean
        unfold Fits
        rw [hdiv]
        omega
    · rw [if_neg hzero]
      split
      case isTrue hnot =>
        exact ih (bits + 1) (by omega)
      case isFalse hnot =>
        refine ⟨bits, rfl, by omega, ?_⟩
        unfold Fits
        omega

theorem mask_succ (b : ℕ) (hb : b ≤ 32) : 0xffffffff / 2 ^ b + 1 = 2 ^ (32 - b) := by
  interval_cases b <;> rfl

/-- A stream that goes on with the bits chosen for a middle. -/
theorem word_of_mean (s : ℕ → Bool) (k mean b : ℕ) (hb : b ≤ 31) (hmean : mean < 0x100000000)
    (h : ∀ i, i < b → s (k + i) = (if b = 0 then 0xffffffff
      else mean / 2 ^ (32 - b) * 2 ^ (32 - b) + 0xffffffff / 2 ^ b).testBit (31 - i)) :
    word s k b = mean / 2 ^ (32 - b) := by
  by_cases hzero : b = 0
  · subst b
    exact (Nat.div_eq_of_lt hmean).symm
  · simp only [hzero, if_false] at h
    have hmask := mask_succ b (by omega)
    have hpos : 0 < 2 ^ (32 - b) := by positivity
    have hpow : 2 ^ b * 2 ^ (32 - b) = 0x100000000 := by
      rw [← pow_add, Nat.add_sub_cancel' (by omega)]
      rfl
    have hlt : mean / 2 ^ (32 - b) < 2 ^ b := by
      rw [Nat.div_lt_iff_lt_mul hpos, hpow]
      exact hmean
    have hsum : mean / 2 ^ (32 - b) * 2 ^ (32 - b) + 0xffffffff / 2 ^ b < 0x100000000 := by
      have hmul : (mean / 2 ^ (32 - b) + 1) * 2 ^ (32 - b) ≤ 2 ^ b * 2 ^ (32 - b) :=
        Nat.mul_le_mul_right _ hlt
      rw [Nat.add_mul, hpow] at hmul
      omega
    rw [word_topBits s k _ b (by omega) hsum h, Nat.mul_comm, Nat.mul_add_div hpos,
      Nat.div_eq_of_lt (show 0xffffffff / 2 ^ b < 2 ^ (32 - b) by omega), Nat.add_zero]

/-- Ends on both sides of the middle of all words, an even and an odd one,
have a middle whose first bits suffice. -/
theorem concludeBits_ends (low high : ℕ) (hlow : low % 2 = 0 ∧ low < 0x80000000)
    (hhigh : high % 2 = 1 ∧ 0x80000000 ≤ high ∧ high < 0x100000000) :
    u32 (u32 (0x100000000 + high - low) / 2 + low) < 0x100000000 ∧
      ∃ b, concludeBits low high (u32 (u32 (0x100000000 + high - low) / 2 + low)) 31 0 = some b ∧
        b ≤ 31 ∧ Fits low high (u32 (u32 (0x100000000 + high - low) / 2 + low)) b := by
  obtain ⟨hlowEven, hlowLt⟩ := hlow
  obtain ⟨hhighOdd, hhighGe, hhighLt⟩ := hhigh
  have hmean : low ≤ u32 (u32 (0x100000000 + high - low) / 2 + low) ∧
      u32 (u32 (0x100000000 + high - low) / 2 + low) ≤ high := by
    unfold u32
    omega
  generalize u32 (u32 (0x100000000 + high - low) / 2 + low) = mean at *
  have hfit : Fits low high mean 31 := by
    simp only [Fits, Nat.reduceSub, Nat.reducePow, Nat.reduceDiv]
    omega
  have hlt : mean < 0x100000000 := by omega
  exact ⟨hlt, concludeBits_some low high mean hlt hfit 31 0 rfl⟩

/-- The bits of range_conclude that follow the top and the deferred bits
pin the word they start down to the interval left. -/
theorem concludeTail_word (c : RangeCoder) (hok : StreamOk c)
    (hroom : (concludeTail c).2.outOfBits = false) :
    (concludeTail c).1 = 0 ∧ ∃ bits, emitted (concludeTail c).2 = emitted c ++ bits ∧
      ∀ s, (∀ i, i < bits.length → s ((emitted c).length + i) = bits.getD i false) →
        2 * c.low % 0x80000000 ≤ word s (emitted c).length 32 ∧
          word s (emitted c).length 32 ≤ 0x80000000 + (2 * c.high + 1) % 0x80000000 := by
  have hlowEq : u32 (2 * c.low) % 0x80000000 = 2 * c.low % 0x80000000 := by
    unfold u32
    omega
  have hhighEq : u32 (2 * c.high + 1) % 0x80000000 = (2 * c.high + 1) % 0x80000000 := by
    unfold u32
    omega
  unfold concludeTail at hroom ⊢
  simp only [hlowEq, hhighEq] at hroom ⊢
  obtain ⟨hmean, b, hsome, hb, hlow, hhigh⟩ := concludeBits_ends (2 * c.low % 0x80000000)
    (0x80000000 + (2 * c.high + 1) % 0x80000000) (by omega) (by omega)
  generalize 2 * c.low % 0x80000000 = low at *
  generalize 0x80000000 + (2 * c.high + 1) % 0x80000000 = high at *
  generalize u32 (u32 (0x100000000 + high - low) / 2 + low) = mean at *
  simp only [hsome] at hroom ⊢
  have hok' : StreamOk { c with low := low, high := high } := hok.update rfl rfl rfl
  obtain ⟨hret, happ⟩ := emitAll_appended _ _ hok' hroom
  refine ⟨hret, _, happ.emitted_eq, ?_⟩
  intro s h
  have hstart : word s (emitted c).length b = mean / 2 ^ (32 - b) := by
    apply word_of_mean s _ mean b hb hmean
    intro i hi
    rw [h i (by simpa [topBits] using hi)]
    simp [topBits, hi]
  have hsplit := word_add s (emitted c).length b (32 - b)
  have htail := word_lt s ((emitted c).length + b) (32 - b)
  have hmask := mask_succ b (by omega)
  rw [Nat.add_sub_cancel' (by omega), hstart] at hsplit
  omega

theorem concludeTail_outOfBits (c : RangeCoder) (h : (concludeTail c).2.outOfBits = false) :
    c.outOfBits = false := by
  unfold concludeTail at h
  simp only at h
  split at h
  · exact h
  · have hlast := emitAll_outOfBits _ _ h
    exact hlast

theorem rangeConclude_outOfBits (c : RangeCoder) (h : (rangeConclude c).2.outOfBits = false) :
    c.outOfBits = false := by
  unfold rangeConclude at h
  apply rangeEmitbit_outOfBits c
  apply andThen_outOfBits _ _ _ h
  intro c' h'
  exact emitDeferred_outOfBits _ _ _ _ (andThen_outOfBits _ _ concludeTail_outOfBits h')

/-- The top bit and the deferred bits go out before the rest. -/
theorem emitTop_appended (c : RangeCoder) (b : Bool) (hok : StreamOk c)
    (rest : RangeCoder → ℤ × RangeCoder)
    (hrest : ∀ c, (rest c).2.outOfBits = false → c.outOfBits = false)
    (hroom : (andThen (rangeEmitbit c b) fun c =>
      andThen (emitDeferred false (!b) c.underflow.toNat c) rest).2.outOfBits = false) :
    ∃ c', (andThen (rangeEmitbit c b) fun c =>
        andThen (emitDeferred false (!b) c.underflow.toNat c) rest) = rest c' ∧
      c'.low = c.low ∧ c'.high = c.high ∧ StreamOk c' ∧
      emitted c' = emitted c ++ b :: List.replicate c.underflow.toNat (!b) := by
  obtain ⟨hret, happ⟩ := rangeEmitbit_appended c b hok (andThen_outOfBits _ _
    (fun c' h' => emitDeferred_outOfBits _ _ _ _ (andThen_outOfBits _ _ hrest h')) hroom)
  rw [andThen_zero _ _ hret] at hroom ⊢
  have hunder : (rangeEmitbit c b).2.underflow = c.underflow := by rw [happ.same]
  have hlow : (rangeEmitbit c b).2.low = c.low := by rw [happ.same]
  have hhigh : (rangeEmitbit c b).2.high = c.high := by rw [happ.same]
  obtain ⟨hret', happ'⟩ := emitDeferred_appended _ _ _ happ.ok (andThen_outOfBits _ _ hrest hroom)
  rw [andThen_zero _ _ hret']
  have hemit := happ'.emitted_eq
  change emitted _ = emitted (rangeEmitbit c b).2 ++ _ at hemit
  refine ⟨_, rfl, ?_, ?_, happ'.ok, ?_⟩
  · rw [happ'.same]
    exact hlow
  · rw [happ'.same]
    exact hhigh
  · rw [hemit, happ.emitted_eq, List.append_assoc, List.singleton_append, hunder]

/-- Whatever follows the concluding bits, the stream is denoted. -/
theorem rangeConclude_denotes (c : RangeCoder) (hc : Encoding c) (hp : Normal 30 (phase c))
    (hroom : (rangeConclude c).2.outOfBits = false) (s : ℕ → Bool)
    (hs : Starts (emitted (rangeConclude c).2) s) :
    (rangeConclude c).1 = 0 ∧ Denotes 30 (phase c) s := by
  have hends := hp.ends
  simp only [phase] at hends
  have hmean : u32 (u32 (0x100000000 + c.high - c.low) / 2 + c.low) = (c.low + c.high) / 2 := by
    unfold u32
    omega
  unfold rangeConclude at hroom hs ⊢
  simp only [hmean] at hroom hs ⊢
  obtain ⟨c', hstep, hlow, hhigh, hok, hemit⟩ := emitTop_appended c _ hc.stream concludeTail
    concludeTail_outOfBits hroom
  rw [hstep] at hroom hs ⊢
  obtain ⟨hret, bits, hbits, hword⟩ := concludeTail_word c' hok hroom
  rw [hbits] at hs
  obtain ⟨hstart, hafter⟩ := (starts_append _ _ _).mp hs
  obtain ⟨hge, hle⟩ := hword s hafter
  have hlen : (emitted c').length = (phase c).out.length + 1 + (phase c).pending := by
    rw [hemit]
    simp only [phase, List.length_append, List.length_cons, List.length_replicate]
    omega
  rw [hlen, hlow] at hge
  rw [hlen, hhigh] at hle
  rw [hemit] at hstart
  refine ⟨hret, ?_⟩
  apply denotes_of_top 30 (phase c) _ s hp.within hp.unsettled hstart
  · intro htop
    rw [decide_eq_false_iff_not] at htop
    change 2 * c.low ≤ word s ((phase c).out.length + 1 + (phase c).pending) 32
    omega
  · intro htop
    rw [decide_eq_true_iff] at htop
    change word s ((phase c).out.length + 1 + (phase c).pending) 32 + 4 * 2 ^ 30 ≤ 2 * c.high + 1
    omega

inductive Step where
  | equiprobable (alphabetSize symbol : ℕ)
  | symbol (frequencies : List ℕ) (alphabetSize symbol : ℕ)
  deriving DecidableEq

def Step.value : Step → ℕ
  | .equiprobable _ t => t
  | .symbol _ _ t => t

def Step.Valid : Step → Prop
  | .equiprobable n t => t < n ∧ n < 0x80000000
  | .symbol frequencies n t => t < n ∧ Cumulative frequencies n

def Step.encode : Step → RangeCoder → ℤ × RangeCoder
  | .equiprobable n t, c => rangeEncodeEquiprobable c n t
  | .symbol frequencies n t, c => rangeEncodeSymbol c frequencies n t

def Step.decode : Step → RangeCoder → ℤ × RangeCoder
  | .equiprobable n _, d => rangeDecodeEquiprobable d n
  | .symbol frequencies n _, d => rangeDecodeSymbol d frequencies n

def encodeSteps : List Step → RangeCoder → RangeCoder
  | [], c => c
  | step :: rest, c => encodeSteps rest (step.encode c).2

/-- What a decoder returns that knows the models and not the symbols. -/
def decodeSteps : List Step → RangeCoder → List ℤ
  | [], _ => []
  | step :: rest, d => (step.decode d).1 :: decodeSteps rest (step.decode d).2

theorem Step.encode_outOfBits (step : Step) (c : RangeCoder)
    (h : (step.encode c).2.outOfBits = false) : c.outOfBits = false := by
  cases step with
  | equiprobable n t =>
    change (rangeEncodeEquiprobable c n t).2.outOfBits = false at h
    by_cases hn : n < 0x400000
    · rw [rangeEncodeEquiprobable, if_neg (by omega)] at h
      exact encodeEquiprobable_outOfBits _ _ _ h
    · rw [(components_of_eq (rangeEncodeEquiprobable_split c n t (by omega))).2] at h
      exact encodeEquiprobable_outOfBits _ _ _ (encodeEquiprobable_outOfBits _ _ _ h)
  | symbol frequencies n t =>
    change (rangeEncodeSymbol c frequencies n t).2.outOfBits = false at h
    unfold rangeEncodeSymbol at h
    split at h
    · exact h
    · exact rangeEncode_outOfBits c _ _ h

theorem encodeSteps_outOfBits (steps : List Step) (c : RangeCoder)
    (h : (encodeSteps steps c).outOfBits = false) : c.outOfBits = false := by
  induction steps generalizing c with
  | nil => exact h
  | cons step rest ih => exact step.encode_outOfBits c (ih _ h)

theorem Step.encodes (step : Step) (hvalid : step.Valid) (c : RangeCoder) (hc : Encoding c)
    (hp : Normal 30 (phase c)) (hroom : (step.encode c).2.outOfBits = false) :
    Encodes c (step.encode c) step.decode step.value := by
  cases step with
  | equiprobable n t =>
    exact rangeEncodeEquiprobable_encodes c hc hp n t hvalid.2 hvalid.1 hroom
  | symbol frequencies n t =>
    exact rangeEncodeSymbol_encodes c hc hp frequencies n t hvalid.2 hvalid.1 hroom

/-- The run lemma: a stream denoted at the end was denoted at the start, and
a decoder that tracks the start returns every symbol. -/
theorem encodeSteps_transfer (steps : List Step) (hvalid : ∀ step ∈ steps, step.Valid)
    (c : RangeCoder) (hc : Encoding c) (hp : Normal 30 (phase c))
    (hroom : (encodeSteps steps c).outOfBits = false) :
    Encoding (encodeSteps steps c) ∧ Normal 30 (phase (encodeSteps steps c)) ∧
      ∀ s, Denotes 30 (phase (encodeSteps steps c)) s → Denotes 30 (phase c) s ∧
        ∀ d, Tracks s (phase c) d → decodeSteps steps d = steps.map fun step =>
          (step.value : ℤ) := by
  induction steps generalizing c with
  | nil => exact ⟨hc, hp, fun s hs => ⟨hs, fun d _ => rfl⟩⟩
  | cons step rest ih =>
    have henc := step.encodes (hvalid step (List.mem_cons_self ..)) c hc hp
      (encodeSteps_outOfBits rest _ hroom)
    obtain ⟨hc', hp', hrest⟩ := ih (fun x hx => hvalid x (List.mem_cons_of_mem _ hx)) _
      henc.encoding henc.normal hroom
    refine ⟨hc', hp', ?_⟩
    intro s hs
    obtain ⟨hden, hdecode⟩ := hrest s hs
    refine ⟨henc.transfer.back s hden, ?_⟩
    intro d htr
    obtain ⟨hsymbol, htr'⟩ := henc.transfer.forth s d hden htr
    rw [decodeSteps, hsymbol, hdecode _ htr', List.map_cons]

theorem rangeNewCoder_encoding (buffer : List UInt8) :
    Encoding (rangeNewCoder buffer) ∧ phase (rangeNewCoder buffer) = ⟨0, 0xffffffff, 0, []⟩ := by
  refine ⟨⟨rfl, rfl, rfl, Int.le_refl 0, ?_, ?_⟩, rfl⟩
  · exact Nat.le_refl (8 * buffer.length)
  · intro h
    exact absurd rfl h

theorem fresh_normal : Normal 30 ⟨0, 0xffffffff, 0, []⟩ := by
  refine ⟨?_, ?_, ?_⟩
  · norm_num [Within]
  · norm_num [Settled]
  · norm_num [Straddles]

theorem prefetchBits_eq (s : ℕ → Bool) (n k j : ℕ) (d : RangeCoder)
    (hs : decoderStream d.bitStream d.bitStreamLength = s) (hvalue : d.value = word s k j)
    (hused : d.bitsUsed = k + j) (hj : j + n ≤ 32) :
    prefetchBits n d = { d with bitsUsed := k + (j + n), value := word s k (j + n) } := by
  induction n generalizing j d with
  | zero =>
    rw [prefetchBits, Nat.add_zero, ← hused, ← hvalue]
  | succ n ih =>
    have hlt := word_lt s k (j + 1)
    have hpow : 2 ^ (j + 1) ≤ 2 ^ 32 := Nat.pow_le_pow_right (by omega) (by omega)
    have hnext : u32 (2 * d.value + (s d.bitsUsed).toNat) = word s k (j + 1) := by
      rw [hvalue, hused]
      exact Nat.mod_eq_of_lt (Nat.lt_of_lt_of_le hlt hpow)
    rw [prefetchBits, rangeDecodeGetnextbit_eq, hs]
    simp only [hnext]
    have hstep : d.bitsUsed + 1 = k + (j + 1) := by omega
    have hrest := ih (j + 1) { d with bitsUsed := d.bitsUsed + 1, value := word s k (j + 1) }
      hs rfl hstep (by omega)
    rw [hrest]
    simp only [Nat.add_assoc, Nat.add_comm 1 n]

def decoderOn (stream : List UInt8) (length : ℕ) : RangeCoder :=
  { rangeNewCoder stream with bitStreamLength := length }

def streamBits (stream : List UInt8) (length : ℕ) : List Bool :=
  (List.range length).map (streamBit stream)

theorem rangeDecodePrefetch_tracks (stream : List UInt8) (length : ℕ) :
    Tracks (decoderStream stream length) ⟨0, 0xffffffff, 0, []⟩
      (rangeDecodePrefetch (decoderOn stream length)) := by
  have heq := prefetchBits_eq (decoderStream stream length) 32 0 0
    { decoderOn stream length with low := 0, high := 0xffffffff, value := 0 } rfl rfl rfl
    (Nat.le_refl _)
  unfold rangeDecodePrefetch
  rw [heq]
  exact ⟨rfl, rfl, rfl, rfl, (register_zero _ 30 0).symm, rfl, rfl⟩

theorem starts_decoderStream (stream : List UInt8) (length : ℕ) (bits further : List Bool)
    (h : streamBits stream length = bits ++ further) :
    Starts bits (decoderStream stream length) := by
  intro i hi
  have hlen := congrArg List.length h
  simp only [streamBits, List.length_map, List.length_range, List.length_append] at hlen
  have hget : (streamBits stream length).getD i false = bits.getD i false := by
    rw [h, List.getD_append _ _ _ _ hi]
  rw [← hget, decoderStream, if_neg (by omega)]
  simp [streamBits, List.getD_eq_getElem?_getD, show i < length by omega]

def encoded (buffer : List UInt8) (steps : List Step) : RangeCoder :=
  (rangeConclude (encodeSteps steps (rangeNewCoder buffer))).2

theorem range_coder_lossless (buffer : List UInt8) (steps : List Step)
    (hvalid : ∀ step ∈ steps, step.Valid) (hroom : (encoded buffer steps).outOfBits = false)
    (stream : List UInt8) (length : ℕ) (further : List Bool)
    (hstream : streamBits stream length = emitted (encoded buffer steps) ++ further) :
    decodeSteps steps (rangeDecodePrefetch (decoderOn stream length)) =
      steps.map fun step => (step.value : ℤ) := by
  obtain ⟨hc, hphase⟩ := rangeNewCoder_encoding buffer
  have hp : Normal 30 (phase (rangeNewCoder buffer)) := by
    rw [hphase]
    exact fresh_normal
  obtain ⟨hc', hp', htransfer⟩ := encodeSteps_transfer steps hvalid _ hc hp
    (rangeConclude_outOfBits _ hroom)
  have hden := (rangeConclude_denotes _ hc' hp' hroom _
    (starts_decoderStream stream length _ further hstream)).2
  apply (htransfer _ hden).2
  rw [hphase]
  exact rangeDecodePrefetch_tracks stream length

/-- A split symbol and one under a table, with thirteen foreign bits after
the twenty-seven emitted ones. -/
theorem range_coder_lossless_two :
    (encoded [0, 0, 0, 0, 0, 0]
      [.equiprobable 0x1000000 0x123456, .symbol [0x400000, 0x900000] 3 2]).outOfBits = false ∧
    decodeSteps [.equiprobable 0x1000000 0x123456, .symbol [0x400000, 0x900000] 3 2]
      (rangeDecodePrefetch (decoderOn [18, 34, 51, 0xbf, 0x55] 40)) = [0x123456, 2] := by
  have hroom : (encoded [0, 0, 0, 0, 0, 0]
      [.equiprobable 0x1000000 0x123456, .symbol [0x400000, 0x900000] 3 2]).outOfBits =
        false := by
    decide +kernel
  refine ⟨hroom, ?_⟩
  apply range_coder_lossless [0, 0, 0, 0, 0, 0] _ _ hroom _ _
    ((streamBits [18, 34, 51, 0xbf, 0x55] 40).drop 27)
  · decide +kernel
  · intro step h
    simp only [List.mem_cons, List.not_mem_nil, or_false] at h
    rcases h with rfl | rfl
    · simp [Step.Valid]
    · refine ⟨by omega, ?_, ?_⟩
      · intro i hi
        have hcases : i = 0 ∨ i = 1 := by omega
        rcases hcases with rfl | rfl <;> simp
      · intro i j hij hj
        have hi : i = 0 := by omega
        have hj' : j = 1 := by omega
        subst hi hj'
        simp

end Succinct.RangeMessages
