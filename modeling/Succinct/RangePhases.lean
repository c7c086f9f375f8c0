import Succinct.Arithmetic
import Succinct.IntervalCoding
import Mathlib.Tactic.IntervalCases

/-!
The range coder as a binary interval coder on 32-bit words. An encoder
refines a phase whose settled bits are the bits written to its stream; a
decoder tracks the register of its stream. Both copy the same shifts.
-/
namespace Succinct.RangePhases

open Arithmetic BitWords IntervalCoding

def emitted (c : RangeCoder) : List Bool :=
  (List.range c.bitsUsed).map (streamBit c.bitStream)

structure StreamOk (c : RangeCoder) : Prop where
  room : c.bitStreamLength ≤ 8 * c.bitStream.length
  clear : c.bitsUsed % 8 ≠ 0 → ∀ i, c.bitsUsed ≤ i → i / 8 = c.bitsUsed / 8 →
    streamBit c.bitStream i = false

structure Appended (c : RangeCoder) (bits : List Bool) (c' : RangeCoder) : Prop where
  same : c' = { c with bitStream := c'.bitStream, bitsUsed := c'.bitsUsed }
  emitted_eq : emitted c' = emitted c ++ bits
  ok : StreamOk c'

theorem Appended.trans {a b c : RangeCoder} {x y : List Bool}
    (h1 : Appended a x b) (h2 : Appended b y c) : Appended a (x ++ y) c := by
  refine ⟨?_, ?_, h2.ok⟩
  · rw [h2.same, h1.same]
  · rw [h2.emitted_eq, h1.emitted_eq, List.append_assoc]

theorem testBit_set (old : UInt8) (b : Bool) (p q : ℕ) (hp : p < 8)
    (hold : old.toNat.testBit p = false) :
    (if b then old ||| (1 <<< p.toUInt8) else old).toNat.testBit q =
      if q = p then b else old.toNat.testBit q := by
  have hshift : ((1 : UInt8) <<< p.toUInt8).toNat = 2 ^ p := by
    interval_cases p <;> rfl
  cases b with
  | false =>
    by_cases hq : q = p
    · subst q
      simp [hold]
    · simp [hq]
  | true =>
    by_cases hq : q = p
    · subst q
      simp [hshift, Nat.testBit_two_pow_self]
    · have hne : ¬ p = q := fun h => hq h.symm
      simp [hshift, hq, hne]

theorem rangeEmitbit_streamBit (c : RangeCoder) (b : Bool) (hok : StreamOk c)
    (hroom : c.bitsUsed < c.bitStreamLength) (i : ℕ) :
    streamBit (rangeEmitbit c b).2.bitStream i =
      if i / 8 = c.bitsUsed / 8 ∧ c.bitsUsed ≤ i then (decide (i = c.bitsUsed) && b)
      else streamBit c.bitStream i := by
  have hlen : c.bitsUsed / 8 < c.bitStream.length := by
    have := hok.room
    omega
  have hstate : (rangeEmitbit c b).2.bitStream = c.bitStream.set (c.bitsUsed / 8)
      (if b then (if 7 - c.bitsUsed % 8 = 7 then 0 else c.bitStream.getD (c.bitsUsed / 8) 0) |||
          (1 <<< (7 - c.bitsUsed % 8).toUInt8)
        else if 7 - c.bitsUsed % 8 = 7 then 0 else c.bitStream.getD (c.bitsUsed / 8) 0) := by
    rw [rangeEmitbit, if_neg (by omega)]
  rw [hstate]
  unfold streamBit
  by_cases hbyte : i / 8 = c.bitsUsed / 8
  · rw [hbyte, List.getD_eq_getElem?_getD, List.getElem?_set_self hlen, Option.getD_some]
    have hclear : (if 7 - c.bitsUsed % 8 = 7 then 0
        else c.bitStream.getD (c.bitsUsed / 8) 0).toNat.testBit (7 - c.bitsUsed % 8) = false := by
      by_cases hfirst : 7 - c.bitsUsed % 8 = 7
      · simp [hfirst]
      · rw [if_neg hfirst]
        exact hok.clear (by omega) c.bitsUsed (Nat.le_refl _) rfl
    rw [testBit_set _ b _ (7 - i % 8) (by omega) hclear]
    have hpos : 7 - i % 8 = 7 - c.bitsUsed % 8 ↔ i = c.bitsUsed := by omega
    by_cases hi : i = c.bitsUsed
    · simp [hi]
    · rw [if_neg (by omega)]
      by_cases hfirst : 7 - c.bitsUsed % 8 = 7
      · have hge : c.bitsUsed ≤ i := by omega
        simp [hfirst, hi, hge]
      · rw [if_neg hfirst]
        by_cases hge : c.bitsUsed ≤ i
        · have h := hok.clear (by omega) i hge hbyte
          unfold streamBit at h
          rw [hbyte] at h
          rw [h]
          simp [hge, hi]
        · simp [hge]
  · rw [List.getD_eq_getElem?_getD, List.getElem?_set_ne (by omega), ← List.getD_eq_getElem?_getD]
    simp [hbyte]

/-- A written bit is appended, unless the buffer was full. -/
theorem rangeEmitbit_appended (c : RangeCoder) (b : Bool) (hok : StreamOk c)
    (hroom : (rangeEmitbit c b).2.outOfBits = false) :
    (rangeEmitbit c b).1 = 0 ∧ Appended c [b] (rangeEmitbit c b).2 := by
  have hlt : c.bitsUsed < c.bitStreamLength := by
    by_contra hfull
    rw [rangeEmitbit, if_pos (by omega)] at hroom
    simp at hroom
  have hbits := rangeEmitbit_streamBit c b hok hlt
  have hused : (rangeEmitbit c b).2.bitsUsed = c.bitsUsed + 1 := by
    rw [rangeEmitbit, if_neg (by omega)]
  refine ⟨by rw [rangeEmitbit, if_neg (by omega)], ?_, ?_, ?_, ?_⟩
  · rw [rangeEmitbit, if_neg (by omega)]
  · unfold emitted
    rw [hused, List.range_succ, List.map_append]
    congr 1
    · apply List.map_congr_left
      intro i hi
      rw [hbits i, if_neg (by rw [List.mem_range] at hi; omega)]
    · simp [hbits c.bitsUsed]
  · have hr := hok.room
    rw [rangeEmitbit, if_neg (by omega)]
    simpa using hr
  · intro hmod i hi hbyte
    rw [hused] at hmod hi hbyte
    rw [hbits i, if_pos (by omega)]
    have hne : i ≠ c.bitsUsed := by omega
    simp [hne]

/-- Running out of bits is never forgotten. -/
theorem rangeEmitbit_outOfBits (c : RangeCoder) (b : Bool)
    (h : (rangeEmitbit c b).2.outOfBits = false) : c.outOfBits = false := by
  unfold rangeEmitbit at h
  split at h
  · simp at h
  · exact h

theorem andThen_zero (r : ℤ × RangeCoder) (rest : RangeCoder → ℤ × RangeCoder)
    (h : r.1 = 0) : andThen r rest = rest r.2 := by
  rw [andThen, if_pos h]

theorem andThen_outOfBits (r : ℤ × RangeCoder) (rest : RangeCoder → ℤ × RangeCoder)
    (hrest : ∀ c, (rest c).2.outOfBits = false → c.outOfBits = false)
    (h : (andThen r rest).2.outOfBits = false) : r.2.outOfBits = false := by
  unfold andThen at h
  split at h
  · exact hrest r.2 h
  · exact h

theorem emitAll_outOfBits (bits : List Bool) (c : RangeCoder)
    (h : (emitAll bits c).2.outOfBits = false) : c.outOfBits = false := by
  induction bits generalizing c with
  | nil => exact h
  | cons b rest ih => exact rangeEmitbit_outOfBits c b (andThen_outOfBits _ _ ih h)

theorem emitAll_appended (bits : List Bool) (c : RangeCoder) (hok : StreamOk c)
    (hroom : (emitAll bits c).2.outOfBits = false) :
    (emitAll bits c).1 = 0 ∧ Appended c bits (emitAll bits c).2 := by
  induction bits generalizing c with
  | nil => exact ⟨rfl, rfl, by simp [emitAll], hok⟩
  | cons b rest ih =>
    obtain ⟨hret, happ⟩ := rangeEmitbit_appended c b hok
      (andThen_outOfBits _ _ (emitAll_outOfBits rest) hroom)
    rw [emitAll, andThen_zero _ _ hret] at hroom ⊢
    obtain ⟨hrest, happ'⟩ := ih _ happ.ok hroom
    exact ⟨hrest, happ.trans happ'⟩

theorem emitDeferred_outOfBits (quiet b : Bool) (n : ℕ) (c : RangeCoder)
    (h : (emitDeferred quiet b n c).2.outOfBits = false) : c.outOfBits = false := by
  induction n generalizing c with
  | zero => exact h
  | succ n ih =>
    have hfirst := andThen_outOfBits _ _ ih h
    cases quiet with
    | true => exact hfirst
    | false => exact rangeEmitbit_outOfBits { c with underflow := c.underflow - 1 } b hfirst

theorem StreamOk.update {c c' : RangeCoder} (h : StreamOk c)
    (hstream : c'.bitStream = c.bitStream) (hlength : c'.bitStreamLength = c.bitStreamLength)
    (hused : c'.bitsUsed = c.bitsUsed) : StreamOk c' := by
  obtain ⟨hroom, hclear⟩ := h
  refine ⟨?_, ?_⟩
  · rw [hstream, hlength]
    exact hroom
  · rw [hstream, hused]
    exact hclear

theorem emitDeferred_appended (b : Bool) (n : ℕ) (c : RangeCoder) (hok : StreamOk c)
    (hroom : (emitDeferred false b n c).2.outOfBits = false) :
    (emitDeferred false b n c).1 = 0 ∧
      Appended { c with underflow := c.underflow - n - 1 } (List.replicate n b)
        (emitDeferred false b n c).2 := by
  induction n generalizing c with
  | zero =>
    refine ⟨rfl, ?_, by simp [emitDeferred, emitted], hok.update rfl rfl rfl⟩
    simp [emitDeferred]
  | succ n ih =>
    have hok' : StreamOk { c with underflow := c.underflow - 1 } := hok.update rfl rfl rfl
    obtain ⟨hret, happ⟩ := rangeEmitbit_appended _ b hok'
      (andThen_outOfBits _ _ (emitDeferred_outOfBits false b n) hroom)
    have hunfold : emitDeferred false b (n + 1) c =
        emitDeferred false b n (rangeEmitbit { c with underflow := c.underflow - 1 } b).2 :=
      andThen_zero _ _ hret
    rw [hunfold] at hroom ⊢
    obtain ⟨hrest, hsame, hemit, hok''⟩ := ih _ happ.ok hroom
    refine ⟨hrest, ?_, ?_, hok''⟩
    · rw [hsame, happ.same]
      simp only [RangeCoder.mk.injEq, true_and, and_true, Nat.cast_add, Nat.cast_one]
      omega
    · rw [hemit]
      change emitted (rangeEmitbit { c with underflow := c.underflow - 1 } b).2 ++ _ = _
      rw [happ.emitted_eq, List.append_assoc, List.singleton_append, ← List.replicate_succ]
      rfl

def phase (c : RangeCoder) : Phase :=
  { low := c.low, high := c.high, pending := c.underflow.toNat, out := emitted c }

structure Encoding (c : RangeCoder) : Prop where
  encodes : c.decodingP = false
  rescales : c.norescale = false
  errorless : c.errors = 0
  deferred : 0 ≤ c.underflow
  stream : StreamOk c

theorem shiftOut_outOfBits (c : RangeCoder) (h : (shiftOut c).2.outOfBits = false) :
    c.outOfBits = false := by
  unfold shiftOut rangeDecodeGetnextbit at h
  simp only at h
  split at h
  · split at h <;> exact h
  · exact h

/-- The deferred bits go out after the top bit, in both cases of the guard. -/
theorem emitUnderflow_appended (b : Bool) (c : RangeCoder) (hc : Encoding c)
    (hroom : (andThen (if c.underflow ≠ 0 then emitDeferred c.decodingP b c.underflow.toNat c
      else (0, c)) shiftOut).2.outOfBits = false) :
    ∃ c', Appended { c with underflow := c'.underflow } (List.replicate c.underflow.toNat b) c' ∧
      andThen (if c.underflow ≠ 0 then emitDeferred c.decodingP b c.underflow.toNat c
        else (0, c)) shiftOut = shiftOut c' := by
  have hfirst := andThen_outOfBits _ _ shiftOut_outOfBits hroom
  by_cases hu : c.underflow ≠ 0
  · have hif : (if c.underflow ≠ 0 then emitDeferred c.decodingP b c.underflow.toNat c
        else (0, c)) = emitDeferred false b c.underflow.toNat c := by
      rw [if_pos hu, hc.encodes]
    rw [hif] at hfirst ⊢
    obtain ⟨hret, happ⟩ := emitDeferred_appended b _ c hc.stream hfirst
    refine ⟨_, ?_, andThen_zero _ _ hret⟩
    have hfield := congrArg RangeCoder.underflow happ.same
    simp only at hfield
    rw [hfield]
    exact happ
  · rw [if_neg hu] at hfirst ⊢
    have hzero : c.underflow = 0 := not_ne_iff.mp hu
    refine ⟨c, ⟨rfl, ?_, hc.stream⟩, andThen_zero _ _ rfl⟩
    simp [hzero, emitted]

theorem shiftOut_phase (c : RangeCoder) (hdec : c.decodingP = false) :
    (shiftOut c).1 = 0 ∧ (shiftOut c).2 =
      { c with underflow := 0, low := u32 (2 * c.low), high := u32 (2 * c.high + 1) } := by
  simp [shiftOut, hdec]

theorem emitUnderflow_outOfBits (b : Bool) (c : RangeCoder)
    (h : (andThen (if c.underflow ≠ 0 then emitDeferred c.decodingP b c.underflow.toNat c
      else (0, c)) shiftOut).2.outOfBits = false) : c.outOfBits = false := by
  have hfirst := andThen_outOfBits _ _ shiftOut_outOfBits h
  split at hfirst
  · exact emitDeferred_outOfBits _ _ _ _ hfirst
  · exact hfirst

theorem emitStableBit_outOfBits (c : RangeCoder)
    (h : (emitStableBit c).2.outOfBits = false) : c.outOfBits = false := by
  have hfirst := andThen_outOfBits _ _ (emitUnderflow_outOfBits _) h
  split at hfirst
  · exact hfirst
  · exact rangeEmitbit_outOfBits _ _ hfirst

theorem Encoding.appended {c c' : RangeCoder} {bits : List Bool} (hc : Encoding c)
    (h : Appended c bits c') : Encoding c' := by
  obtain ⟨h1, h2, h3, h4, -⟩ := hc
  rw [h.same]
  exact ⟨h1, h2, h3, h4, h.ok.update rfl (congrArg RangeCoder.bitStreamLength h.same).symm rfl⟩

theorem emitStableBit_phase (c : RangeCoder) (hc : Encoding c)
    (hroom : (emitStableBit c).2.outOfBits = false) :
    (emitStableBit c).1 = 0 ∧ Encoding (emitStableBit c).2 ∧
      phase (emitStableBit c).2 = shift 30 (phase c) := by
  have hfirst := andThen_outOfBits _ _ (emitUnderflow_outOfBits _) hroom
  unfold emitStableBit at hroom ⊢
  rw [hc.encodes] at hfirst
  simp only [hc.encodes, Bool.false_eq_true, if_false] at hfirst hroom ⊢
  obtain ⟨hret, happ⟩ := rangeEmitbit_appended c _ hc.stream hfirst
  rw [andThen_zero _ _ hret] at hroom ⊢
  obtain ⟨c', happ', hout⟩ := emitUnderflow_appended _ _ (hc.appended happ) hroom
  rw [hout]
  have hc' : c' = { c with
      underflow := c'.underflow, bitStream := c'.bitStream, bitsUsed := c'.bitsUsed } := by
    rw [happ'.same, happ.same]
  have hdec : c'.decodingP = false := by
    rw [hc']
    exact hc.encodes
  obtain ⟨hzero, hstate⟩ := shiftOut_phase c' hdec
  have hunder : (rangeEmitbit c (decide (0x80000000 ≤ c.low))).2.underflow = c.underflow := by
    rw [happ.same]
  have hemit : emitted c' = emitted c ++ decide (0x80000000 ≤ c.low) ::
      List.replicate c.underflow.toNat (!decide (0x80000000 ≤ c.low)) := by
    rw [happ'.emitted_eq, hunder]
    change emitted (rangeEmitbit c (decide (0x80000000 ≤ c.low))).2 ++ _ = _
    rw [happ.emitted_eq, List.append_assoc, List.singleton_append]
  refine ⟨hzero, ?_, ?_⟩
  · rw [hstate]
    refine ⟨hdec, ?_, ?_, Int.le_refl 0, happ'.ok.update rfl rfl rfl⟩
    · change c'.norescale = false
      rw [hc']
      exact hc.rescales
    · change c'.errors = 0
      rw [hc']
      exact hc.errorless
  · rw [hstate]
    change Phase.mk (u32 (2 * c'.low)) (u32 (2 * c'.high + 1)) 0 (emitted c') = _
    have hlow : c'.low = c.low := by rw [hc']
    have hhigh : c'.high = c.high := by rw [hc']
    rw [hemit, hlow, hhigh]
    rfl

/-- Deferring a bit, in the encoder. -/
theorem rescaleBit_phase (c : RangeCoder) (hc : Encoding c) (hs : Straddles 30 (phase c)) :
    ∃ c', rescaleBit c = some c' ∧ Encoding c' ∧ phase c' = defer 30 (phase c) ∧
      c'.outOfBits = c.outOfBits := by
  obtain ⟨⟨h1, h2⟩, h3, h4⟩ := (straddles_iff 30 (phase c)).mp hs
  simp only [phase] at h1 h2 h3 h4
  have hlow : u32 (2 * c.low) % 0x80000000 = 2 * c.low % (2 * 2 ^ 30) := by
    unfold u32
    omega
  have hhigh : 0x80000000 + u32 (2 * c.high + 1) % 0x80000000 =
      2 * 2 ^ 30 + (2 * c.high + 1) % (2 * 2 ^ 30) := by
    unfold u32
    omega
  have hlt : ¬ 2 * c.low % (2 * 2 ^ 30) ≥ 2 * 2 ^ 30 + (2 * c.high + 1) % (2 * 2 ^ 30) := by omega
  have hstep : rescaleBit c = some { c with
      underflow := c.underflow + 1
      low := 2 * c.low % (2 * 2 ^ 30)
      high := 2 * 2 ^ 30 + (2 * c.high + 1) % (2 * 2 ^ 30) } := by
    unfold rescaleBit
    rw [hlow, hhigh, if_neg hlt]
    simp [hc.encodes]
  have hdef := hc.deferred
  refine ⟨_, hstep, ⟨hc.encodes, hc.rescales, hc.errorless, ?_,
    hc.stream.update rfl rfl rfl⟩, ?_, rfl⟩
  · change 0 ≤ c.underflow + 1
    omega
  · have hpending : (c.underflow + 1).toNat = c.underflow.toNat + 1 := by omega
    simp only [phase, defer, hpending, emitted]

theorem rescaleLoop_phase (fuel : ℕ) (c : RangeCoder) (hc : Encoding c) :
    Encoding (rescaleLoop fuel c) ∧ phase (rescaleLoop fuel c) = deferAll 30 fuel (phase c) ∧
      (rescaleLoop fuel c).outOfBits = c.outOfBits := by
  induction fuel generalizing c with
  | zero => exact ⟨hc, rfl, rfl⟩
  | succ fuel ih =>
    unfold rescaleLoop deferAll
    by_cases hs : Straddles 30 (phase c)
    · obtain ⟨c', hstep, hc', hphase, hflag⟩ := rescaleBit_phase c hc hs
      have hcond : c.low / 0x40000000 = 1 ∧ c.high / 0x40000000 = 2 := hs
      rw [if_pos hcond, if_pos hs, hstep, ← hphase, ← hflag]
      exact ih c' hc'
    · have hcond : ¬ (c.low / 0x40000000 = 1 ∧ c.high / 0x40000000 = 2) := hs
      rw [if_neg hcond, if_neg hs]
      exact ⟨hc, rfl, rfl⟩

theorem stableLoop_outOfBits (fuel : ℕ) (c : RangeCoder)
    (h : (stableLoop fuel c).2.outOfBits = false) : c.outOfBits = false := by
  induction fuel generalizing c with
  | zero => exact h
  | succ fuel ih =>
    unfold stableLoop at h
    split at h
    · exact emitStableBit_outOfBits c (andThen_outOfBits _ _ ih h)
    · exact h

theorem stableLoop_phase (fuel : ℕ) (c : RangeCoder) (hc : Encoding c)
    (hroom : (stableLoop fuel c).2.outOfBits = false) :
    (stableLoop fuel c).1 = 0 ∧ Encoding (stableLoop fuel c).2 ∧
      phase (stableLoop fuel c).2 = settle 30 fuel (phase c) := by
  induction fuel generalizing c with
  | zero => exact ⟨rfl, hc, rfl⟩
  | succ fuel ih =>
    unfold stableLoop at hroom ⊢
    unfold settle
    by_cases hs : Settled 30 (phase c)
    · have hcond : c.low / 0x80000000 = c.high / 0x80000000 := hs
      rw [if_pos hcond] at hroom ⊢
      rw [if_pos hs]
      obtain ⟨hret, hc', hphase⟩ := emitStableBit_phase c hc
        (andThen_outOfBits _ _ (stableLoop_outOfBits fuel) hroom)
      rw [andThen_zero _ _ hret] at hroom ⊢
      rw [← hphase]
      exact ih _ hc' hroom
    · have hcond : ¬ c.low / 0x80000000 = c.high / 0x80000000 := hs
      rw [if_neg hcond, if_neg hs]
      exact ⟨rfl, hc, rfl⟩

theorem rescaleBit_outOfBits (c c' : RangeCoder) (h : rescaleBit c = some c') :
    c'.outOfBits = c.outOfBits := by
  unfold rescaleBit rangeDecodeGetnextbit at h
  simp only at h
  split at h
  · simp at h
  · split at h
    · split at h <;> simp only [Option.some.injEq] at h <;> rw [← h]
    · simp only [Option.some.injEq] at h
      rw [← h]

theorem rescaleLoop_outOfBits (fuel : ℕ) (c : RangeCoder) :
    (rescaleLoop fuel c).outOfBits = c.outOfBits := by
  induction fuel generalizing c with
  | zero => rfl
  | succ fuel ih =>
    unfold rescaleLoop
    split
    · cases hstep : rescaleBit c with
      | some c' =>
        rw [ih, rescaleBit_outOfBits c c' hstep]
      | none =>
        rfl
    · rfl

theorem rangeEmitStableBits_outOfBits (c : RangeCoder)
    (h : (rangeEmitStableBits c).2.outOfBits = false) : c.outOfBits = false := by
  apply stableLoop_outOfBits 32
  apply andThen_outOfBits _ _ _ h
  intro c' h'
  simp only at h'
  split at h'
  · exact h'
  · rw [rangeRescale, rescaleLoop_outOfBits] at h'
    exact h'

/-- Emitting the stable bits normalises the phase. -/
theorem rangeEmitStableBits_phase (c : RangeCoder) (hc : Encoding c)
    (hroom : (rangeEmitStableBits c).2.outOfBits = false) :
    (rangeEmitStableBits c).1 = 0 ∧ Encoding (rangeEmitStableBits c).2 ∧
      phase (rangeEmitStableBits c).2 = normalise 30 (phase c) := by
  have hfirst : (stableLoop 32 c).2.outOfBits = false := by
    apply andThen_outOfBits _ _ _ hroom
    intro c' h'
    simp only at h'
    split at h'
    · exact h'
    · rw [rangeRescale, rescaleLoop_outOfBits] at h'
      exact h'
  obtain ⟨hret, hc', hphase⟩ := stableLoop_phase 32 c hc hfirst
  have hunfold : rangeEmitStableBits c = (0, rangeRescale (stableLoop 32 c).2) := by
    rw [rangeEmitStableBits, andThen_zero _ _ hret, hc'.rescales]
    rfl
  obtain ⟨hc'', hphase', -⟩ := rescaleLoop_phase 32 _ hc'
  rw [hunfold]
  refine ⟨rfl, hc'', ?_⟩
  rw [rangeRescale, hphase', hphase]
  rfl

/-- The infinite stream a decoder reads: zeros once all bits are used. -/
def decoderStream (stream : List UInt8) (length : ℕ) (i : ℕ) : Bool :=
  if length ≤ i then false else streamBit stream i

theorem rangeDecodeGetnextbit_eq (c : RangeCoder) :
    rangeDecodeGetnextbit c =
      (decoderStream c.bitStream c.bitStreamLength c.bitsUsed,
        { c with bitsUsed := c.bitsUsed + 1 }) := by
  unfold rangeDecodeGetnextbit decoderStream
  split <;> rfl

/-- A decoder that has copied the shifts of a phase and holds the register
of its own stream. -/
structure Tracks (s : ℕ → Bool) (p : Phase) (d : RangeCoder) : Prop where
  stream : decoderStream d.bitStream d.bitStreamLength = s
  low : d.low = p.low
  high : d.high = p.high
  underflow : d.underflow = p.pending
  value : d.value = register s 30 p.out.length p.pending
  used : d.bitsUsed = p.out.length + p.pending + 32
  rescales : d.norescale = false

theorem Tracks.decodingP {s : ℕ → Bool} {p : Phase} {d : RangeCoder} (h : Tracks s p d)
    (b : Bool) : Tracks s p { d with decodingP := b } :=
  ⟨h.stream, h.low, h.high, h.underflow, h.value, h.used, h.rescales⟩

theorem Tracks.narrow {s : ℕ → Bool} {p : Phase} {d : RangeCoder} (h : Tracks s p d)
    (low high : ℕ) :
    Tracks s { p with low := low, high := high } { d with low := low, high := high } :=
  ⟨h.stream, rfl, rfl, h.underflow, h.value, h.used, h.rescales⟩

theorem emitDeferred_quiet (quiet b : Bool) (n : ℕ) (c : RangeCoder) (hq : quiet = true) :
    emitDeferred quiet b n c = (0, { c with underflow := c.underflow - n - 1 }) := by
  subst quiet
  induction n generalizing c with
  | zero => simp [emitDeferred]
  | succ n ih =>
    have hunfold : emitDeferred true b (n + 1) c =
        emitDeferred true b n { c with underflow := c.underflow - 1 } := andThen_zero _ _ rfl
    rw [hunfold, ih]
    simp only [Prod.mk.injEq, RangeCoder.mk.injEq, true_and, and_true, Nat.cast_add, Nat.cast_one]
    omega

theorem emitStableBit_tracks (s : ℕ → Bool) (p : Phase) (d : RangeCoder)
    (hd : d.decodingP = true) (ht : Tracks s p d) :
    (emitStableBit d).1 = 0 ∧ (emitStableBit d).2.decodingP = true ∧
      Tracks s (shift 30 p) (emitStableBit d).2 := by
  have hrest : ∃ u, emitStableBit d = shiftOut { d with underflow := u } := by
    unfold emitStableBit
    dsimp only
    rw [if_pos hd, andThen_zero _ _ rfl]
    by_cases hu : d.underflow ≠ 0
    · rw [if_pos hu, emitDeferred_quiet _ _ _ _ hd, andThen_zero _ _ rfl]
      exact ⟨_, rfl⟩
    · rw [if_neg hu, andThen_zero _ _ rfl]
      exact ⟨d.underflow, rfl⟩
  obtain ⟨u, hu⟩ := hrest
  have hlen : (shift 30 p).out.length = p.out.length + 1 + p.pending := by
    simp only [shift, List.length_append, List.length_cons, List.length_replicate]
    omega
  have hshift := register_shift s 30 p.out.length p.pending
  have hstate : emitStableBit d = (0, { d with
      underflow := 0
      low := u32 (2 * d.low)
      high := u32 (2 * d.high + 1)
      bitsUsed := d.bitsUsed + 1
      value := u32 (2 * d.value + (s d.bitsUsed).toNat) }) := by
    rw [hu]
    unfold shiftOut
    simp only [hd, if_true, rangeDecodeGetnextbit_eq, ht.stream]
  rw [hstate]
  refine ⟨rfl, hd, ht.stream, ?_, ?_, rfl, ?_, ?_, ht.rescales⟩
  · change u32 (2 * d.low) = 2 * p.low % (4 * 2 ^ 30)
    rw [ht.low]
    rfl
  · change u32 (2 * d.high + 1) = (2 * p.high + 1) % (4 * 2 ^ 30)
    rw [ht.high]
    rfl
  · change u32 (2 * d.value + (s d.bitsUsed).toNat) = register s 30 (shift 30 p).out.length 0
    rw [hlen, hshift, ht.value, ht.used]
    rfl
  · change d.bitsUsed + 1 = (shift 30 p).out.length + 0 + 32
    rw [hlen, ht.used]
    omega

theorem rescaleBit_tracks (s : ℕ → Bool) (p : Phase) (d : RangeCoder)
    (hd : d.decodingP = true) (ht : Tracks s p d) (hs : Straddles 30 p) :
    ∃ d', rescaleBit d = some d' ∧ d'.decodingP = true ∧ Tracks s (defer 30 p) d' := by
  obtain ⟨⟨h1, h2⟩, h3, h4⟩ := (straddles_iff 30 p).mp hs
  rw [← ht.low] at h1 h2
  rw [← ht.high] at h3 h4
  have hlt : ¬ u32 (2 * d.low) % 0x80000000 ≥
      0x80000000 + u32 (2 * d.high + 1) % 0x80000000 := by omega
  have htop := register_top s 30 p.out.length p.pending
  have hreg := register_lt s 30 p.out.length p.pending
  rw [← ht.value] at htop hreg
  have hdiv : d.value / 0x80000000 = (s p.out.length).toNat := by
    cases hbit : s p.out.length with
    | false =>
      rw [hbit] at htop
      simp only [Bool.false_eq_true, iff_false] at htop
      simp only [Bool.toNat_false]
      omega
    | true =>
      have hbig := htop.mpr hbit
      simp only [Bool.toNat_true]
      omega
  have hstep : rescaleBit d = some { d with
      underflow := d.underflow + 1
      bitsUsed := d.bitsUsed + 1
      value := d.value / 0x80000000 * 0x80000000 +
        (2 * d.value + (s d.bitsUsed).toNat) % 0x80000000
      low := u32 (2 * d.low) % 0x80000000
      high := 0x80000000 + u32 (2 * d.high + 1) % 0x80000000 } := by
    unfold rescaleBit
    rw [if_neg hlt]
    simp only [hd, if_true, rangeDecodeGetnextbit_eq, ht.stream]
  refine ⟨_, hstep, hd, ht.stream, ?_, ?_, ?_, ?_, ?_, ht.rescales⟩
  · change u32 (2 * d.low) % 0x80000000 = 2 * p.low % (2 * 2 ^ 30)
    rw [← ht.low]
    unfold u32
    omega
  · change 0x80000000 + u32 (2 * d.high + 1) % 0x80000000 =
      2 * 2 ^ 30 + (2 * p.high + 1) % (2 * 2 ^ 30)
    rw [← ht.high]
    unfold u32
    omega
  · change d.underflow + 1 = ((p.pending + 1 : ℕ) : ℤ)
    rw [ht.underflow]
    rfl
  · change d.value / 0x80000000 * 0x80000000 + (2 * d.value + (s d.bitsUsed).toNat) % 0x80000000 =
      register s 30 p.out.length (p.pending + 1)
    rw [register_defer, ← ht.value, hdiv, ht.used]
    rfl
  · change d.bitsUsed + 1 = p.out.length + (p.pending + 1) + 32
    rw [ht.used]
    omega

theorem rescaleLoop_tracks (fuel : ℕ) (s : ℕ → Bool) (p : Phase) (d : RangeCoder)
    (hd : d.decodingP = true) (ht : Tracks s p d) :
    (rescaleLoop fuel d).decodingP = true ∧
    Tracks s (deferAll 30 fuel p) (rescaleLoop fuel d) := by
  induction fuel generalizing p d with
  | zero => exact ⟨hd, ht⟩
  | succ fuel ih =>
    have hiff : (d.low / 0x40000000 = 1 ∧ d.high / 0x40000000 = 2) ↔ Straddles 30 p := by
      rw [ht.low, ht.high]
      rfl
    unfold rescaleLoop deferAll
    by_cases hs : Straddles 30 p
    · obtain ⟨d', hstep, hd', ht'⟩ := rescaleBit_tracks s p d hd ht hs
      rw [if_pos (hiff.mpr hs), if_pos hs, hstep]
      exact ih _ d' hd' ht'
    · rw [if_neg (fun h => hs (hiff.mp h)), if_neg hs]
      exact ⟨hd, ht⟩

theorem stableLoop_tracks (fuel : ℕ) (s : ℕ → Bool) (p : Phase) (d : RangeCoder)
    (hd : d.decodingP = true) (ht : Tracks s p d) :
    (stableLoop fuel d).1 = 0 ∧ (stableLoop fuel d).2.decodingP = true ∧
      Tracks s (settle 30 fuel p) (stableLoop fuel d).2 := by
  induction fuel generalizing p d with
  | zero => exact ⟨rfl, hd, ht⟩
  | succ fuel ih =>
    have hiff : d.low / 0x80000000 = d.high / 0x80000000 ↔ Settled 30 p := by
      rw [ht.low, ht.high]
      rfl
    unfold stableLoop settle
    by_cases hs : Settled 30 p
    · obtain ⟨hret, hd', ht'⟩ := emitStableBit_tracks s p d hd ht
      rw [if_pos (hiff.mpr hs), if_pos hs, andThen_zero _ _ hret]
      exact ih _ _ hd' ht'
    · rw [if_neg (fun h => hs (hiff.mp h)), if_neg hs]
      exact ⟨rfl, hd, ht⟩

/-- The decoder normalises as the encoder does. -/
theorem rangeEmitStableBits_tracks (s : ℕ → Bool) (p : Phase) (d : RangeCoder)
    (hd : d.decodingP = true) (ht : Tracks s p d) :
    Tracks s (normalise 30 p) (rangeEmitStableBits d).2 := by
  obtain ⟨hret, hd', ht'⟩ := stableLoop_tracks 32 s p d hd ht
  have hunfold : rangeEmitStableBits d = (0, rangeRescale (stableLoop 32 d).2) := by
    rw [rangeEmitStableBits, andThen_zero _ _ hret, ht'.rescales]
    rfl
  rw [hunfold]
  exact (rescaleLoop_tracks 32 s _ _ hd' ht').2

end Succinct.RangePhases
