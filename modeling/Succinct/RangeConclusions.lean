import Succinct.RangeCodecs
import Succinct.RangeRoom

/-!
The bits that end a message. range_conclude may be called once more than needed,
as stats3_compress does: the second call goes on from the ends that the first one
left. What a decoder reads is the bits that had room in the buffer, and 0s.
-/
namespace Succinct.RangeConclusions

open Arithmetic BitWords IntervalCoding RangePhases RangeLossless RangeMessages RangeCodecs
  RangeRoom

def tailLow (low : ℕ) : ℕ := u32 (2 * low) % 0x80000000

def tailHigh (high : ℕ) : ℕ := 0x80000000 + u32 (2 * high + 1) % 0x80000000

def middle (low high : ℕ) : ℕ := u32 (u32 (0x100000000 + high - low) / 2 + low)

def tailBits (low high : ℕ) : List Bool :=
  match concludeBits low high (middle low high) 31 0 with
  | none => []
  | some bits =>
    topBits (if bits = 0 then 0xffffffff
      else middle low high / 2 ^ (32 - bits) * 2 ^ (32 - bits) + 0xffffffff / 2 ^ bits) bits

def concludingBits (low high pending : ℕ) : List Bool :=
  [decide (0x80000000 ≤ middle low high)] ++
    List.replicate pending (!decide (0x80000000 ≤ middle low high)) ++
    tailBits (tailLow low) (tailHigh high)

def concludedOnce (p : Phase) : List Bool := p.out ++ concludingBits p.low p.high p.pending

/-- The bits after a second call: no bit is deferred then. -/
def concludedTwice (p : Phase) : List Bool :=
  concludedOnce p ++ concludingBits (tailLow p.low) (tailHigh p.high) 0

theorem concludeTail_eq (c : RangeCoder) : concludeTail c =
    emitAll (tailBits (tailLow c.low) (tailHigh c.high))
      { c with low := tailLow c.low, high := tailHigh c.high } := by
  obtain ⟨-, b, hsome, -⟩ := concludeBits_ends (tailLow c.low) (tailHigh c.high)
    (by unfold tailLow u32; omega) (by unfold tailHigh u32; omega)
  rw [tailBits, middle, hsome, concludeTail]
  change (match concludeBits (tailLow c.low) (tailHigh c.high)
    (u32 (u32 (0x100000000 + tailHigh c.high - tailLow c.low) / 2 + tailLow c.low)) 31 0 with
    | none => _
    | some bits => _) = _
  rw [hsome]
  rfl

theorem rangeEmitbit_same (c : RangeCoder) (b : Bool) : (rangeEmitbit c b).2.low = c.low ∧
    (rangeEmitbit c b).2.high = c.high ∧ (rangeEmitbit c b).2.underflow = c.underflow := by
  rw [rangeEmitbit]
  split
  · exact ⟨rfl, rfl, rfl⟩
  · exact ⟨rfl, rfl, rfl⟩

theorem emitAll_same (bits : List Bool) (c : RangeCoder) : (emitAll bits c).2.low = c.low ∧
    (emitAll bits c).2.high = c.high ∧ (emitAll bits c).2.underflow = c.underflow := by
  induction bits generalizing c with
  | nil => exact ⟨rfl, rfl, rfl⟩
  | cons b rest ih =>
    obtain ⟨hlow, hhigh, hunderflow⟩ := rangeEmitbit_same c b
    rw [emitAll, andThen]
    split
    · obtain ⟨hlow', hhigh', hunderflow'⟩ := ih (rangeEmitbit c b).2
      exact ⟨hlow'.trans hlow, hhigh'.trans hhigh, hunderflow'.trans hunderflow⟩
    · exact ⟨hlow, hhigh, hunderflow⟩

theorem emitDeferred_same (b : Bool) (n : ℕ) (c : RangeCoder) :
    (emitDeferred false b n c).2.low = c.low ∧ (emitDeferred false b n c).2.high = c.high ∧
    ((emitDeferred false b n c).1 = 0 →
      (emitDeferred false b n c).2.underflow = c.underflow - n - 1) := by
  induction n generalizing c with
  | zero => exact ⟨rfl, rfl, fun _ => by simp [emitDeferred]⟩
  | succ n ih =>
    obtain ⟨hlow, hhigh, hunderflow⟩ :=
      rangeEmitbit_same { c with underflow := c.underflow - 1 } b
    change (andThen (rangeEmitbit { c with underflow := c.underflow - 1 } b)
      (emitDeferred false b n)).2.low = _ ∧
      (andThen (rangeEmitbit { c with underflow := c.underflow - 1 } b)
        (emitDeferred false b n)).2.high = _ ∧
      ((andThen (rangeEmitbit { c with underflow := c.underflow - 1 } b)
        (emitDeferred false b n)).1 = 0 →
        (andThen (rangeEmitbit { c with underflow := c.underflow - 1 } b)
          (emitDeferred false b n)).2.underflow = _)
    rw [andThen]
    split
    · obtain ⟨hlow', hhigh', hunderflow'⟩ :=
        ih (rangeEmitbit { c with underflow := c.underflow - 1 } b).2
      refine ⟨hlow'.trans hlow, hhigh'.trans hhigh, ?_⟩
      intro hzero
      rw [hunderflow' hzero, hunderflow]
      push_cast
      omega
    · exact ⟨hlow, hhigh, fun hzero => by simp at hzero⟩

theorem andThen_code {r : ℤ × RangeCoder} {rest : RangeCoder → ℤ × RangeCoder}
    (h : (andThen r rest).1 = 0) :
    r.1 = 0 ∧ (rest r.2).1 = 0 ∧ andThen r rest = rest r.2 := by
  rw [andThen] at h ⊢
  by_cases hzero : r.1 = 0
  · rw [if_pos hzero] at h
    exact ⟨hzero, h, if_pos hzero⟩
  · rw [if_neg hzero] at h
    cases h

theorem rangeConclude_eq (c : RangeCoder) : rangeConclude c =
    andThen (rangeEmitbit c (decide (0x80000000 ≤ middle c.low c.high))) fun c' =>
      andThen (emitDeferred false (!decide (0x80000000 ≤ middle c.low c.high))
        c'.underflow.toNat c')
        concludeTail := rfl

/-- Where a coder stands that was concluded. -/
theorem rangeConclude_ends {c : RangeCoder} (h : (rangeConclude c).1 = 0) :
    (rangeConclude c).2.low = tailLow c.low ∧ (rangeConclude c).2.high = tailHigh c.high ∧
      (rangeConclude c).2.underflow = c.underflow - c.underflow.toNat - 1 := by
  rw [rangeConclude_eq] at h ⊢
  generalize decide (0x80000000 ≤ middle c.low c.high) = msb at h ⊢
  obtain ⟨hlow, hhigh, hunderflow⟩ := rangeEmitbit_same c msb
  obtain ⟨-, hrest, hfirst⟩ := andThen_code h
  rw [hfirst]
  generalize rangeEmitbit c msb = first at hlow hhigh hunderflow hrest ⊢
  obtain ⟨hzero, -, hsecond⟩ := andThen_code hrest
  obtain ⟨hlow', hhigh', hunderflow'⟩ := emitDeferred_same (!msb) first.2.underflow.toNat first.2
  have hcount := hunderflow' hzero
  rw [hsecond, concludeTail_eq]
  generalize emitDeferred false (!msb) first.2.underflow.toNat first.2 = second
    at hlow' hhigh' hcount ⊢
  obtain ⟨hlow'', hhigh'', hunderflow''⟩ :=
    emitAll_same (tailBits (tailLow second.2.low) (tailHigh second.2.high))
    { second.2 with low := tailLow second.2.low, high := tailHigh second.2.high }
  refine ⟨?_, ?_, ?_⟩
  · rw [hlow'', hlow', hlow]
  · rw [hhigh'', hhigh', hhigh]
  · rw [hunderflow'', hcount, hunderflow]

section Concluding

variable {limit : ℕ} {bits : List Bool} {c : RangeCoder}

theorem rangeConclude_fills (h : Holds limit bits c) (hroom : bits.length ≤ limit) :
    Fills limit (bits ++ concludingBits c.low c.high c.underflow.toNat) (rangeConclude c) := by
  have hsplit : bits ++ concludingBits c.low c.high c.underflow.toNat =
      bits ++ [decide (0x80000000 ≤ middle c.low c.high)] ++
        List.replicate c.underflow.toNat (!decide (0x80000000 ≤ middle c.low c.high)) ++
        tailBits (tailLow c.low) (tailHigh c.high) := by
    rw [concludingBits, ← List.append_assoc, ← List.append_assoc]
  rw [hsplit, rangeConclude_eq]
  generalize decide (0x80000000 ≤ middle c.low c.high) = msb
  have hbit := rangeEmitbit_fills h hroom msb
  obtain ⟨hlow, hhigh, hunderflow⟩ := rangeEmitbit_same c msb
  generalize rangeEmitbit c msb = first at hbit hlow hhigh hunderflow ⊢
  have hmore : bits ++ [msb] <+: bits ++ [msb] ++ List.replicate c.underflow.toNat (!msb) ++
      tailBits (tailLow c.low) (tailHigh c.high) := by
    rw [List.append_assoc]
    exact List.prefix_append _ _
  refine hbit.andThen hmore ?_
  intro hroom'
  rw [hunderflow]
  have hdeferred := emitDeferred_fills hbit.holds hroom' (!msb) c.underflow.toNat
  obtain ⟨hlow', hhigh', -⟩ := emitDeferred_same (!msb) c.underflow.toNat first.2
  generalize emitDeferred false (!msb) c.underflow.toNat first.2 = second
    at hdeferred hlow' hhigh' ⊢
  refine hdeferred.andThen (List.prefix_append _ _) ?_
  intro hroom''
  rw [concludeTail_eq, hlow'.trans hlow, hhigh'.trans hhigh]
  have hshifted : Holds limit (bits ++ [msb] ++ List.replicate c.underflow.toNat (!msb))
      { second.2 with low := tailLow c.low, high := tailHigh c.high } :=
    hdeferred.holds.update rfl rfl rfl rfl rfl
  exact emitAll_fills hshifted hroom'' _

theorem rangeConclude_full (h : Full c) : Untouched c (rangeConclude c).2 := by
  obtain ⟨hcode, hsame⟩ := rangeEmitbit_full h (decide (0x80000000 ≤ middle c.low c.high))
  rw [rangeConclude_eq, andThen_stopped hcode]
  exact hsame

/-- A coder that may be full already is full after the call. -/
theorem rangeConclude_beyond (h : Holds limit bits c)
    (hfull : limit < bits.length) {more : List Bool}
    (hmore : bits <+: more) : Holds limit more (rangeConclude c).2 :=
  ((rangeConclude_full (h.full hfull)).holds h).extend hfull hmore

end Concluding

section Messages

variable {limit : ℕ} {p : Phase} {c : RangeCoder}

theorem once_extends (p : Phase) : p.out <+: concludedOnce p := List.prefix_append _ _

theorem twice_extends (p : Phase) : concludedOnce p <+: concludedTwice p := List.prefix_append _ _

theorem rangeConclude_once (h : Reaches limit p c) :
    Holds limit (concludedOnce p) (rangeConclude c).2 := by
  by_cases hroom : p.out.length ≤ limit
  · obtain ⟨-, rfl⟩ := h.inside hroom
    exact (rangeConclude_fills h.holds hroom).holds
  · exact rangeConclude_beyond h.holds (by omega) (once_extends p)

theorem rangeConclude_twice (h : Reaches limit p c) :
    Holds limit (concludedTwice p) (rangeConclude (rangeConclude c).2).2 := by
  have honce := rangeConclude_once h
  by_cases hroom : (concludedOnce p).length ≤ limit
  · have hlen := (once_extends p).length_le
    have hroom' : p.out.length ≤ limit := by omega
    obtain ⟨hc, rfl⟩ := h.inside hroom'
    have hzero := (rangeConclude_fills h.holds hroom').code.mpr hroom
    obtain ⟨hlow, hhigh, hunderflow⟩ := rangeConclude_ends hzero
    have hnone : (rangeConclude c).2.underflow.toNat = 0 := by
      have hdeferred := hc.deferred
      omega
    have htwice := (rangeConclude_fills honce hroom).holds
    rw [hlow, hhigh, hnone] at htwice
    exact htwice
  · exact rangeConclude_beyond honce (by omega) (twice_extends p)

def coderAt (p : Phase) (buffer : List UInt8) : RangeCoder :=
  (emitAll p.out { rangeNewCoder buffer
    with low := p.low, high := p.high, underflow := p.pending }).2

theorem coderAt_reaches {p : Phase} {buffer : List UInt8}
    (hroom : p.out.length ≤ 8 * buffer.length) :
    Reaches (8 * buffer.length) p (coderAt p buffer) := by
  obtain ⟨hc, -⟩ := rangeNewCoder_encoding buffer
  have hnew : Holds (8 * buffer.length) [] { rangeNewCoder buffer with
      low := p.low
      high := p.high
      underflow := p.pending } := (rangeNewCoder_reaches buffer).holds.update rfl rfl rfl rfl rfl
  have hholds := (emitAll_fills hnew (Nat.zero_le _) p.out).holds
  rw [List.nil_append] at hholds
  refine ⟨hholds, fun _ => ?_⟩
  have hflag := hholds.flag
  rw [decide_eq_false (by omega)] at hflag
  obtain ⟨-, happ⟩ := emitAll_appended p.out _ hnew.stream hflag
  have hstart : Encoding { rangeNewCoder buffer
    with low := p.low, high := p.high, underflow := p.pending } :=
    ⟨hc.encodes, hc.rescales, hc.errorless, Int.natCast_nonneg _, hnew.stream⟩
  refine ⟨hstart.appended happ, ?_⟩
  have hemitted := hholds.emitted_eq
  rw [List.take_of_length_le hroom] at hemitted
  have hsame := happ.same
  change phase (emitAll p.out _).2 = p
  rw [hsame]
  change Phase.mk p.low p.high (p.pending : ℤ).toNat (emitted (coderAt p buffer)) = p
  change emitted (coderAt p buffer) = p.out at hemitted
  rw [hemitted, Int.toNat_natCast]

/-- Whatever follows the bits of a conclusion, the stream is in the interval. -/
theorem concluded_denotes {p : Phase} (hp : Normal 30 p) {s : ℕ → Bool}
    (hs : Starts (concludedOnce p) s) :
    Denotes 30 p s := by
  let buffer : List UInt8 := List.replicate (concludedOnce p).length 0
  have hlength : buffer.length = (concludedOnce p).length := List.length_replicate
  have hmore := (once_extends p).length_le
  have hreach := @coderAt_reaches p buffer (by omega)
  obtain ⟨hc, hphase⟩ := hreach.inside (by omega)
  have honce := rangeConclude_once hreach
  have hflag := honce.flag
  rw [decide_eq_false (by omega)] at hflag
  have hemitted := honce.emitted_eq
  rw [List.take_of_length_le (by omega)] at hemitted
  rw [← hphase] at hp ⊢
  refine (rangeConclude_denotes _ hc hp hflag s ?_).2
  rw [hemitted]
  exact hs

/-- The bits that have room, and then 0s. -/
def kept (limit : ℕ) (bits : List Bool) (i : ℕ) : Bool := (bits.take limit).getD i false

/-- A message for which there is room stays in its interval, whatever is kept behind it. -/
theorem denotes_of_room (hp : Normal 30 p)
    (hroom : (concludedOnce p).length ≤ limit) {bits : List Bool}
    (hbits : concludedOnce p <+: bits) : Denotes 30 p (kept limit bits) := by
  refine concluded_denotes hp ?_
  obtain ⟨rest, rfl⟩ := hbits
  intro i hi
  rw [kept, List.take_append, List.take_of_length_le hroom]
  exact List.getD_append _ _ _ _ hi

/-- The whole bytes that a coder has begun, read back: the bits behind the last one are clear. -/
theorem decoderStream_taken {bits : List Bool} (h : Holds limit bits c) (n : ℕ)
    (hn : c.bitsUsed ≤ 8 * n) (hlast : 8 * n < c.bitsUsed + 8) (rest : List UInt8) :
    decoderStream (c.bitStream.take n ++ rest) (8 * n) = kept limit bits := by
  have hused := h.bitsUsed
  have hlength := h.length
  have hbuffer := h.stream.room
  have htaken : (c.bitStream.take n).length = n := List.length_take_of_le (by omega)
  funext i
  rw [decoderStream, kept, ← h.emitted_eq]
  by_cases hpast : 8 * n ≤ i
  · rw [if_pos hpast, List.getD_eq_default _ _ (by rw [length_emitted]; omega)]
  · have hbyte : streamBit (c.bitStream.take n ++ rest) i = streamBit c.bitStream i := by
      have hi : i / 8 < n := by omega
      unfold streamBit
      rw [List.getD_append _ _ _ _ (by omega), List.getD_eq_getElem?_getD,
        List.getElem?_take_of_lt hi, ← List.getD_eq_getElem?_getD]
    rw [if_neg hpast, hbyte]
    by_cases hwritten : i < c.bitsUsed
    · simp [emitted, List.getD_eq_getElem?_getD, hwritten]
    · rw [List.getD_eq_default _ _ (by rw [length_emitted]; omega)]
      exact h.stream.clear (by omega) i (by omega) (by omega)

end Messages

section Decoding

variable {α : Type} {steps : List Step} {decode : Decoder α} {x : α}

/-- A decoder that undoes the symbols does so on every stream in their interval. -/
theorem decoded_of_denotes (h : Codes steps decode x) (hvalid : ∀ step ∈ steps, step.Valid)
    (stream : List UInt8)
    (length : ℕ) (hs : Denotes 30 (interval fresh steps) (decoderStream stream length)) :
    (decode.run (rangeDecodePrefetch (decoderOn stream length))).1 = x := by
  -- a buffer that is large enough for the symbols
  let buffer : List UInt8 := List.replicate (interval fresh steps).out.length 0
  obtain ⟨hreach, -⟩ := (rangeNewCoder_reaches buffer).encodeSteps hvalid fresh_normal
  have hlen : buffer.length = (interval fresh steps).out.length := List.length_replicate
  have hroom : (interval fresh steps).out.length ≤ 8 * buffer.length := by omega
  have hflag := hreach.holds.flag
  rw [decide_eq_false (by omega)] at hflag
  obtain ⟨hc, hphase⟩ := rangeNewCoder_encoding buffer
  have hp : Normal 30 (phase (rangeNewCoder buffer)) := by
    rw [hphase]
    exact fresh_normal
  obtain ⟨-, -, hback⟩ := h _ hc hp hflag
  rw [(hreach.inside hroom).2] at hback
  refine ((hback _ hs).2 _ ?_).1
  rw [hphase]
  exact rangeDecodePrefetch_tracks stream length

end Decoding

end Succinct.RangeConclusions
