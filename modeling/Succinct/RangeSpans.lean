import Succinct.RangeReadings

/-!
The interval of a coder between two calls. Whatever shares were encoded or
decoded since the coder was new, the interval holds the middle of all words and
is not confined to the two quarters around it, so that every share of it has a
width and the last bits of a message can be found.
-/
namespace Succinct.RangeSpans

open Arithmetic IntervalCoding RangePhases RangeLossless RangeMessages RangeRoom RangeConclusions
  RangeReadings

inductive EncoderRun : RangeCoder → Prop
  | fresh (buffer : List UInt8) : EncoderRun (rangeNewCoder buffer)
  | encode {c : RangeCoder} {pLow pHigh : ℕ} (h : EncoderRun c) (hlt : pLow < pHigh)
      (hcode : (rangeEncode c pLow pHigh).1 = 0) : EncoderRun (rangeEncode c pLow pHigh).2

/-- A decoder that tried some shares, successfully or not; range_decode_symbol
switches the mode before it does. -/
inductive DecoderRun : RangeCoder → Prop
  | prefetch (stream : List UInt8) (length : ℕ) :
    DecoderRun (rangeDecodePrefetch (decoderOn stream length))
  | switch {d : RangeCoder} (h : DecoderRun d) (b : Bool) : DecoderRun { d with decodingP := b }
  | decode {d : RangeCoder} {pLow pHigh : ℕ} (h : DecoderRun d) (hs : Share pLow pHigh) :
      DecoderRun (rangeDecodeCommon d pLow pHigh).2

structure Sound (c : RangeCoder) : Prop where
  low_half : c.low < 0x80000000
  high_half : 0x80000000 ≤ c.high ∧ c.high < 0x100000000
  quarters : ¬ (0x40000000 ≤ c.low ∧ c.high < 0xc0000000)
  space : 0x20000000 ≤ rangeSpace c
  -- a decoder refuses a share that its value is not in
  shares : ∀ pLow pHigh, Share pLow pHigh → ∃ newLow newHigh,
    c.low ≤ newLow ∧ newLow < newHigh ∧ newHigh ≤ c.high ∧
      rangeCalcNewRange c pLow pHigh =
        (if c.decodingP ∧ (newLow > c.value ∨ newHigh < c.value) then none
          else some (newLow, newHigh), c)
  concludes : concludeBits (tailLow c.low) (tailHigh c.high)
    (middle (tailLow c.low) (tailHigh c.high)) 31 0 ≠ none
  -- the one exit of range_conclude that is left is a full buffer
  exits : (rangeConclude c).1 ≠ 0 → (rangeConclude c).2.outOfBits = true

def Stops (r : ℤ × RangeCoder) : Prop := r.1 ≠ 0 → r.2.outOfBits = true

theorem Stops.andThen {r : ℤ × RangeCoder} {rest : RangeCoder → ℤ × RangeCoder} (h : Stops r)
    (hrest : ∀ c, Stops (rest c)) : Stops (andThen r rest) := by
  rw [Arithmetic.andThen]
  by_cases hfailed : r.1 = 0
  · rw [if_pos hfailed]
    exact hrest r.2
  · rw [if_neg hfailed]
    exact fun _ => h hfailed

theorem rangeEmitbit_stops (c : RangeCoder) (b : Bool) : Stops (rangeEmitbit c b) := by
  rw [rangeEmitbit]
  split
  · exact fun _ => rfl
  · exact fun hno => absurd rfl hno

theorem emitDeferred_stops (b : Bool) (n : ℕ) (c : RangeCoder) :
    Stops (emitDeferred false b n c) := by
  induction n generalizing c with
  | zero => exact fun hno => absurd rfl hno
  | succ n ih => exact (rangeEmitbit_stops _ b).andThen ih

theorem emitAll_stops (bits : List Bool) (c : RangeCoder) : Stops (emitAll bits c) := by
  induction bits generalizing c with
  | nil => exact fun hno => absurd rfl hno
  | cons b rest ih => exact (rangeEmitbit_stops c b).andThen ih

theorem concludeTail_stops (c : RangeCoder) : Stops (concludeTail c) := by
  rw [concludeTail_eq]
  exact emitAll_stops _ _

theorem rangeConclude_stops (c : RangeCoder) : Stops (rangeConclude c) := by
  rw [rangeConclude_eq]
  refine (rangeEmitbit_stops c _).andThen ?_
  intro c'
  exact (emitDeferred_stops _ _ c').andThen concludeTail_stops

/-- A coder at the ends of a normal phase. -/
theorem sound_of_normal {c : RangeCoder} {p : Phase} (hp : Normal 30 p) (hlow : c.low = p.low)
    (hhigh : c.high = p.high) : Sound c := by
  obtain ⟨h1, h2, h3, h4⟩ := hp.ends
  obtain ⟨hspace, -, -⟩ := space_bounds p hp
  refine ⟨by omega, by omega, by omega, ?_, ?_, ?_, rangeConclude_stops c⟩
  · rw [rangeSpace_eq c p hp hlow hhigh]
    omega
  · intro pLow pHigh hs
    obtain ⟨hleft, hwidth, hright⟩ := narrowed_bounds p hp pLow pHigh hs
    refine ⟨(narrowed p pLow pHigh).low,
      (narrowed p pLow pHigh).high, by omega, by omega, by omega, ?_⟩
    rw [rangeCalcNewRange_eq c p hp hlow hhigh pLow pHigh hs]
    split
    · rfl
    · rfl
  · obtain ⟨-, b, hsome, -⟩ := concludeBits_ends (tailLow c.low) (tailHigh c.high)
      (by unfold tailLow u32; omega) (by unfold tailHigh u32; omega)
    rw [middle, hsome]
    exact Option.some_ne_none b

/-- A call that succeeds was for a share. -/
theorem share_of_encoded {c : RangeCoder} {pLow pHigh : ℕ} (hlt : pLow < pHigh)
    (hcode : (rangeEncode c pLow pHigh).1 = 0) : Share pLow pHigh := by
  refine ⟨hlt, ?_⟩
  by_contra hlarge
  have hfails : rangeEncode c pLow pHigh = (-1, c) := by
    unfold rangeEncode MAXVALUEPLUS1 MAXVALUE
    rw [if_neg (by omega), if_pos (by omega)]
  rw [hfails] at hcode
  cases hcode

/-- What an encoder is after a run: at a normal phase, with all its bits in the buffer. -/
structure Settles (c : RangeCoder) : Prop where
  encoding : Encoding c
  normal : Normal 30 (phase c)
  holds : Holds c.bitStreamLength (phase c).out c
  room : (phase c).out.length ≤ c.bitStreamLength

/-- The step lemma: a successful call normalises a share. -/
theorem Settles.encodeShare {c : RangeCoder} (h : Settles c) {share : ℕ × ℕ}
    (hs : Share share.1 share.2)
    (hcode : (rangeEncode c share.1 share.2).1 = 0) : Settles (rangeEncode c share.1 share.2).2 ∧
      phase (rangeEncode c share.1 share.2).2 = advance (phase c) share ∧
      (rangeEncode c share.1 share.2).2.bitStreamLength = c.bitStreamLength := by
  have hfills := rangeEncode_fills h.encoding h.normal h.holds h.room hs
  have hroom := hfills.code.mp hcode
  have hflag := hfills.holds.flag
  rw [decide_eq_false (by omega)] at hflag
  obtain ⟨-, hc, hphase⟩ := rangeEncode_phase c h.encoding h.normal share.1 share.2 hs hflag
  have hphase' : phase (rangeEncode c share.1 share.2).2 = advance (phase c) share := hphase
  have hlength := hfills.holds.length
  refine ⟨⟨hc, ?_, ?_, ?_⟩, hphase', hlength⟩
  · rw [hphase']
    exact advance_normal h.normal hs
  · rw [hphase', hlength]
    exact hfills.holds
  · rw [hphase', hlength]
    exact hroom

theorem Settles.rangeEncode {c : RangeCoder} (h : Settles c) {pLow pHigh : ℕ} (hlt : pLow < pHigh)
    (hcode : (rangeEncode c pLow pHigh).1 = 0) : Settles (rangeEncode c pLow pHigh).2 := by
  have hs : Share (pLow, pHigh).1 (pLow, pHigh).2 := share_of_encoded hlt hcode
  exact (h.encodeShare hs hcode).1

/-- The run lemma of an encoder. -/
theorem EncoderRun.settles {c : RangeCoder} (h : EncoderRun c) : Settles c := by
  induction h with
  | fresh buffer =>
    obtain ⟨hc, hphase⟩ := rangeNewCoder_encoding buffer
    refine ⟨hc, ?_, (rangeNewCoder_reaches buffer).holds, Nat.zero_le _⟩
    rw [hphase]
    exact fresh_normal
  | encode _ hlt hcode ih => exact ih.rangeEncode hlt hcode

/-- The run lemma of a decoder: it follows its own stream. -/
theorem DecoderRun.follows {d : RangeCoder} (h : DecoderRun d) : ∃ s p, Follows s p d := by
  induction h with
  | prefetch stream length =>
    exact ⟨_, fresh, fresh_normal, fresh_denotes _, rangeDecodePrefetch_tracks stream length⟩
  | switch _ b ih =>
    obtain ⟨s, p, hp, hden, ht⟩ := ih
    exact ⟨s, p, hp, hden, ht.decodingP b⟩
  | @decode d pLow pHigh _ hs ih =>
    obtain ⟨s, p, hfollows⟩ := ih
    have hpair : Share (pLow, pHigh).1 (pLow, pHigh).2 := hs
    obtain ⟨haccepted, hrefused⟩ := hfollows.common hpair
    by_cases hcode : (rangeDecodeCommon d pLow pHigh).1 = 0
    · exact ⟨s, _, haccepted hcode⟩
    · exact ⟨s, p, hrefused hcode⟩

/-- The interval never degenerates, whatever was encoded or decoded. -/
theorem interval_sound {c : RangeCoder} (h : EncoderRun c ∨ DecoderRun c) : Sound c := by
  rcases h with hencoder | hdecoder
  · exact sound_of_normal hencoder.settles.normal rfl rfl
  · obtain ⟨s, p, hp, -, ht⟩ := hdecoder.follows
    exact sound_of_normal hp ht.low ht.high

/-- The middle one of three symbols, in a buffer of one byte, and read from that byte. -/
theorem interval_sound_three : Sound (rangeEncode (rangeNewCoder [0]) 0x555555 0xaaaaaa).2 ∧
    Sound (rangeDecodeCommon (rangeDecodePrefetch (decoderOn [0x80] 8)) 0x555555 0xaaaaaa).2 := by
  refine ⟨interval_sound (Or.inl ?_), interval_sound (Or.inr ?_)⟩
  · exact EncoderRun.encode (EncoderRun.fresh [0]) (by decide) (by decide +kernel)
  · exact DecoderRun.decode (DecoderRun.prefetch [0x80] 8) ⟨by decide, by decide⟩

end Succinct.RangeSpans
