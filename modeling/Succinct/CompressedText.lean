import Succinct.RangeReadings
import Succinct.TextSymbols

/-!
stats3_compress and stats3_decompress of forms/smac.c, the text compressor on
buffers of its own. The coder gets twice as many bytes as the text has, which
need not be enough; what range_encode and range_conclude return is dropped. A
buffer holds at first whatever malloc left there.

Left out: the entropy log and the totals of the stats handle.
-/
namespace Succinct.CompressedText

open Arithmetic IntervalCoding RangePhases RangeMessages RangeCodecs RangeRoom RangeConclusions
  RangeReadings TextModels TextRoundTrip TextSymbols

def stats3CompressBits (h : Stats) (c : RangeCoder) (m : List UInt8) (len : ℕ) : ℤ × RangeCoder :=
  let r := stats3CompressAppend h m len
  let c := encodeSteps r.2 c
  if r.1 ≠ 0 then (-1, c) else (0, (rangeConclude c).2)

structure Compressed where
  out : List UInt8
  outlen : ℕ
  deriving DecidableEq

def bytesUsed (bitsUsed : ℕ) : ℕ := bitsUsed / 8 + if bitsUsed % 8 ≠ 0 then 1 else 0

/-- None where it returns -1. -/
def stats3Compress (h : Stats) (malloc : ℕ → UInt8) (m : List UInt8) (inlen : ℕ) :
    Option Compressed :=
  let r := stats3CompressBits h (rangeNewCoder ((List.range (inlen * 2)).map malloc)) m inlen
  if r.1 ≠ 0 then none
  else
    let c := (rangeConclude r.2).2
    some ⟨c.bitStream.take (bytesUsed c.bitsUsed), bytesUsed c.bitsUsed⟩

def decompressCoder (malloc : ℕ → UInt8) (m : List UInt8) (inlen : ℕ) : RangeCoder :=
  let bitStream := m.take inlen ++ ((List.range (inlen * 2)).map malloc).drop inlen
  rangeDecodePrefetch (decoderOn bitStream (inlen * 8))

/-- None where the source exits. -/
def stats3Decompress (h : Stats) (malloc : ℕ → UInt8) (m : List UInt8)
    (inlen : ℕ) : Option Text :=
  ((stats3DecompressBits h).run (decompressCoder malloc m inlen)).1

theorem bytesUsed_spec (bits : ℕ) : bits ≤ 8 * bytesUsed bits ∧
    8 * bytesUsed bits < bits + 8 := by
  unfold bytesUsed
  split <;> omega

def textInterval (h : Stats) (m : List UInt8) : Phase :=
  interval fresh (stats3CompressAppend h m m.length).2

/-- The bits that find room, with 0s behind them, still lie in the interval of the text. -/
def Lands (h : Stats) (m : List UInt8) : Prop :=
  Denotes 30 (textInterval h m) (kept (16 * m.length) (concludedTwice (textInterval h m)))

/-- The decoder gets the bits that found room, and then 0s. -/
theorem decompressCoder_eq (malloc : ℕ → UInt8) {limit : ℕ} {bits : List Bool} {c : RangeCoder}
    (hc : Holds limit bits c) :
    ∃ stream, decoderStream stream (bytesUsed c.bitsUsed * 8) = kept limit bits ∧
      decompressCoder malloc (c.bitStream.take (bytesUsed c.bitsUsed)) (bytesUsed c.bitsUsed) =
        rangeDecodePrefetch (decoderOn stream (bytesUsed c.bitsUsed * 8)) := by
  obtain ⟨hfirst, hlast⟩ := bytesUsed_spec c.bitsUsed
  have hbits := decoderStream_taken hc (bytesUsed c.bitsUsed) hfirst hlast
    (((List.range (bytesUsed c.bitsUsed * 2)).map malloc).drop (bytesUsed c.bitsUsed))
  rw [Nat.mul_comm 8] at hbits
  refine ⟨_, hbits, ?_⟩
  rw [decompressCoder, List.take_take, Nat.min_self]

section Messages

variable {h : Stats} (hh : Stats.Valid h) {m : List UInt8} (hm : Ascii m) (hlen : m.length ≤ 1023)
  (malloc malloc' : ℕ → UInt8)

include hh hm hlen

theorem compressAppend_reaches :
    Reaches (16 * m.length) (textInterval h m)
      (encodeSteps (stats3CompressAppend h m m.length).2
        (rangeNewCoder ((List.range (m.length * 2)).map malloc))) ∧
    Normal 30 (textInterval h m) := by
  have hvalid := (append_valid (hm.encodable hh hlen)).2
  have hfresh := rangeNewCoder_reaches ((List.range (m.length * 2)).map malloc)
  have hbits : 8 * ((List.range (m.length * 2)).map malloc).length = 16 * m.length := by
    rw [List.length_map, List.length_range]
    omega
  rw [hbits] at hfresh
  exact hfresh.encodeSteps hvalid fresh_normal

/-- The coder is concluded once by stats3_compress_bits. -/
theorem stats3CompressBits_holds : Holds (16 * m.length) (concludedOnce (textInterval h m))
    (stats3CompressBits h (rangeNewCoder ((List.range (m.length * 2)).map malloc))
      m m.length).2 := by
  have hzero := (append_valid (hm.encodable hh hlen)).1
  rw [stats3CompressBits]
  simp only [hzero, ne_eq, not_true_eq_false, if_false]
  exact rangeConclude_once (compressAppend_reaches hh hm hlen malloc).1

/-- No text is refused; the coder that its bytes are copied from was concluded twice. -/
theorem stats3Compress_spec : ∃ c, Holds (16 * m.length) (concludedTwice (textInterval h m)) c ∧
    stats3Compress h malloc m m.length =
      some ⟨c.bitStream.take (bytesUsed c.bitsUsed), bytesUsed c.bitsUsed⟩ := by
  have hzero := (append_valid (hm.encodable hh hlen)).1
  refine ⟨_, rangeConclude_twice (compressAppend_reaches hh hm hlen malloc).1, ?_⟩
  rw [stats3Compress, stats3CompressBits]
  simp only [hzero, ne_eq, not_true_eq_false, if_false]

theorem lands_of_room (hroom : (concludedOnce (textInterval h m)).length ≤ 16 * m.length) :
    Lands h m := by
  obtain ⟨-, hp⟩ := compressAppend_reaches hh hm hlen fun _ => 0
  exact denotes_of_room hp hroom (twice_extends _)

/-- The text comes back where its bits land in its interval. Elsewhere the coder ran out of bits
and 0 was returned all the same, and the symbols of the text are not read back. -/
theorem text_returns :
    (Lands h m → ∀ r, stats3Compress h malloc m m.length = some r →
      stats3Decompress h malloc' r.out r.outlen = some ⟨m, m.length⟩) ∧
    (¬ Lands h m → ∃ r, stats3Compress h malloc m m.length = some r ∧ r.outlen = 2 * m.length ∧
      (stats3CompressBits h (rangeNewCoder ((List.range (m.length * 2)).map malloc)) m
        m.length).2.outOfBits = true ∧
      decodeSteps (stats3CompressAppend h m m.length).2 (decompressCoder malloc' r.out r.outlen) ≠
        (stats3CompressAppend h m m.length).2.map fun step => (step.value : ℤ)) := by
  obtain ⟨c, hholds, hr⟩ := stats3Compress_spec hh hm hlen malloc
  obtain ⟨stream, hstream, hcoder⟩ := decompressCoder_eq malloc' hholds
  have hvalid := (append_valid (hm.encodable hh hlen)).2
  constructor
  · intro hlands r hsome
    rw [hr] at hsome
    obtain rfl := Option.some.inj hsome
    rw [stats3Decompress, hcoder]
    refine decoded_of_denotes (append_codes (hm.encodable hh hlen)) hvalid stream _ ?_
    rw [hstream]
    exact hlands
  · intro hnot
    have hfull : 16 * m.length < (concludedOnce (textInterval h m)).length :=
      Nat.lt_of_not_le fun hroom => hnot (lands_of_room hh hm hlen hroom)
    have hused := hholds.bitsUsed
    have hmore := (twice_extends (textInterval h m)).length_le
    refine ⟨_, hr, ?_, ?_, ?_⟩
    · have hbytes := bytesUsed_spec c.bitsUsed
      change bytesUsed c.bitsUsed = 2 * m.length
      omega
    · rw [(stats3CompressBits_holds hh hm hlen malloc).flag, decide_eq_true hfull]
    · change decodeSteps _ (decompressCoder malloc' (c.bitStream.take (bytesUsed c.bitsUsed))
        (bytesUsed c.bitsUsed)) ≠ _
      rw [hcoder, ne_eq, decodeSteps_iff hvalid, hstream]
      exact hnot

omit hh hm hlen in
/-- Two letters under equal shares just fit. -/
theorem text_returns_two : stats3Decompress evenStats (fun _ => 0) [131, 81, 143, 182] 4 =
    some ⟨[101, 101], 2⟩ := by
  have hascii : Ascii [101, 101] := by
    unfold Ascii
    decide +kernel
  have hlength : ([101, 101] : List UInt8).length = 2 := rfl
  have hlands := lands_of_room evenStats_valid hascii (by decide) (by decide +kernel)
  have hreturns :=
    (text_returns evenStats_valid hascii (by decide) (fun _ => 0) fun _ => 0).1 hlands
  rw [hlength] at hreturns
  exact hreturns ⟨[131, 81, 143, 182], 4⟩ (by decide +kernel)

omit hh hm hlen in
/-- One letter takes twenty-two bits, of which sixteen are kept; no text is read from these. -/
theorem single_letter_lost : Stats.Valid evenStats ∧ Ascii [65] ∧
    stats3Compress evenStats (fun _ => 0) [65] 1 = some ⟨[131, 66], 2⟩ ∧
    stats3Decompress evenStats (fun _ => 0) [131, 66] 2 = some ⟨[], 0⟩ := by
  refine ⟨evenStats_valid, ?_, ?_, ?_⟩
  · unfold Ascii
    decide +kernel
  · decide +kernel
  · decide +kernel

/-- The output has at most as many bytes as the text where its bits, with those of two
conclusions, are at most as many. -/
theorem output_fits_iff (hpos : 1 ≤ m.length) :
    (∀ r, stats3Compress h malloc m m.length = some r → r.outlen ≤ m.length) ↔
      (concludedTwice (textInterval h m)).length ≤ 8 * m.length := by
  obtain ⟨c, hholds, hr⟩ := stats3Compress_spec hh hm hlen malloc
  have hused := hholds.bitsUsed
  have hbytes := bytesUsed_spec c.bitsUsed
  rw [hr]
  constructor
  · intro hall
    have hle := hall _ rfl
    change bytesUsed c.bitsUsed ≤ m.length at hle
    omega
  · intro hle r hsome
    obtain rfl := Option.some.inj hsome
    change bytesUsed c.bitsUsed ≤ m.length
    omega

end Messages

/-- Fourteen blanks under equal shares. -/
theorem output_fits_blanks :
    ∃ r, stats3Compress evenStats (fun _ => 0) (List.replicate 14 32) 14 = some r ∧
    r.outlen ≤ 14 := by
  have hascii : Ascii (List.replicate 14 32) := by
    unfold Ascii
    decide +kernel
  have hfits : (concludedTwice (textInterval evenStats (List.replicate 14 32))).length ≤
    8 * (List.replicate 14 32).length := by
    decide +kernel
  obtain ⟨r, hr⟩ : ∃ r, stats3Compress evenStats (fun _ => 0)
    (List.replicate 14 32) 14 = some r :=
    Option.isSome_iff_exists.mp (by decide +kernel)
  exact ⟨r, hr, (output_fits_iff evenStats_valid hascii (by decide) (fun _ => 0)
    (by decide)).mpr hfits r hr⟩

/-- Three letters become five bytes. -/
theorem letters_outgrow : Stats.Valid evenStats ∧ Ascii [122, 122, 122] ∧
    stats3Compress evenStats (fun _ => 0) [122, 122, 122] 3 =
      some ⟨[131, 99, 250, 67, 85], 5⟩ := by
  refine ⟨evenStats_valid, ?_, ?_⟩
  · unfold Ascii
    decide +kernel
  · decide +kernel

end Succinct.CompressedText
