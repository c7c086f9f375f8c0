import Mathlib.Data.Nat.Bits
import Mathlib.Tactic.Linarith

/-!
The range coder of forms/arithmetic.c. Unsigned ints are natural numbers
reduced modulo 2^32 where the source lets them wrap; ints are integers. The
return code 0 or -1 of a function comes first, then the coder it leaves. A
failed call keeps the changes it made before it failed, as in the source.

Left out: the debug text, the entropy total (only the comparison that can
make rangeEncode fail is kept) and the diagnostics of range_status. The
message "out of bits" that rangeEmitbit logs is kept as a flag, since some
callers drop its return code.
-/
namespace Succinct.Arithmetic

def MAXVALUE : ℕ := 0xffffff

def MAXVALUEPLUS1 : ℕ := MAXVALUE + 1

structure RangeCoder where
  low : ℕ
  high : ℕ
  value : ℕ
  underflow : ℤ
  errors : ℕ
  decodingP : Bool
  norescale : Bool
  bitStream : List UInt8
  bitStreamLength : ℕ
  bitsUsed : ℕ
  outOfBits : Bool
  deriving DecidableEq, Repr

def u32 (n : ℕ) : ℕ := n % 0x100000000

def ull (z : ℤ) : ℕ := (z % 0x10000000000000000).toNat

def toInt (n : ℕ) : ℤ := if n < 0x80000000 then n else n - 0x100000000

def streamBit (stream : List UInt8) (i : ℕ) : Bool :=
  (stream.getD (i / 8) 0).toNat.testBit (7 - i % 8)

def rangeDecodeGetnextbit (c : RangeCoder) : Bool × RangeCoder :=
  -- 0s are returned once all bits are used
  if c.bitStreamLength ≤ c.bitsUsed then
    (false, { c with bitsUsed := c.bitsUsed + 1 })
  else
    (streamBit c.bitStream c.bitsUsed, { c with bitsUsed := c.bitsUsed + 1 })

def rangeEmitbit (c : RangeCoder) (b : Bool) : ℤ × RangeCoder :=
  if c.bitsUsed ≥ c.bitStreamLength then
    (-1, { c with outOfBits := true })
  else
    let bit := 7 - c.bitsUsed % 8
    let old := if bit = 7 then 0 else c.bitStream.getD (c.bitsUsed / 8) 0
    -- the source clears ~(0 << bit) for a zero bit, which clears nothing
    let new := if b then old ||| (1 <<< bit.toUInt8) else old
    (0, { c with
      bitStream := c.bitStream.set (c.bitsUsed / 8) new
      bitsUsed := c.bitsUsed + 1 })

/-- if (f(c)) return -1; and then the rest of the function. -/
def andThen (r : ℤ × RangeCoder) (rest : RangeCoder → ℤ × RangeCoder) : ℤ × RangeCoder :=
  if r.1 = 0 then rest r.2 else (-1, r.2)

def emitDeferred (quiet b : Bool) : ℕ → RangeCoder → ℤ × RangeCoder
  | 0, c => (0, { c with underflow := c.underflow - 1 })
  | n + 1, c =>
    let c := { c with underflow := c.underflow - 1 }
    andThen (if quiet then (0, c) else rangeEmitbit c b) (emitDeferred quiet b n)

def shiftOut (c : RangeCoder) : ℤ × RangeCoder :=
  let c := { c with
    underflow := 0
    low := u32 (2 * c.low)
    high := u32 (2 * c.high + 1) }
  if c.decodingP then
    let (nextbit, c) := rangeDecodeGetnextbit c
    (0, { c with value := u32 (2 * c.value + nextbit.toNat) })
  else (0, c)

def emitStableBit (c : RangeCoder) : ℤ × RangeCoder :=
  let msb := decide (0x80000000 ≤ c.low)
  andThen (if c.decodingP then (0, c) else rangeEmitbit c msb) fun c =>
    andThen (if c.underflow ≠ 0 then emitDeferred c.decodingP (!msb) c.underflow.toNat c
      else (0, c)) shiftOut

/-- One turn of the loop of range_rescale; none is its "oops" exit. -/
def rescaleBit (c : RangeCoder) : Option RangeCoder :=
  let newLow := u32 (2 * c.low) % 0x80000000
  let newHigh := 0x80000000 + u32 (2 * c.high + 1) % 0x80000000
  let c := { c with underflow := c.underflow + 1 }
  if newLow ≥ newHigh then none
  else if c.decodingP then
    let (nextbit, c) := rangeDecodeGetnextbit c
    some { c with
      value := c.value / 0x80000000 * 0x80000000 + (2 * c.value + nextbit.toNat) % 0x80000000
      low := newLow
      high := newHigh }
  else some { c with low := newLow, high := newHigh }

def rescaleLoop : ℕ → RangeCoder → RangeCoder
  | 0, c => c
  | fuel + 1, c =>
    if c.low / 0x40000000 = 1 ∧ c.high / 0x40000000 = 2 then
      match rescaleBit c with
      | some c => rescaleLoop fuel c
      | none => { c with underflow := c.underflow + 1 }
    else c

/-- Each turn doubles the interval, so 32 turns are enough. -/
def rangeRescale (c : RangeCoder) : RangeCoder := rescaleLoop 32 c

def stableLoop : ℕ → RangeCoder → ℤ × RangeCoder
  | 0, c => (0, c)
  | fuel + 1, c =>
    -- !((low ^ high) & 0x80000000)
    if c.low / 0x80000000 = c.high / 0x80000000 then andThen (emitStableBit c) (stableLoop fuel)
    else (0, c)

def rangeEmitStableBits (c : RangeCoder) : ℤ × RangeCoder :=
  andThen (stableLoop 32 c) fun c => (0, if c.norescale then c else rangeRescale c)

def rangeSpace (c : RangeCoder) : ℕ :=
  u32 (0x100000000 + c.high - c.low) / 256 * 256

def rangeCalcNewRange (c : RangeCoder) (pLow pHigh : ℕ) : Option (ℕ × ℕ) × RangeCoder :=
  let space := rangeSpace c
  if space < MAXVALUEPLUS1 then (none, { c with errors := c.errors + 1 })
  else
    let newLow := u32 (c.low + pLow * space / 0x1000000)
    let newHigh :=
      if pHigh ≥ MAXVALUEPLUS1 then c.high
      else u32 (0xffffffff + c.low + pHigh * space / 0x1000000)
    if c.decodingP ∧ (newLow > c.value ∨ newHigh < c.value) then (none, c)
    else (some (newLow, newHigh), c)

def rangeEncode (c : RangeCoder) (pLow pHigh : ℕ) : ℤ × RangeCoder :=
  if pLow > pHigh then (-1, c)
  else if pLow > MAXVALUE ∨ pHigh > MAXVALUEPLUS1 then (-1, c)
  else
    match rangeCalcNewRange c pLow pHigh with
    | (none, c) => (-1, c)
    | (some (newLow, newHigh), c) =>
      let c := { c with low := newLow, high := newHigh }
      -- the entropy -log2((pHigh - pLow) / 2^24) is negative
      if pHigh - pLow > MAXVALUEPLUS1 then (-1, c)
      else
        andThen (rangeEmitStableBits c) fun c => (0, c)

def rangeEquiprobableRange (alphabetSize symbol : ℤ) : ℕ × ℕ :=
  let pLow := u32 (ull symbol * 0xffffff % 0x10000000000000000 / ull alphabetSize)
  let pHigh := u32 ((1 + ull symbol) * 0xffffff % 0x10000000000000000 / ull alphabetSize)
  (pLow, if symbol = alphabetSize - 1 then 0xffffff else pHigh)

def encodeEquiprobable (c : RangeCoder) (alphabetSize symbol : ℤ) : ℤ × RangeCoder :=
  if alphabetSize < 1 then (0, c)
  else
    let p := rangeEquiprobableRange alphabetSize symbol
    rangeEncode c p.1 p.2

def rangeEncodeEquiprobable (c : RangeCoder) (alphabetSize symbol : ℤ) : ℤ × RangeCoder :=
  if alphabetSize ≥ 0x400000 then
    -- the halves of an int are below the limit again; their results are dropped
    let c := (encodeEquiprobable c (1 + alphabetSize / 0x10000) (symbol.tdiv 0x10000)).2
    (0, (encodeEquiprobable c 0x10000 (symbol % 0x10000)).2)
  else encodeEquiprobable c alphabetSize symbol

def rangeCheck (c : RangeCoder) : Bool :=
  decide (c.low < c.high) &&
    (!c.decodingP || (decide (c.value ≤ c.high) && decide (c.low ≤ c.value)))

def rangeDecodeCommon (c : RangeCoder) (pLow pHigh : ℕ) : ℤ × RangeCoder :=
  if c.bitsUsed ≥ c.bitStreamLength ∧ c.low ≥ c.high then (-1, c)
  else if !rangeCheck c then (-1, c)
  else
    match rangeCalcNewRange c pLow pHigh with
    | (none, c) => (-1, c)
    | (some (newLow, newHigh), c) =>
      let c := { c with decodingP := true }
      if !rangeCheck c then (-1, c)
      else if newLow > c.value ∨ newHigh < c.value then (-1, c)
      else
        let c := { c with low := newLow, high := newHigh }
        if !rangeCheck c then (-1, c)
        else (0, { (rangeEmitStableBits c).2 with decodingP := false })

def candidates (alphabetSize : ℤ) (s : ℕ) : List ℕ :=
  (if s ≠ 0 then [s - 1, s, s + 1] else [0, 1]).filter (fun symbol => (symbol : ℤ) < alphabetSize)

def tryCandidates (alphabetSize : ℤ) : List ℕ → RangeCoder → Option ℕ × RangeCoder
  | [], c => (none, c)
  | symbol :: rest, c =>
    let p := rangeEquiprobableRange alphabetSize symbol
    let r := rangeDecodeCommon c p.1 p.2
    if r.1 = 0 then (some symbol, r.2) else tryCandidates alphabetSize rest r.2

def decodeEquiprobable (c : RangeCoder) (alphabetSize : ℤ) : ℤ × RangeCoder :=
  if alphabetSize < 1 then (0, c)
  else
    let space := rangeSpace c
    let v := u32 (0x100000000 + c.value - c.low)
    let s := u32 (v * alphabetSize.toNat / space)
    match tryCandidates alphabetSize (candidates alphabetSize s) c with
    | (some symbol, c) => (symbol, c)
    | (none, c) =>
      -- the diagnostic pass tries the same symbols again
      (-1, (candidates alphabetSize s).foldl (fun c (symbol : ℕ) =>
        let p := rangeEquiprobableRange alphabetSize symbol
        (rangeDecodeCommon c p.1 p.2).2) c)

def rangeDecodeEquiprobable (c : RangeCoder) (alphabetSize : ℤ) : ℤ × RangeCoder :=
  if alphabetSize ≥ 0x400000 then
    let (high, c) := decodeEquiprobable c (1 + alphabetSize / 0x10000)
    let (low, c) := decodeEquiprobable c 0x10000
    (toInt (u32 (ull low) ||| u32 (u32 (ull high) * 0x10000)), c)
  else decodeEquiprobable c alphabetSize

/-- The top bits of the middle that place every continuation in the range. -/
def concludeBits (low high mean : ℕ) : ℕ → ℕ → Option ℕ
  | fuel, bits =>
    let v := if bits = 0 then 0 else mean / 2 ^ (32 - bits) * 2 ^ (32 - bits)
    let mask := 0xffffffff / 2 ^ bits
    if v < low ∨ v + mask > high then
      match fuel with
      | 0 => none
      | fuel + 1 => concludeBits low high mean fuel (bits + 1)
    else some bits

def emitAll : List Bool → RangeCoder → ℤ × RangeCoder
  | [], c => (0, c)
  | b :: rest, c => andThen (rangeEmitbit c b) (emitAll rest)

def topBits (v m : ℕ) : List Bool := (List.range m).map (fun i => v.testBit (31 - i))

def concludeTail (c : RangeCoder) : ℤ × RangeCoder :=
  let low := u32 (2 * c.low) % 0x80000000
  let high := 0x80000000 + u32 (2 * c.high + 1) % 0x80000000
  let c := { c with low := low, high := high }
  let mean := u32 (u32 (0x100000000 + high - low) / 2 + low)
  match concludeBits low high mean 31 0 with
  | none => (-1, c)
  | some bits =>
    let v := if bits = 0 then 0xffffffff
      else mean / 2 ^ (32 - bits) * 2 ^ (32 - bits) + 0xffffffff / 2 ^ bits
    emitAll (topBits v bits) c

def rangeConclude (c : RangeCoder) : ℤ × RangeCoder :=
  let mean := u32 (u32 (0x100000000 + c.high - c.low) / 2 + c.low)
  let msb := decide (0x80000000 ≤ mean)
  andThen (rangeEmitbit c msb) fun c =>
    andThen (emitDeferred false (!msb) c.underflow.toNat c) concludeTail

def rangeCoderReset (c : RangeCoder) : RangeCoder :=
  { c with low := 0, high := 0xffffffff, bitsUsed := 0, underflow := 0, errors := 0 }

/-- A new coder on a buffer of the given bytes, whatever malloc left there. -/
def rangeNewCoder (buffer : List UInt8) : RangeCoder :=
  rangeCoderReset
    { low := 0, high := 0, value := 0, underflow := 0, errors := 0, decodingP := false,
      norescale := false, bitStream := buffer, bitStreamLength := 8 * buffer.length,
      bitsUsed := 0, outOfBits := false }

def rangeEncodeSymbol (c : RangeCoder) (frequencies : List ℕ) (alphabetSize symbol : ℕ) :
    ℤ × RangeCoder :=
  if c.errors ≠ 0 then (-1, c)
  else
    let pLow := if symbol > 0 then frequencies.getD (symbol - 1) 0 else 0
    let pHigh := if symbol < alphabetSize - 1 then frequencies.getD symbol 0 else MAXVALUEPLUS1
    rangeEncode c pLow pHigh

def searchSymbol (c : RangeCoder) (frequencies : List ℕ) (space : ℕ) : ℕ → ℕ → ℕ
  | 0, s => s
  | fuel + 1, s =>
    if c.value < u32 (c.low + frequencies.getD s 0 * space / 0x1000000) then s
    else searchSymbol c frequencies space fuel (s + 1)

def rangeDecodeSymbol (c : RangeCoder) (frequencies : List ℕ) (alphabetSize : ℕ) :
    ℤ × RangeCoder :=
  let c := { c with decodingP := false }
  let s := searchSymbol c frequencies (rangeSpace c) (alphabetSize - 1) 0
  let pLow := if s > 0 then frequencies.getD (s - 1) 0 else 0
  let pHigh := if s < alphabetSize - 1 then frequencies.getD s 0 else MAXVALUEPLUS1
  andThen (rangeDecodeCommon c pLow pHigh) fun c => (s, c)

def prefetchBits : ℕ → RangeCoder → RangeCoder
  | 0, c => c
  | n + 1, c =>
    let (b, c) := rangeDecodeGetnextbit c
    prefetchBits n { c with value := u32 (2 * c.value + b.toNat) }

def rangeDecodePrefetch (c : RangeCoder) : RangeCoder :=
  prefetchBits 32 { c with low := 0, high := 0xffffffff, value := 0 }

end Succinct.Arithmetic
