import Succinct.Recipes
import Succinct.TextRoundTrip

/-!
recipe_encode_field of forms/recipe_compress.c. What a field is encoded as is the
list of the calls of the range coder, with the return code. What rests on floating
point or on the time zone, and the value of a variable that was not written, are
parameters. Where the source reads on behind the end of a value, in memory that is not
part of it, these are zeros and the value ends.
-/
namespace Succinct.FieldEncoding

open Arithmetic RangeMessages TextModels CStrings Recipes

inductive Call where
  | equiprobable (alphabetSize symbol : ℤ)
  | symbol (frequencies : List ℕ) (alphabetSize symbol : ℕ)
  deriving DecidableEq

def Call.encode : Call → RangeCoder → ℤ × RangeCoder
  | .equiprobable n t, c => rangeEncodeEquiprobable c n t
  | .symbol frequencies n t, c => rangeEncodeSymbol c frequencies n t

def Call.ofStep : Step → Call
  | .equiprobable n t => .equiprobable n t
  | .symbol frequencies n t => .symbol frequencies n t

inductive Returned where
  | code (r : ℤ)
  | lastCall
  deriving DecidableEq

structure Encoding where
  calls : List Call
  returned : Returned
  deriving DecidableEq

/-- The calls are made one after the other, whatever they return. -/
def encodeCalls : List Call → ℤ → RangeCoder → ℤ × RangeCoder
  | [], r, c => (r, c)
  | call :: rest, _, c => encodeCalls rest (call.encode c).1 (call.encode c).2

def Encoding.run (e : Encoding) (c : RangeCoder) : ℤ × RangeCoder :=
  match e.returned with
  | .code r => (r, (encodeCalls e.calls 0 c).2)
  | .lastCall => encodeCalls e.calls 0 c

def fail : Encoding := ⟨[], .code (-1)⟩

structure Tm where
  year : ℤ
  mon : ℤ
  mday : ℤ
  hour : ℤ
  min : ℤ
  sec : ℤ

structure Environment where
  /-- Sign, exponent, and the mantissa times 0xffffff, by atof and frexp. -/
  frexp : CString → Bool × ℤ × ℤ
  /-- Latitude and longitude, in degrees and in parts of 112000, where they are in range. -/
  latlong : CString → Option ((ℤ × ℤ) × ℤ × ℤ)
  mktime : Tm → ℤ
  unwritten : ℤ

def recipeParseBoolean (b : CString) : ℤ :=
  if b.head? ∈ [some 121, some 89, some 116, some 84, some 49] then 1 else 0

def parseHexDigit (c : UInt8) : ℕ :=
  if 48 ≤ c ∧ c ≤ 57 then c.toNat - 48
  else if 65 ≤ c ∧ c ≤ 70 then c.toNat - 65 + 10
  else if 97 ≤ c ∧ c ≤ 102 then c.toNat - 97 + 10
  else 0

def parseHexByte (hex : CString) : ℤ :=
  parseHexDigit (hex.getD 0 0) * 16 + parseHexDigit (hex.getD 1 0)

def compressText (stats : Stats) (value : CString) (len : ℕ) : ℤ × List Call :=
  ((stats3CompressAppend stats value len).1,
    (stats3CompressAppend stats value len).2.map Call.ofStep)

def encodeInteger (field : Field) (stats : Stats) (value : CString) : Encoding :=
  let normalisedValue := int32 (atoi value - field.minimum)
  let alphabetSize := int32 (field.maximum - field.minimum + 2)
  if field.maximum ≤ field.minimum then fail
  else if normalisedValue < 0 ∨ normalisedValue > int32 (field.maximum - field.minimum + 1) then
    let text := compressText stats value value.length
    ⟨.equiprobable alphabetSize (int32 (field.maximum - field.minimum + 1)) ::
      text.2, .code text.1⟩
  else ⟨[.equiprobable alphabetSize normalisedValue], .lastCall⟩

def encodeFloat (env : Environment) (value : CString) : Encoding :=
  let (sign, exponent, mantissa) := env.frexp value
  let exponent := max (-127) (min 127 exponent)
  ⟨[.equiprobable 2 (if sign then 1 else 0), .equiprobable 256 (exponent + 128),
    .equiprobable 256 (mantissa / 65536 % 256), .equiprobable 256 (mantissa / 256 % 256),
    .equiprobable 256 (mantissa % 256)], .lastCall⟩

def encodeBoolean (value : CString) : Encoding :=
  ⟨[.equiprobable 2 (recipeParseBoolean value)], .lastCall⟩

/-- A number below maximum, to so many of its bits; 0 stands for all of them. -/
def encodePrecision (normalisedValue maximum precision bits : ℤ) : Call :=
  let precision := if precision = 0 then bits else precision
  if precision < bits then
    .equiprobable (maximum / 2 ^ (bits - precision).toNat + 2)
      (normalisedValue / 2 ^ (bits - precision).toNat)
  else .equiprobable (maximum + 1) normalisedValue

def within (n low high : ℤ) : Bool := decide (low ≤ n ∧ n ≤ high)

def encodeTimeofday (env : Environment) (field : Field) (value : CString) : Encoding :=
  let (read, h, m, s) := match sscanf [.int, .char 58, .int, .char 46, .int] value with
    | [.int h, .int m, .int s] => (true, h, m, s)
    | [.int h, .int m] => (true, h, m, env.unwritten)
    | _ => (false, 0, 0, 0)
  if !read then fail
  else if !(within h 0 23 && within m 0 59 && within s 0 59) then fail
  else ⟨[encodePrecision (h * 3600 + m * 60 + s) (24 * 60 * 60) field.precision 17], .lastCall⟩

def intItems (items : List Item) : List ℤ :=
  items.filterMap fun
    | .int n => some n
    | .string _ => none

def encodeTimedate (env : Environment) (value : CString) : Encoding :=
  let read :=
    intItems (sscanf [.int, .char 45, .int, .char 45, .int, .char 84, .int,
      .char 58, .int, .char 58,
    .int, .char 46, .int, .int, .char 58, .int] value)
  let tm : Tm :=
    ⟨read.getD 0 0, read.getD 1 0, read.getD 2 0, read.getD 3 0, read.getD 4 0, read.getD 5 0⟩
  if read.length < 6 then fail
  else if !(within tm.year 0 2299 && within tm.mon 1 12 && within tm.mday 1 31 &&
    within tm.hour 0 24 &&
      within tm.min 0 59 && within tm.sec 0 61) then fail
  else if read.getD 6 env.unwritten > 99 ∨ !within (read.getD 7 0) (-15) 15 ∨
    !within (read.getD 8 0) 0 59 then fail
  else
    let t := env.mktime { tm with year := tm.year - 1900, mon := tm.mon - 1 }
    ⟨[.equiprobable 0x8000 (int32 (t / 65536)), .equiprobable 0x10000 (t % 65536)], .lastCall⟩

def encodeMagpitimedate (value : CString) : Encoding :=
  let read :=
    intItems (sscanf [.int, .char 45, .int, .char 45, .int, .space, .int, .char 58,
      .int, .char 58, .int]
    value)
  let tm : Tm :=
    ⟨read.getD 0 0, read.getD 1 0, read.getD 2 0, read.getD 3 0, read.getD 4 0, read.getD 5 0⟩
  if read.length < 6 then fail
  else if !(within tm.year 0 9999 && within tm.mon 1 12 && within tm.mday 1 31 &&
    within tm.hour 0 24 &&
      within tm.min 0 59 && within tm.sec 0 61) then fail
  else ⟨[.equiprobable 10000 tm.year, .equiprobable 12 (tm.mon - 1),
    .equiprobable 31 (tm.mday - 1),
    .equiprobable 25 tm.hour, .equiprobable 60 tm.min, .equiprobable 62 tm.sec], .lastCall⟩

/-- "%d/%d/%d" with the year first, or "%d-%d-%d" with the year last. -/
def parseDate (value : CString) : Option (Bool × ℤ × ℤ × ℤ) :=
  match sscanf [.int, .char 47, .int, .char 47, .int] value with
  | [.int y, .int m, .int d] => some (true, y, m, d)
  | _ =>
    match sscanf [.int, .char 45, .int, .char 45, .int] value with
    | [.int d, .int m, .int y] => some (false, y, m, d)
    | _ => none

def encodeDate (field : Field) (value : CString) : Encoding :=
  match parseDate value with
  | none => fail
  | some (slash, y, m, d) =>
    if !(within y 1 9999 && within m 1 31 && within d 1 31) then fail
    else ⟨[.equiprobable 2 (if slash then 1 else 0),
      encodePrecision (y * (31 * 31) + (m - 1) * 31 + (d - 1))
        (10000 * 31 * 31) field.precision 24], .lastCall⟩

def encodeLatlong (env : Environment) (field : Field) (value : CString) : Encoding :=
  match env.latlong value with
  | none => fail
  | some ((ilat, ilon), fineLat, fineLon) =>
    if field.precision = 16
      then ⟨[.equiprobable 182 (ilat + 90), .equiprobable 361 (ilon + 180)], .lastCall⟩
    else if field.precision = 0 ∨ field.precision = 34 then
      ⟨[.equiprobable (182 * 112000) (fineLat + 90 * 112000),
        .equiprobable (361 * 112000) (fineLon + 180 * 112000)], .lastCall⟩
    else fail

def enumIndex (options : List CString) (value : CString) : ℕ :=
  options.findIdx fun option => strcasecmp value option

def shiftedBit (v : ℕ) : ℕ := ull (toInt (u32 (1 <<< v)))

/-- One turn of the loop over the value: the bits with that of a piece, of which
1000 bytes are compared. -/
def selectPiece (options : List CString) (bits : ℕ) (piece : CString) : ℕ :=
  let v := enumIndex options (piece.take 1000)
  if v < options.length then bits ||| shiftedBit v else bits

def selectedBits (options : List CString) (value : CString) (bits : ℕ) : ℕ :=
  match value with
  | [] => bits
  | b :: rest =>
    let piece := (b :: rest).takeWhile (· ≠ 124)
    selectedBits options (((b :: rest).dropWhile (· ≠ 124)).drop 1)
      (selectPiece options bits piece)
termination_by value.length
decreasing_by
  rw [List.length_drop]
  have hle := List.length_dropWhile_le (fun x => decide (x ≠ 124)) (b :: rest)
  rw [List.length_cons] at hle ⊢
  omega

def encodeMultiselect (field : Field) (value : CString) : Encoding :=
  let bits := selectedBits field.enumValue value 0
  ⟨(List.range field.enumCount).map fun o => .equiprobable 2 (bits >>> o &&& 1 : ℕ), .code 0⟩

def encodeEnum (field : Field) (value : CString) : Encoding :=
  let normalisedValue := enumIndex field.enumValue value
  if normalisedValue ≥ field.enumCount then fail
  else ⟨[.equiprobable field.enumCount normalisedValue], .lastCall⟩

def encodeText (field : Field) (stats : Stats) (value : CString) : Encoding :=
  let len := if field.precision > 0 then min value.length field.precision.toNat else value.length
  let text := compressText stats value len
  ⟨text.2, .code (if text.1 ≠ 0 then -1 else 0)⟩

/-- A value of less than 17 bytes is read on behind its end in the source, in whatever is
there; here all of that is 0. -/
def encodeMagpiuuid (value : CString) : Encoding :=
  let timestamp := strtol (value.drop 17)
  ⟨((List.range 8).map fun i => .equiprobable 256 (parseHexByte (value.drop (2 * i)))) ++
    (List.range 6).map fun i => .equiprobable 256 (timestamp / 2 ^ (8 * (5 - i)) % 256), .code 0⟩

/-- The bytes of a UUID, from a place on; none where there are more than 16. Behind a last
digit that stands alone the source steps over the end; here it stops. -/
def uuidBytes : CString → List ℤ → Option (List ℤ)
  | [], bytes => some bytes
  | b :: rest, bytes =>
    if bytes.length = 16 then none
    else if b ≠ 45 then
      match rest with
      | [] => some (bytes ++ [parseHexByte [b]])
      | b' :: rest => uuidBytes rest (bytes ++ [parseHexByte [b, b']])
    else uuidBytes rest bytes

def encodeUuid (field : Field) (value : CString) : Encoding :=
  let value := if strncasecmp value (text "uuid:") 5 then value.drop 5 else value
  match uuidBytes value [] with
  | none => fail
  | some uuid =>
    if uuid.length ≠ 16 then fail
    else
      let precision := if field.precision < 1 ∨ field.precision > 16 then 16
        else field.precision.toNat
      ⟨(uuid.take precision).map fun b => .equiprobable 256 b, .code 0⟩

def recipeEncodeField (env : Environment) (field : Field) (stats : Stats)
    (value : CString) : Encoding :=
  match field.type with
  | .integer => encodeInteger field stats value
  | .float => encodeFloat env value
  -- there is no break behind this case
  | .fixedpoint => encodeBoolean value
  | .boolean => encodeBoolean value
  | .timeofday => encodeTimeofday env field value
  | .timedate => encodeTimedate env value
  | .magpitimedate => encodeMagpitimedate value
  | .date => encodeDate field value
  | .latlong => encodeLatlong env field value
  | .multiselect => encodeMultiselect field value
  | .enum => encodeEnum field value
  | .text => encodeText field stats value
  | .magpiuuid => encodeMagpiuuid value
  | .uuid => encodeUuid field value
  | .subform => fail

end Succinct.FieldEncoding
