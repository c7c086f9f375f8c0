import Succinct.CompleteForms
import Succinct.UnicodeText

/-!
What a form says, and a reader at the far end that knows the recipes. The reader finds
the recipe by the hash at the start of a form, and then follows it: field by field, and
instance by instance. The source declares a decompressor and has none; what is meant by a
form is stated here.
-/
namespace Succinct.FormReports

open RangeCodecs TextModels CStrings Recipes FieldEncoding RecipeRecords RecipeCompress
  UnicodeText

/-- What a value says. A text that its decoder refuses is garbled. -/
inductive Answer where
  | number (n : ℤ)
  | float (negative : Bool) (exponent mantissa : ℤ)
  | yes (b : Bool)
  | timeOfDay (seconds : ℤ)
  | time (seconds : ℤ)
  | moment (year month day hour minute second : ℤ)
  | date (slash : Bool) (days : ℤ)
  | place (lat lon : ℤ)
  | choices (chosen : List Bool)
  | choice (option : CString)
  | text (text : CString)
  | stamped (bytes : List ℤ) (timestamp : ℤ)
  | uuid (bytes : List ℤ)
  | garbled
  deriving DecidableEq

inductive Told where
  | missing
  | answer (a : Answer)
  | instances (reports : List (List Told))

abbrev Report := List Told

section Meaning

def droppedBits (precision bits : ℤ) : ℕ :=
  (bits - if precision = 0 then bits else precision).toNat

def coarse (precision bits n : ℤ) : ℤ :=
  n / 2 ^ droppedBits precision bits * 2 ^ droppedBits precision bits

def timeOfDayFormat : List Directive := [.int, .char 58, .int, .char 46, .int]

def momentFormat : List Directive :=
  [.int, .char 45, .int, .char 45, .int, .space, .int, .char 58, .int, .char 58, .int]

def bareUuid (value : CString) : CString :=
  if strncasecmp value (text "uuid:") 5 then value.drop 5 else value

/-- No digit is the last one alone; behind such a digit the source goes on behind the end. -/
def Paired : CString → Prop
  | [] => True
  | [b] => b = 45
  | b :: b' :: rest => if b = 45 then Paired (b' :: rest) else Paired rest

def uuidSize (precision : ℤ) : ℕ := if precision < 1 ∨ precision > 16 then 16 else precision.toNat

/-- What a value says in a field. An integer is a number within the bounds, and a text far
enough outside of them; seconds that are not there, a time that does not fit, a text
that is cut or is no text, and a UUID that ends too early say nothing. -/
inductive Says (env : Environment) (field : Field) (value : CString) : Answer → Prop
  | number (htype : field.type = .integer) (hrange : field.minimum < field.maximum)
      (hsize : IsInt (field.maximum - field.minimum + 2)) (hlow : field.minimum ≤ atoi value)
      (hhigh : atoi value ≤ field.maximum) : Says env field value (.number (atoi value))
  | outside (htype : field.type = .integer) (hrange : field.minimum < field.maximum)
      (hsize : IsInt (field.maximum - field.minimum + 2))
      (hfits : IsInt (atoi value - field.minimum))
      (hout : atoi value < field.minimum ∨ field.maximum + 1 < atoi value)
      (htext : PlaneText value) :
      Says env field value (.text value)
  | float (htype : field.type = .float) : Says env field value (.float (env.frexp value).1
      (max (-127) (min 127 (env.frexp value).2.1)) ((env.frexp value).2.2 % 0x1000000))
  | yes (htype : field.type = .boolean ∨ field.type = .fixedpoint) :
      Says env field value (.yes (recipeParseBoolean value = 1))
  | timeOfDay (htype : field.type = .timeofday) {h m s : ℤ}
      (hread : sscanf timeOfDayFormat value = [.int h, .int m, .int s])
      (hh : within h 0 23 = true) (hm : within m 0 59 = true) (hs : within s 0 59 = true) :
      Says env field value (.timeOfDay (coarse field.precision 17 (h * 3600 + m * 60 + s)))
  | time (htype : field.type = .timedate) {tm : Tm}
    (hread : FieldAlphabets.acceptedTm env value = some tm)
      (hlow : 0 ≤ env.mktime tm) (hhigh : env.mktime tm < 0x80000000) :
      Says env field value (.time (env.mktime tm))
  | moment (htype : field.type = .magpitimedate) {y mo d h mi s : ℤ}
      (hread : sscanf momentFormat value = [.int y, .int mo, .int d, .int h, .int mi, .int s])
      (hy : within y 0 9999 = true) (hmo : within mo 1 12 = true) (hd : within d 1 31 = true)
      (hh : within h 0 24 = true) (hmi : within mi 0 59 = true) (hs : within s 0 61 = true) :
      Says env field value (.moment y mo d h mi s)
  | date (htype : field.type = .date) {slash : Bool} {y m d : ℤ}
    (hread : parseDate value = some (slash, y, m, d))
      (hy : within y 1 9999 = true) (hm : within m 1 31 = true) (hd : within d 1 31 = true) :
      Says env field value
        (.date slash (coarse field.precision 24 (y * (31 * 31) + (m - 1) * 31 + (d - 1))))
  | degrees (htype : field.type = .latlong) (hprecision : field.precision = 16)
    {lat lon : ℤ} {fine : ℤ × ℤ}
      (hread : env.latlong value = some ((lat, lon), fine))
      (hglobe : FieldAlphabets.OnGlobe 1 lat lon) :
      Says env field value (.place lat lon)
  | place (htype : field.type = .latlong) (hprecision : field.precision = 0 ∨
    field.precision = 34)
      {whole : ℤ × ℤ} {lat lon : ℤ} (hread : env.latlong value = some (whole, lat, lon))
      (hglobe : FieldAlphabets.OnGlobe 112000 lat lon) : Says env field value (.place lat lon)
  | choices (htype : field.type = .multiselect) : Says env field value
      (.choices ((List.range field.enumCount).map fun o =>
        (FieldSymbols.pieces value).any fun piece =>
          enumIndex field.enumValue (piece.take 1000) = o))
  | choice (htype : field.type = .enum)
    (hfound : enumIndex field.enumValue value < field.enumCount) :
      Says env field value (.choice (field.enumValue.getD (enumIndex field.enumValue value) []))
  | text (htype : field.type = .text) (htext : PlaneText value)
      (hfits : field.precision ≤ 0 ∨ value.length ≤ field.precision.toNat) :
        Says env field value (.text value)
  | stamped (htype : field.type = .magpiuuid) (hlong : 17 ≤ value.length) : Says env field value
      (.stamped ((List.range 8).map fun i => parseHexByte (value.drop (2 * i)))
        (strtol (value.drop 17) % 0x1000000000000))
  | uuid (htype : field.type = .uuid) {bytes : List ℤ} (hpaired : Paired (bareUuid value))
      (hread : uuidBytes (bareUuid value) [] = some bytes) (hlength : bytes.length = 16) :
        Says env field value (.uuid (bytes.take (uuidSize field.precision)))

def isSubform (field : Field) : Bool := strncasecmp field.name subformPrefix subformPrefix.length

def subformId (field : Field) : CString := field.name.drop subformPrefix.length

def subrecords (record : Record) : List Record :=
  record.filterMap fun
    | .pair _ _ => none
    | .subrecord s => some s

def instancesOf (formid : CString) (record : Record) : List Record :=
  ((subrecords record).filter (encloses formid)).flatMap subrecords

variable (env : Environment) (findRecipe : CString → Option Recipe)

mutual

inductive Tells : List Field → Record → Report → Prop
  | nil {record : Record} : Tells [] record []
  | missing {field : Field} {fields : List Field} {record : Record} {report : Report}
    (hfield : isSubform field = false)
      (hvalue : valueOf field.name record = none) (hrest : Tells fields record report) :
      Tells (field :: fields) record (.missing :: report)
  | answer {field : Field} {fields : List Field} {record : Record} {report : Report}
    {value : CString} {a : Answer}
      (hfield : isSubform field = false) (hvalue : valueOf field.name record = some value)
      (hmeans : Says env field value a) (hrest : Tells fields record report) :
      Tells (field :: fields) record (.answer a :: report)
  | instances {field : Field} {fields : List Field} {record : Record}
    {report : Report} {sub : Recipe}
      {reports : List Report} (hfield : isSubform field = true)
      (hfound : findRecipe (subformId field) = some sub)
      (hinstances : TellEach sub.fieldList (instancesOf (subformId field) record) reports)
      (hrest : Tells fields record report) :
      Tells (field :: fields) record (.instances reports :: report)

inductive TellEach : List Field → List Record → List Report → Prop
  | nil {fields : List Field} : TellEach fields [] []
  | cons {fields : List Field} {record : Record} {records : List Record} {report : Report}
    {reports : List Report}
      (hrecord : Tells fields record report) (hrest : TellEach fields records reports) :
      TellEach fields (record :: records) (report :: reports)

end

end Meaning

section Reader

variable {α β : Type}

def readEach (read : β → Decoder α) : List β → Decoder (List α)
  | [] => pure []
  | b :: rest => do
    let x ← read b
    let xs ← readEach read rest
    pure (x :: xs)

def readBytes (n : ℕ) : Decoder (List ℤ) := readEach (fun _ => decodeEqui 256) (List.range n)

def ofBytes (bytes : List ℤ) : ℤ := bytes.foldl (fun n b => n * 256 + b) 0

def readText (stats : Stats) : Decoder Answer := do
  let text ← stats3DecompressBits stats
  pure (text.elim .garbled fun text => .text text.bytes)

def readCoarse (maximum precision bits : ℤ) : Decoder ℤ := do
  let k := droppedBits precision bits
  let n ← decodeEqui (if k = 0 then maximum + 1 else maximum / 2 ^ k + 2).toNat
  pure (n * 2 ^ k)

def readPlace (parts : ℤ) : Decoder Answer := do
  let lat ← decodeEqui (182 * parts).toNat
  let lon ← decodeEqui (361 * parts).toNat
  pure (.place (lat - 90 * parts) (lon - 180 * parts))

def readAnswer (stats : Stats) (field : Field) : Decoder Answer :=
  match field.type with
  | .integer => do
    let n ← decodeEqui (field.maximum - field.minimum + 2).toNat
    if n = field.maximum - field.minimum + 1 then readText stats
      else pure (.number (field.minimum + n))
  | .float => do
    let negative ← decodeEqui 2
    let exponent ← decodeEqui 256
    let mantissa ← readBytes 3
    pure (.float (negative = 1) (exponent - 128) (ofBytes mantissa))
  | .fixedpoint => do return .yes ((← decodeEqui 2) = 1)
  | .boolean => do return .yes ((← decodeEqui 2) = 1)
  | .timeofday => do return .timeOfDay (← readCoarse (24 * 60 * 60) field.precision 17)
  | .timedate => do
    let high ← decodeEqui 0x8000
    let low ← decodeEqui 0x10000
    pure (.time (high * 0x10000 + low))
  | .magpitimedate => do
    let year ← decodeEqui 10000
    let month ← decodeEqui 12
    let day ← decodeEqui 31
    let hour ← decodeEqui 25
    let minute ← decodeEqui 60
    let second ← decodeEqui 62
    pure (.moment year (month + 1) (day + 1) hour minute second)
  | .date => do
    let slash ← decodeEqui 2
    let days ← readCoarse (10000 * 31 * 31) field.precision 24
    pure (.date (slash = 1) days)
  | .latlong => readPlace (if field.precision = 16 then 1 else 112000)
  | .multiselect => do
    let bits ← readEach (fun _ => decodeEqui 2) (List.range field.enumCount)
    pure (.choices (bits.map fun bit => bit = 1))
  | .enum => do
    let index ← decodeEqui field.enumCount
    pure (.choice (field.enumValue.getD index.toNat []))
  | .text => readText stats
  | .magpiuuid => do
    let bytes ← readBytes 8
    let timestamp ← readBytes 6
    pure (.stamped bytes (ofBytes timestamp))
  | .uuid => do return .uuid (← readBytes (uuidSize field.precision))
  | .subform => pure .garbled

variable (stats : Stats) (findRecipe : CString → Option Recipe)

end Reader

end Succinct.FormReports
