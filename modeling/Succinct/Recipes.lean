import Succinct.CStrings

/-!
Recipes, and their texts as forms/recipe.c reads them: a line for each field, with
its name, its type, its bounds, its precision and, for a choice, its options. The
hash of the name of a form is a parameter. Texts that run over a buffer of the
source, and a memory that is full, are left out.
-/
namespace Succinct.Recipes

open CStrings

inductive FieldType where
  | integer
  | float
  | fixedpoint
  | boolean
  | timeofday
  | date
  | latlong
  | text
  | uuid
  | timedate
  | enum
  | magpiuuid
  | magpitimedate
  | multiselect
  | subform
  deriving DecidableEq

/-- The options of a choice are enum_value, and their number is enum_count. -/
structure Field where
  name : CString
  type : FieldType
  minimum : ℤ
  maximum : ℤ
  precision : ℤ
  enumValue : List CString
  deriving DecidableEq

def Field.enumCount (field : Field) : ℕ := field.enumValue.length

structure Recipe where
  formname : CString
  formhash : List UInt8
  fieldList : List Field
  deriving DecidableEq

def MAX_ENUM_VALUES : ℕ := 32

def fieldtypes : List (String × FieldType) :=
  [("integer", .integer), ("int", .integer), ("float", .float), ("decimal", .fixedpoint),
    ("fixedpoint", .fixedpoint), ("boolean", .boolean), ("bool", .boolean),
      ("timeofday", .timeofday),
    ("timestamp", .timedate), ("datetime", .timedate),
      ("magpitimestamp", .magpitimedate), ("date", .date),
    ("latlong", .latlong), ("geopoint", .latlong), ("text", .text),
      ("string", .text), ("image", .text),
    ("information", .text), ("uuid", .uuid), ("magpiuuid", .magpiuuid), ("enum", .enum),
    ("multi", .multiselect), ("subform", .subform), ("dropdown", .enum), ("radio", .enum),
    ("select1", .enum), ("select2", .enum), ("selectn", .multiselect), ("checkbox", .multiselect)]

def recipeParseFieldtype (name : CString) : Option FieldType :=
  (fieldtypes.find? fun entry => strcasecmp name (text entry.1)).map Prod.snd

def recipeName (recipeFile : CString) : CString :=
  let name := (recipeFile.splitOn 47).getLast?.getD []
  let suffix := text ".recipe"
  if recipeFile.length > suffix.length ∧
    strcasecmp suffix (recipeFile.drop (recipeFile.length - suffix.length))
  then name.take (name.length - suffix.length)
  else name

/-- "%[^:]:%[^:]:%d:%d:%d:%[^\n]" -/
def lineFormat : List Directive :=
  [.upTo 58, .char 58, .upTo 58, .char 58, .int, .char 58, .int, .char 58, .int,
    .char 58, .upTo 10]

/-- The list of the options, between commas. More than 1023 characters of one run
over their buffer. -/
def parseEnumValues (enumvalues : CString) : Option (List CString) :=
  let values := enumvalues.splitOn 44
  if values.length > MAX_ENUM_VALUES ∨ values.any (1023 < ·.length) then none else some values

/-- A line with five conversions, and with the options if there are any. -/
def parseField (name type : CString) (min max precision : ℤ)
    (enumvalues : CString) : Option Field :=
  match recipeParseFieldtype type with
  | none => none
  | some fieldtype =>
    if fieldtype = .enum ∨ fieldtype = .multiselect then
      (parseEnumValues enumvalues).map fun values =>
        ⟨name, fieldtype, min, max, precision, values⟩
    else some ⟨name, fieldtype, min, max, precision, []⟩

def parseLine (line : CString) : Option Field :=
  match sscanf lineFormat line with
  | [.string name, .string type, .int min, .int max, .int precision, .string enumvalues] =>
    parseField name type min max precision enumvalues
  | [.string name, .string type, .int min, .int max, .int precision] =>
    parseField name type min max precision []
  | _ => none

def lineEnd (b : UInt8) : Bool := b = 10 || b = 13

def recipeLine (fields : List Field) (line : CString) : Option (List Field) :=
  if fields.length > 1000 then none
  else if line = [] ∨ line.head? = some 35 then some fields
  else (parseLine line).map fun field => fields ++ [field]

/-- The loop over the bytes, with the line so far; the end of the buffer ends a line. -/
def recipeLoop : CString → CString → List Field → Option (List Field)
  | [], line, fields => if line.length > 16380 then none else recipeLine fields line
  | b :: rest, line, fields =>
    if line.length > 16380 then none
    else if lineEnd b then (recipeLine fields line).bind (recipeLoop rest [])
    else recipeLoop rest (line ++ [b]) fields

def recipeRead (formHash : CString → List UInt8) (formname buffer : CString) : Option Recipe :=
  if buffer.length < 1 ∨ buffer.length > 1048576 then none
  else (recipeLoop buffer [] []).map fun fields =>
    ⟨recipeName formname, formHash (recipeName formname), fields⟩

section Reading

def Field.Sound (field : Field) : Prop :=
  if field.type = .enum ∨ field.type = .multiselect then 1 ≤ field.enumCount ∧
    field.enumCount ≤ MAX_ENUM_VALUES
  else field.enumCount = 0

theorem parseEnumValues_sound {enumvalues : CString} {values : List CString}
    (h : parseEnumValues enumvalues = some values) : 1 ≤ values.length ∧
    values.length ≤ MAX_ENUM_VALUES := by
  rw [parseEnumValues] at h
  simp only [Option.ite_none_left_eq_some, Option.some.injEq] at h
  obtain ⟨hlimits, rfl⟩ := h
  have hne := List.length_pos_iff.mpr (List.splitOn_ne_nil (44 : UInt8) enumvalues)
  exact ⟨hne, not_lt.mp (not_or.mp hlimits).1⟩

theorem parseField_sound {name type : CString} {min max precision : ℤ}
    {enumvalues : CString} {field : Field}
    (h : parseField name type min max precision enumvalues = some field) : field.Sound := by
  rw [parseField] at h
  cases heq : recipeParseFieldtype type with
  | none =>
    rw [heq] at h
    cases h
  | some fieldtype =>
    rw [heq] at h
    dsimp only at h
    rw [Field.Sound]
    by_cases hchoice : fieldtype = FieldType.enum ∨ fieldtype = FieldType.multiselect
    · rw [if_pos hchoice] at h
      obtain ⟨values, hvalues, rfl⟩ := Option.map_eq_some_iff.mp h
      rw [if_pos hchoice]
      exact parseEnumValues_sound hvalues
    · rw [if_neg hchoice] at h
      obtain rfl := Option.some.inj h
      rw [if_neg hchoice]
      rfl

theorem parseLine_sound {line : CString} {field : Field}
    (h : parseLine line = some field) : field.Sound := by
  rw [parseLine] at h
  split at h
  · exact parseField_sound h
  · exact parseField_sound h
  · cases h

theorem recipeLine_sound {fields fields' : List Field} {line : CString}
    (hfields : ∀ f ∈ fields, f.Sound)
    (h : recipeLine fields line = some fields') : ∀ f ∈ fields', f.Sound := by
  rw [recipeLine] at h
  split at h
  · cases h
  split at h
  · obtain rfl := Option.some.inj h
    exact hfields
  · obtain ⟨field, hfield, rfl⟩ := Option.map_eq_some_iff.mp h
    intro f hf
    rcases List.mem_append.mp hf with hf | hf
    · exact hfields f hf
    · obtain rfl := List.mem_singleton.mp hf
      exact parseLine_sound hfield

theorem recipeLoop_sound (buffer line : CString) {fields fields' : List Field}
    (hfields : ∀ f ∈ fields, f.Sound)
    (h : recipeLoop buffer line fields = some fields') : ∀ f ∈ fields', f.Sound := by
  induction buffer generalizing line fields with
  | nil =>
    rw [recipeLoop] at h
    split at h
    · cases h
    · exact recipeLine_sound hfields h
  | cons b rest ih =>
    rw [recipeLoop] at h
    split at h
    · cases h
    split at h
    · obtain ⟨middle, hline, hrest⟩ := Option.bind_eq_some_iff.mp h
      exact ih [] (recipeLine_sound hfields hline) hrest
    · exact ih _ hfields h

theorem recipeRead_sound {formHash : CString → List UInt8}
    {formname buffer : CString} {recipe : Recipe}
    (h : recipeRead formHash formname buffer = some recipe) :
    ∀ f ∈ recipe.fieldList, f.Sound := by
  rw [recipeRead] at h
  split at h
  · cases h
  · obtain ⟨fields, hloop, rfl⟩ := Option.map_eq_some_iff.mp h
    exact recipeLoop_sound buffer [] (by simp) hloop

end Reading

end Succinct.Recipes
