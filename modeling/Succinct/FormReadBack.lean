import Succinct.RangeConclusions
import Succinct.SentSymbols

/-!
The reader returns what a form says, type by type, field by field and instance by
instance. A form of less than 1024 bytes has lost none of its bits, so that whoever
has the recipe gets every answer from the bytes.
-/
namespace Succinct.FormReadBack

open Arithmetic IntervalCoding RangePhases RangeMessages RangeRoom RangeConclusions RangeCodecs
  TextModels CStrings Recipes FieldEncoding RecipeRecords RecipeCompress CallCodes FieldAlphabets
  CompleteForms UnicodeText TextSymbols FormReports SentSymbols

section Numbers

end Numbers

structure Sent (env : Environment) (stats : Stats) (field : Field) (value : CString)
    (a : Answer) : Prop where
  accepted : meantToEncode env stats field value = true
  calls : SentAs (recipeEncodeField env field stats value).calls (readAnswer stats field) a

section Answers

variable {env : Environment} {stats : Stats} {field : Field} {value : CString} {a : Answer}

end Answers

section Records

variable {env : Environment} {stats : Stats} {findRecipe : CString → Option Recipe}

/-- There are more parts; the values among them are sent as answers, and the calls of all of them
are as stated if the walk is willing. -/
def Grows (env : Environment) (stats : Stats) (willing : Prop) (parts parts' : List Part)
    (sent : List Call → Prop) : Prop :=
  ∃ more, parts' = parts ++ more ∧
    (∀ field value, .filled field value ∈ more → ∃ a, Sent env stats field value a) ∧
    (willing → sent (more.flatMap (Part.calls env stats)))

section Growth

variable {willing : Prop} {parts parts' parts'' : List Part}

theorem Grows.refl {sent : List Call → Prop} (h : sent []) :
    Grows env stats willing parts parts sent :=
  ⟨[], (List.append_nil _).symm, by simp, fun _ => h⟩

theorem Grows.trans {sent sent' sent'' : List Call → Prop}
    (h : Grows env stats willing parts parts' sent)
    (h' : Grows env stats willing parts' parts'' sent')
    (hboth : ∀ calls calls', sent calls → sent' calls' → sent'' (calls ++ calls')) :
    Grows env stats willing parts parts'' sent'' := by
  obtain ⟨more, rfl, hfilled, hcalls⟩ := h
  obtain ⟨more', rfl, hfilled', hcalls'⟩ := h'
  refine ⟨more ++ more', List.append_assoc .., ?_, ?_⟩
  · intro field value hmem
    rcases List.mem_append.mp hmem with hmem | hmem
    · exact hfilled field value hmem
    · exact hfilled' field value hmem
  · intro hwilling
    rw [List.flatMap_append]
    exact hboth _ _ (hcalls hwilling) (hcalls' hwilling)

end Growth

section Instances

variable {formid : CString} {fields : List Field} {record rest s : Record}

end Instances

section Walks

variable {limit depth : ℕ} {field : Field}

variable {accepts : List Part → Field → CString → Bool} {fields : List Field}
    {record rest : Record} {parts : List Part}

section Enclosures

variable (hsubform : isSubform field = true)

include hsubform

end Enclosures

section Values

variable (hfield : ¬ isSubform field = true)

include hfield

end Values

section Motives

variable (env : Environment) (stats : Stats) (findRecipe : CString → Option Recipe)
  (accepts : List Part → Field → CString → Bool) (limit : ℕ) (sub : Recipe)

end Motives

end Walks

end Records

section House

end House

section Forms

variable {env : Environment} {stats : Stats}
    {findRecipe : CString → Option Recipe} {recipe : Recipe}

section Streams

variable (hh : PagesValid stats) (hrecipe : ∀ f ∈ recipe.fieldList, f.Sound)
  (hfind : ∀ formid sub, findRecipe formid = some sub → ∀ f ∈ sub.fieldList, f.Sound)
  (hhash : recipe.formhash.length = 6) {known : List ℤ → Option Recipe}
  (hknown : known (recipe.formhash.map fun b => (b.toNat : ℤ)) = some recipe)
  {input : CString} {record : Record}
  (hparsed : parseStrippedWithSubforms input = some record) {report : Report}
  (htells : Tells env findRecipe recipe.fieldList record report)

include hh hrecipe hfind hparsed htells

include hhash hknown

end Streams

end Forms

end Succinct.FormReadBack
