import Succinct.FieldAlphabets
import Succinct.RecipeCompress

/-!
What recipe_compress encodes of a form, part by part. The calls of range_encode that
are made depend on what the earlier ones return; the calls that a form asks for do
not, and where all of these return 0, they are the ones that are made.
-/
namespace Succinct.CompleteForms

open Arithmetic RangePhases RangeRoom RangeSpans RangeConclusions TextModels CStrings Recipes
  FieldEncoding RecipeRecords RecipeCompress CallCodes FieldAlphabets

inductive Part where
  | absent
  | present
  | filled (field : Field) (value : CString)

def Part.calls (env : Environment) (stats : Stats) : Part → List Call
  | .absent => [.equiprobable 2 0]
  | .present => [.equiprobable 2 1]
  | .filled field value => (recipeEncodeField env field stats value).calls

section Walks

variable (findRecipe : CString → Option Recipe) (accepts : List Part → Field → CString → Bool)

mutual

/-- The parts that compress_record_with_subforms goes through, with the parts before
them, and whether it succeeds; a value is accepted or not. -/
def walkFields (fields : List Field) (record : Record) (parts : List Part) : Bool × List Part :=
  match fields with
  | [] => (true, parts)
  | field :: fields =>
    if strncasecmp field.name subformPrefix subformPrefix.length then
      match findRecipe (field.name.drop subformPrefix.length) with
      | none => (false, parts)
      | some recipe =>
        let parts := walkEnclosures recipe (field.name.drop subformPrefix.length) record parts
        walkFields fields record (parts ++ [.absent])
    else
      match valueOf field.name record with
      | none => walkFields fields record (parts ++ [.absent])
      | some value =>
        if accepts (parts ++ [.present]) field value then
          walkFields fields record (parts ++ [.present] ++ [.filled field value])
        else (false, parts ++ [.present] ++ [.filled field value])
termination_by (sizeOf record, 2, fields.length)

def walkEnclosures (recipe : Recipe) (formid : CString) (record : Record)
    (parts : List Part) : List Part :=
  match record with
  | [] => parts
  | .pair _ _ :: rest => walkEnclosures recipe formid rest parts
  | .subrecord s :: rest =>
    walkEnclosures recipe formid rest (if encloses formid s
      then walkInstances recipe s parts else parts)
termination_by (sizeOf record, 1, 0)

def walkInstances (recipe : Recipe) (record : Record) (parts : List Part) : List Part :=
  match record with
  | [] => parts
  | .pair _ _ :: rest => walkInstances recipe rest parts
  | .subrecord ss :: rest =>
    walkInstances recipe rest (walkFields recipe.fieldList ss (parts ++ [.present])).2
termination_by (sizeOf record, 0, 0)

end

end Walks

section Records

inductive AllValues (V : CString → Prop) : Record → Prop
  | nil : AllValues V []
  | pair {key value : CString} {rest : Record} (hvalue : V value) (hrest : AllValues V rest) :
      AllValues V (.pair key value :: rest)
  | subrecord {s rest : Record} (hs : AllValues V s) (hrest : AllValues V rest) :
    AllValues V (.subrecord s :: rest)

variable {V : CString → Prop}

theorem allValues_of_forall (h : ∀ value, V value) (record : Record) : AllValues V record :=
  match record with
  | [] => .nil
  | .pair _ value :: rest => .pair (h value) (allValues_of_forall h rest)
  | .subrecord s :: rest => .subrecord (allValues_of_forall h s) (allValues_of_forall h rest)

theorem AllValues.append {r r' : Record} (h : AllValues V r) (h' : AllValues V r') :
    AllValues V (r ++ r') := by
  induction h with
  | nil => exact h'
  | pair hvalue _ ih => exact AllValues.pair hvalue ih
  | subrecord hs _ _ ih => exact AllValues.subrecord hs ih

theorem AllValues.valueOf {record : Record} (h : AllValues V record) {name value : CString}
    (hvalue : RecipeCompress.valueOf name record = some value) : V value := by
  induction h with
  | nil => cases hvalue
  | pair hfirst _ ih =>
    rw [RecipeCompress.valueOf] at hvalue
    split at hvalue
    · obtain rfl := Option.some.inj hvalue
      exact hfirst
    · exact ih hvalue
  | subrecord _ _ _ ih => exact ih hvalue

/-- A value is shorter than its line. -/
theorem adds_short {r r' : Record} {lines : List CString} (h : Adds r lines r')
    (hlines : ∀ line ∈ lines, line.length < 1000)
    (hr : AllValues (fun value => value.length < 1000) r) :
    AllValues (fun value => value.length < 1000) r' := by
  induction h with
  | nil r => exact hr
  | @pair r r' line key value lines _ _ hpair _ _ ih =>
    obtain ⟨hline, hrest⟩ := List.forall_mem_cons.mp hlines
    obtain ⟨rfl, -⟩ := hpair
    rw [List.length_append, List.length_cons] at hline
    exact ih hrest (hr.append (.pair (by omega) .nil))
  | @subrecord r s r' opening closing inner lines _ _ _ _ _ _ ihInner ihRest =>
    have hinner := ihInner (fun line hline => hlines line (by simp [hline])) .nil
    exact ihRest (fun line hline => hlines line (by simp [hline]))
      (hr.append (.subrecord hinner .nil))

theorem parsed_short {input : CString} {record : Record}
    (h : parseStrippedWithSubforms input = some record) :
    AllValues (fun value => value.length < 1000) record := by
  refine adds_short ((parse_iff_adds input record).mp h) ?_ .nil
  intro line hline
  obtain ⟨hcounts, -⟩ := countedLines_proper input line hline
  exact (of_decide_eq_true hcounts).1

end Records

section Equations

variable {findRecipe : CString → Option Recipe}
    {accepts : List Part → Field → CString → Bool} {field : Field}
  {fields : List Field} {record : Record} {parts : List Part}

theorem walkFields_unknown
    (hsubform : strncasecmp field.name subformPrefix subformPrefix.length = true)
    (hnone : findRecipe (field.name.drop subformPrefix.length) = none) :
    walkFields findRecipe accepts (field :: fields) record parts = (false, parts) := by
  rw [walkFields, if_pos hsubform, hnone]

theorem walkFields_subform
    (hsubform : strncasecmp field.name subformPrefix subformPrefix.length = true) {sub : Recipe}
    (hfound : findRecipe (field.name.drop subformPrefix.length) = some sub) :
    walkFields findRecipe accepts (field :: fields) record parts =
      walkFields findRecipe accepts fields record
      (walkEnclosures findRecipe accepts sub (field.name.drop subformPrefix.length) record
        parts ++ [.absent]) := by
  rw [walkFields, if_pos hsubform, hfound]

variable (hfield : ¬ strncasecmp field.name subformPrefix subformPrefix.length = true)

include hfield

theorem walkFields_absent (hmissing : valueOf field.name record = none) :
    walkFields findRecipe accepts (field :: fields) record parts =
      walkFields findRecipe accepts fields record (parts ++ [.absent]) := by
  rw [walkFields, if_neg hfield, hmissing]

theorem walkFields_value {value : CString} (hvalue : valueOf field.name record = some value) :
    walkFields findRecipe accepts (field :: fields) record parts =
      if accepts (parts ++ [.present]) field value then
        walkFields findRecipe accepts fields record (parts ++ [.present] ++ [.filled field value])
      else (false, parts ++ [.present] ++ [.filled field value]) := by
  rw [walkFields, if_neg hfield, hvalue]

end Equations

section Rules

variable {findRecipe : CString → Option Recipe}

def Extends (F : Field → Prop) (V : CString → Prop) (parts parts' : List Part) : Prop :=
  ∃ more, parts' = parts ++ more ∧ ∀ field value, .filled field value ∈ more → F field ∧ V value

variable {F : Field → Prop} {V : CString → Prop}

theorem Extends.refl (parts : List Part) : Extends F V parts parts :=
  ⟨[], (List.append_nil _).symm, by simp⟩

theorem Extends.trans {a b c : List Part} (h : Extends F V a b) (h' : Extends F V b c) :
    Extends F V a c := by
  obtain ⟨more, rfl, hmore⟩ := h
  obtain ⟨more', rfl, hmore'⟩ := h'
  refine ⟨more ++ more', List.append_assoc .., ?_⟩
  intro field value hmem
  rcases List.mem_append.mp hmem with hmem | hmem
  · exact hmore field value hmem
  · exact hmore' field value hmem

theorem Extends.absent (parts : List Part) : Extends F V parts (parts ++ [.absent]) :=
  ⟨_, rfl, by simp⟩

theorem Extends.present (parts : List Part) : Extends F V parts (parts ++ [.present]) :=
  ⟨_, rfl, by simp⟩

theorem Extends.filled (parts : List Part) {field : Field} {value : CString} (hfield : F field)
    (hvalue : V value) :
    Extends F V parts (parts ++ [.present] ++ [.filled field value]) := by
  refine ⟨[.present, .filled field value], List.append_assoc .., ?_⟩
  intro f v hmem
  simp only [List.mem_cons, reduceCtorEq, List.not_mem_nil, or_false, false_or,
    Part.filled.injEq] at hmem
  obtain ⟨rfl, rfl⟩ := hmem
  exact ⟨hfield, hvalue⟩

section Motives

variable (findRecipe : CString → Option Recipe) (F : Field → Prop) (V : CString → Prop)
  (accepts : List Part → Field → CString → Bool)

def FieldsExtend (fields : List Field) (record : Record) (parts : List Part) : Prop :=
  (∀ f ∈ fields, F f) → AllValues V record →
    Extends F V parts (walkFields findRecipe accepts fields record parts).2

def EnclosuresExtend (sub : Recipe) (formid : CString) (record : Record)
    (parts : List Part) : Prop :=
  (∀ f ∈ sub.fieldList, F f) → AllValues V record →
    Extends F V parts (walkEnclosures findRecipe accepts sub formid record parts)

def InstancesExtend (sub : Recipe) (record : Record) (parts : List Part) : Prop :=
  (∀ f ∈ sub.fieldList, F f) → AllValues V record →
    Extends F V parts (walkInstances findRecipe accepts sub record parts)

end Motives

/-- A walk only adds parts, with fields of the recipes and values of the record. -/
theorem walk_extends (accepts : List Part → Field → CString → Bool)
    (hfind : ∀ formid sub, findRecipe formid = some sub → ∀ f ∈ sub.fieldList, F f) :
    (∀ fields record parts, FieldsExtend findRecipe F V accepts fields record parts) ∧
    (∀ sub formid record parts,
      EnclosuresExtend findRecipe F V accepts sub formid record parts) ∧
    (∀ sub record parts, InstancesExtend findRecipe F V accepts sub record parts) := by
  refine walkFields.mutual_induct findRecipe accepts
    (FieldsExtend findRecipe F V accepts) (EnclosuresExtend findRecipe F V accepts)
    (InstancesExtend findRecipe F V accepts)
    ?noFields ?unknown ?subform ?absent ?accepted ?refused
    ?noEnclosure ?pairOutside ?enclosure ?noInstance ?pairInside ?oneInstance
  case noFields =>
    intro record parts _ _
    rw [walkFields]
    exact Extends.refl parts
  case unknown =>
    intro record parts field fields hsubform hnone _ _
    rw [walkFields_unknown hsubform hnone]
    exact Extends.refl parts
  case subform =>
    intro record parts field fields hsubform sub hfound parts' henclosures hrest hfields hrecord
    rw [walkFields_subform hsubform hfound]
    have hsub := henclosures (hfind _ sub hfound) hrecord
    exact hsub.trans ((Extends.absent _).trans
      (hrest (List.forall_mem_cons.mp hfields).2 hrecord))
  case absent =>
    intro record parts field fields hfield hmissing hrest hfields hrecord
    rw [walkFields_absent hfield hmissing]
    exact (Extends.absent parts).trans (hrest (List.forall_mem_cons.mp hfields).2 hrecord)
  case accepted =>
    intro record parts field fields hfield value hvalue haccepts hrest hfields hrecord
    obtain ⟨hfirst, hothers⟩ := List.forall_mem_cons.mp hfields
    rw [walkFields_value hfield hvalue, if_pos haccepts]
    exact (Extends.filled parts hfirst (hrecord.valueOf hvalue)).trans (hrest hothers hrecord)
  case refused =>
    intro record parts field fields hfield value hvalue hrefuses hfields hrecord
    rw [walkFields_value hfield hvalue, if_neg hrefuses]
    exact Extends.filled parts (List.forall_mem_cons.mp hfields).1 (hrecord.valueOf hvalue)
  case noEnclosure =>
    intro sub formid parts _ _
    rw [walkEnclosures]
    exact Extends.refl parts
  case pairOutside =>
    intro sub formid parts key value rest hrest hsub hrecord
    rw [walkEnclosures]
    cases hrecord with
    | pair _ hvalues => exact hrest hsub hvalues
  case enclosure =>
    intro sub formid parts s rest hinstances hrest hsub hrecord
    rw [walkEnclosures]
    cases hrecord with
    | subrecord hs hvalues =>
      have hlater := hrest hsub hvalues
      by_cases hencloses : encloses formid s = true
      · rw [dif_pos hencloses] at hlater
        rw [if_pos hencloses]
        exact (hinstances hsub hs).trans hlater
      · rw [dif_neg hencloses] at hlater
        rw [if_neg hencloses]
        exact hlater
  case noInstance =>
    intro sub parts _ _
    rw [walkInstances]
    exact Extends.refl parts
  case pairInside =>
    intro sub parts key value rest hrest hsub hrecord
    rw [walkInstances]
    cases hrecord with
    | pair _ hvalues => exact hrest hsub hvalues
  case oneInstance =>
    intro sub parts s rest hinstance hrest hsub hrecord
    rw [walkInstances]
    cases hrecord with
    | subrecord hs hvalues =>
      exact (Extends.present parts).trans ((hinstance hsub hs).trans (hrest hsub hvalues))

theorem walk_grows (accepts : List Part → Field → CString → Bool) :
    (∀ fields record parts, parts <+: (walkFields findRecipe accepts fields record parts).2) ∧
    (∀ sub formid record parts,
      parts <+: walkEnclosures findRecipe accepts sub formid record parts) ∧
    (∀ sub record parts, parts <+: walkInstances findRecipe accepts sub record parts) := by
  have hshorter : ∀ parts parts', Extends (fun _ => True) (fun _ => True) parts parts' →
    parts <+: parts' := by
    rintro parts _ ⟨more, rfl, -⟩
    exact List.prefix_append _ _
  have hvalues := allValues_of_forall fun _ : CString => True.intro
  obtain ⟨hfields, henclosures, hinstances⟩ :=
    @walk_extends findRecipe (fun _ => True) (fun _ => True) accepts
    fun _ _ _ _ _ => True.intro
  exact ⟨fun _ record _ => hshorter _ _ (hfields _ _ _ (fun _ _ => True.intro) (hvalues record)),
    fun _ _ record _ =>
      hshorter _ _ (henclosures _ _ _ _ (fun _ _ => True.intro) (hvalues record)),
    fun _ record _ => hshorter _ _ (hinstances _ _ _ (fun _ _ => True.intro) (hvalues record))⟩

/-- A value is encoded, whether it is accepted or not. -/
theorem walkFields_filled (accepts : List Part → Field → CString → Bool) (record : Record)
    (parts : List Part)
    {field : Field} (fields : List Field)
    (hfield : ¬ strncasecmp field.name subformPrefix subformPrefix.length = true)
    {value : CString} (hvalue : valueOf field.name record = some value) :
    parts ++ [.present] ++ [.filled field value] <+:
      (walkFields findRecipe accepts (field :: fields) record parts).2 := by
  rw [walkFields_value hfield hvalue]
  split
  · exact (walk_grows accepts).1 fields record _
  · exact List.prefix_rfl

section Motives

variable (findRecipe : CString → Option Recipe)
  (accepts accepts' : List Part → Field → CString → Bool) (quiet : List Part → Prop)

def FieldsAgree (fields : List Field) (record : Record) (parts : List Part) : Prop :=
  quiet (walkFields findRecipe accepts fields record parts).2 ∨
    quiet (walkFields findRecipe accepts' fields record parts).2 →
  walkFields findRecipe accepts fields record parts =
    walkFields findRecipe accepts' fields record parts

def EnclosuresAgree (sub : Recipe) (formid : CString) (record : Record)
    (parts : List Part) : Prop :=
  quiet (walkEnclosures findRecipe accepts sub formid record parts) ∨
    quiet (walkEnclosures findRecipe accepts' sub formid record parts) →
  walkEnclosures findRecipe accepts sub formid record parts =
    walkEnclosures findRecipe accepts' sub formid record parts

def InstancesAgree (sub : Recipe) (record : Record) (parts : List Part) : Prop :=
  quiet (walkInstances findRecipe accepts sub record parts) ∨
    quiet (walkInstances findRecipe accepts' sub record parts) →
  walkInstances findRecipe accepts sub record parts =
    walkInstances findRecipe accepts' sub record parts

end Motives

/-- Two walks are the same where the parts of one of them are quiet, if behind quiet
parts both accept the same values. -/
theorem walk_agrees {accepts accepts' : List Part → Field → CString → Bool}
    {quiet : List Part → Prop}
    (hmono : ∀ parts parts', parts <+: parts' → quiet parts' → quiet parts)
    (hagrees : ∀ parts field value, quiet (parts ++ [.filled field value]) →
      accepts parts field value = accepts' parts field value) :
    (∀ fields record parts, FieldsAgree findRecipe accepts accepts' quiet fields record parts) ∧
    (∀ sub formid record parts,
      EnclosuresAgree findRecipe accepts accepts' quiet sub formid record parts) ∧
    (∀ sub record parts, InstancesAgree findRecipe accepts accepts' quiet sub record parts) := by
  obtain ⟨hfieldsMore, henclosuresMore, hinstancesMore⟩ := @walk_grows findRecipe accepts
  obtain ⟨hfieldsMore', henclosuresMore', hinstancesMore'⟩ := @walk_grows findRecipe accepts'
  refine walkFields.mutual_induct findRecipe accepts
    (FieldsAgree findRecipe accepts accepts' quiet)
    (EnclosuresAgree findRecipe accepts accepts' quiet)
    (InstancesAgree findRecipe accepts accepts' quiet)
    ?noFields ?unknown ?subform ?absent ?accepted ?refused
    ?noEnclosure ?pairOutside ?enclosure ?noInstance ?pairInside ?oneInstance
  case noFields =>
    intro record parts _
    rw [walkFields, walkFields]
  case unknown =>
    intro record parts field fields hsubform hnone _
    rw [walkFields_unknown hsubform hnone, walkFields_unknown hsubform hnone]
  case subform =>
    intro record parts field fields hsubform sub hfound parts' henclosures hrest hquiet
    rw [walkFields_subform hsubform hfound, walkFields_subform hsubform hfound] at hquiet ⊢
    -- the parts of the instances are quiet in one of the walks
    have hsame := henclosures (hquiet.imp
      (hmono _ _ ((List.prefix_append _ _).trans (hfieldsMore fields record _)))
      (hmono _ _ ((List.prefix_append _ _).trans (hfieldsMore' fields record _))))
    rw [← hsame] at hquiet ⊢
    exact hrest hquiet
  case absent =>
    intro record parts field fields hfield hmissing hrest hquiet
    rw [walkFields_absent hfield hmissing, walkFields_absent hfield hmissing] at hquiet ⊢
    exact hrest hquiet
  case accepted =>
    intro record parts field fields hfield value hvalue haccepts hrest hquiet
    have haccepts' := hagrees _ field value (hquiet.elim
      (hmono _ _ (walkFields_filled accepts record parts fields hfield hvalue))
      (hmono _ _ (walkFields_filled accepts' record parts fields hfield hvalue)))
    rw [haccepts] at haccepts'
    rw [walkFields_value hfield hvalue, walkFields_value hfield hvalue, if_pos haccepts,
      if_pos haccepts'.symm] at hquiet ⊢
    exact hrest hquiet
  case refused =>
    intro record parts field fields hfield value hvalue hrefuses hquiet
    have hrefuses' := hagrees _ field value (hquiet.elim
      (hmono _ _ (walkFields_filled accepts record parts fields hfield hvalue))
      (hmono _ _ (walkFields_filled accepts' record parts fields hfield hvalue)))
    rw [walkFields_value hfield hvalue, walkFields_value hfield hvalue, ← hrefuses',
      if_neg hrefuses, if_neg hrefuses]
  case noEnclosure =>
    intro sub formid parts _
    rw [walkEnclosures, walkEnclosures]
  case pairOutside =>
    intro sub formid parts key value rest hrest hquiet
    rw [walkEnclosures, walkEnclosures] at hquiet ⊢
    exact hrest hquiet
  case enclosure =>
    intro sub formid parts s rest hinstances hrest hquiet
    rw [walkEnclosures, walkEnclosures] at hquiet ⊢
    by_cases hencloses : encloses formid s = true
    · rw [dif_pos hencloses] at hrest
      rw [if_pos hencloses, if_pos hencloses] at hquiet ⊢
      have hsame := hinstances (hquiet.imp (hmono _ _ (henclosuresMore sub formid rest _))
        (hmono _ _ (henclosuresMore' sub formid rest _)))
      rw [← hsame] at hquiet ⊢
      exact hrest hquiet
    · rw [dif_neg hencloses] at hrest
      rw [if_neg hencloses, if_neg hencloses] at hquiet ⊢
      exact hrest hquiet
  case noInstance =>
    intro sub parts _
    rw [walkInstances, walkInstances]
  case pairInside =>
    intro sub parts key value rest hrest hquiet
    rw [walkInstances, walkInstances] at hquiet ⊢
    exact hrest hquiet
  case oneInstance =>
    intro sub parts s rest hinstance hrest hquiet
    rw [walkInstances, walkInstances] at hquiet ⊢
    have hsame :=
      hinstance (hquiet.imp (hmono _ _ (hinstancesMore sub rest _))
        (hmono _ _ (hinstancesMore' sub rest _)))
    rw [← hsame] at hquiet ⊢
    exact hrest hquiet

end Rules

section Forms

variable (env : Environment) (stats : Stats)
    (findRecipe : CString → Option Recipe) (recipe : Recipe)

def formCalls (parts : List Part) : List Call :=
  (recipe.formhash.map fun b => .equiprobable 256 b.toNat) ++ parts.flatMap (Part.calls env stats)

def freshCoder : RangeCoder := rangeNewCoder (List.replicate 1024 0)

def formCodes (parts : List Part) : List ℤ :=
  allCodes (formCalls env stats recipe parts) freshCoder

def formCoder (parts : List Part) : RangeCoder :=
  encodeAll (formCalls env stats recipe parts) freshCoder

def encodes (parts : List Part) (field : Field) (value : CString) : Bool :=
  ((recipeEncodeField env field stats value).run (formCoder env stats recipe parts)).1 = 0

def encodedParts (record : Record) : List Part :=
  (walkFields findRecipe (encodes env stats recipe) recipe.fieldList record []).2

def meantToEncode (field : Field) (value : CString) : Bool :=
  match (recipeEncodeField env field stats value).returned with
  | .code r => r = 0
  | .lastCall => true

def formParts (record : Record) : List Part :=
  (walkFields findRecipe (fun _ => meantToEncode env stats) recipe.fieldList record []).2

def concludedForm (record : Record) : ℤ × RangeCoder :=
  rangeConclude
    (compressRecordWithSubforms env stats findRecipe recipe record (newState recipe)).2.coder

/-- Every call of range_encode returned 0: no symbol was outside of its alphabet, and
the coder did not run out of bits, which range_conclude pushes as well. -/
structure Complete (record : Record) : Prop where
  codes : ∀ code ∈ formCodes env stats recipe
    (encodedParts env stats findRecipe recipe record), code = 0
  symbols : ∀ call ∈ formCalls env stats recipe
    (encodedParts env stats findRecipe recipe record), Legal call
  concluded : (concludedForm env stats findRecipe recipe record).1 = 0
  room : (concludedForm env stats findRecipe recipe record).2.outOfBits = false

/-- The values that the form asks for have symbols, and there is room for their bits and
for those that conclude them. -/
structure Sendable (record : Record) : Prop where
  values : ∀ field value, .filled field value ∈ formParts env stats findRecipe recipe record →
    Encodable env field stats value
  bits : (concludedOnce (advanceAll fresh (formCalls env stats recipe
    (formParts env stats findRecipe recipe record)))).length ≤ 8192

variable {env stats findRecipe recipe}

theorem formCalls_append (parts more : List Part) :
    formCalls env stats recipe (parts ++ more) = formCalls env stats recipe parts ++
      more.flatMap (Part.calls env stats) := by
  rw [formCalls, formCalls, List.flatMap_append, List.append_assoc]

theorem formCoder_append (parts : List Part) (part : Part) :
    formCoder env stats recipe (parts ++ [part]) =
      encodeAll (part.calls env stats) (formCoder env stats recipe parts) := by
  rw [formCoder, formCalls_append, encodeAll_append, List.flatMap_singleton, formCoder]

theorem encode_eq (st : State) (n t : ℤ) :
    (st.encode n t).coder = ((Call.equiprobable n t).encode st.coder).2 := rfl

theorem encodeHash_coder (hash : List UInt8) (st : State) :
    (encodeHash hash st).coder =
      encodeAll (hash.map fun b => .equiprobable 256 b.toNat) st.coder := by
  induction hash generalizing st with
  | nil => rfl
  | cons b rest ih =>
    rw [List.map_cons, encodeAll_cons, ← encode_eq, ← ih, encodeHash,
      List.foldl_cons, ← encodeHash]

theorem newState_coder : (newState recipe).coder = formCoder env stats recipe [] := by
  rw [newState, encodeHash_coder, formCoder, formCalls, List.flatMap_nil, List.append_nil]
  rfl

theorem encode_absent {st : State} {parts : List Part}
    (h : st.coder = formCoder env stats recipe parts) :
    (st.encode 2 0).coder = formCoder env stats recipe (parts ++ [.absent]) := by
  rw [formCoder_append, ← h, Part.calls, encodeAll_singleton, encode_eq]

theorem encode_present {st : State} {parts : List Part}
    (h : st.coder = formCoder env stats recipe parts) :
    (st.encode 2 1).coder = formCoder env stats recipe (parts ++ [.present]) := by
  rw [formCoder_append, ← h, Part.calls, encodeAll_singleton, encode_eq]

theorem encodeField_coder {st : State} {parts : List Part}
    (h : st.coder = formCoder env stats recipe parts)
    (field : Field) (value : CString) :
    (st.encodeField (recipeEncodeField env field stats value)).2.coder =
      formCoder env stats recipe (parts ++ [.filled field value]) := by
  rw [formCoder_append, ← h, Part.calls, State.encodeField]
  generalize recipeEncodeField env field stats value = e
  by_cases hnone : e.calls = []
  · rw [if_pos hnone, hnone]
    rfl
  · rw [if_neg hnone, Encoding.run]
    cases e.returned with
    | code r => rfl
    | lastCall => rfl

section Motives

variable (env stats findRecipe recipe)

def FieldsTrack (depth : ℕ) (fields : List Field) (record : Record) (st : State) : Prop :=
  ∀ parts, st.coder = formCoder env stats recipe parts →
    (compressFields env stats findRecipe depth fields record st).2.coder =
      formCoder env stats recipe
        (walkFields findRecipe (encodes env stats recipe) fields record parts).2 ∧
    ((compressFields env stats findRecipe depth fields record st).1 = 0 ↔
      (walkFields findRecipe (encodes env stats recipe) fields record parts).1 = true)

def EnclosuresTrack (depth : ℕ) (sub : Recipe) (formid : CString) (record : Record)
    (st : State) : Prop :=
  ∀ parts, st.coder = formCoder env stats recipe parts →
    (compressEnclosures env stats findRecipe depth sub formid record st).coder =
      formCoder env stats recipe
        (walkEnclosures findRecipe (encodes env stats recipe) sub formid record parts)

def InstancesTrack (depth : ℕ) (sub : Recipe) (record : Record) (st : State) : Prop :=
  ∀ parts, st.coder = formCoder env stats recipe parts →
    (compressInstances env stats findRecipe depth sub record st).coder =
      formCoder env stats recipe
        (walkInstances findRecipe (encodes env stats recipe) sub record parts)

end Motives

/-- The walk that encodes follows the run. -/
theorem walk_tracks :
    (∀ depth fields record st,
      FieldsTrack env stats findRecipe recipe depth fields record st) ∧
    (∀ depth sub formid record st,
      EnclosuresTrack env stats findRecipe recipe depth sub formid record st) ∧
    (∀ depth sub record st,
      InstancesTrack env stats findRecipe recipe depth sub record st) := by
  refine compressFields.mutual_induct env stats findRecipe
    (FieldsTrack env stats findRecipe recipe) (EnclosuresTrack env stats findRecipe recipe)
    (InstancesTrack env stats findRecipe recipe)
    ?noFields ?unknown ?subform ?absent ?refused ?accepted
    ?noEnclosure ?pairOutside ?enclosure ?noInstance ?pairInside ?oneInstance
  case noFields =>
    intro depth record st parts hst
    rw [compressFields, walkFields]
    exact ⟨hst, iff_of_true rfl rfl⟩
  case unknown =>
    intro depth record st field fields hsubform hnone parts hst
    rw [compressFields, if_pos hsubform, hnone, walkFields_unknown hsubform hnone]
    exact ⟨hst, iff_of_false (show (-1 : ℤ) ≠ 0 by decide) Bool.false_ne_true⟩
  case subform =>
    intro depth record st field fields hsubform sub hfound st' henclosures hrest parts hst
    rw [compressFields, if_pos hsubform, hfound, walkFields_subform hsubform hfound]
    exact hrest _ (encode_absent (henclosures parts hst))
  case absent =>
    intro depth record st field fields hfield hmissing hrest parts hst
    rw [compressFields, if_neg hfield, hmissing, walkFields_absent hfield hmissing]
    exact hrest _ (encode_absent hst)
  case refused =>
    intro depth record st field fields hfield value hvalue result hfails parts hst
    have hpresent := encode_present hst
    have hrefused : ¬ encodes env stats recipe (parts ++ [.present]) field value = true := by
      rw [encodes, decide_eq_true_eq, ← hpresent]
      exact hfails
    rw [compressFields, if_neg hfield, hvalue, walkFields_value hfield hvalue, if_neg hrefused]
    dsimp only
    rw [if_pos hfails]
    exact ⟨encodeField_coder hpresent field value,
      iff_of_false (show (-1 : ℤ) ≠ 0 by decide) Bool.false_ne_true⟩
  case accepted =>
    intro depth record st field fields hfield value hvalue result hsucceeds hrest parts hst
    have hpresent := encode_present hst
    have haccepted : encodes env stats recipe (parts ++ [.present]) field value = true := by
      rw [encodes, decide_eq_true_eq, ← hpresent]
      exact not_not.mp hsucceeds
    rw [compressFields, if_neg hfield, hvalue, walkFields_value hfield hvalue, if_pos haccepted]
    dsimp only
    rw [if_neg hsucceeds]
    exact hrest _ (encodeField_coder hpresent field value)
  case noEnclosure =>
    intro depth sub formid st parts hst
    rw [compressEnclosures, walkEnclosures]
    exact hst
  case pairOutside =>
    intro depth sub formid st key value rest hrest parts hst
    rw [compressEnclosures, walkEnclosures]
    exact hrest parts hst
  case enclosure =>
    intro depth sub formid st s rest hinstances hrest parts hst
    rw [compressEnclosures, walkEnclosures]
    by_cases hencloses : encloses formid s = true
    · rw [dif_pos hencloses] at hrest
      rw [if_pos hencloses, if_pos hencloses]
      exact hrest _ (hinstances parts hst)
    · rw [dif_neg hencloses] at hrest
      rw [if_neg hencloses, if_neg hencloses]
      exact hrest parts hst
  case noInstance =>
    intro depth sub st parts hst
    rw [compressInstances, walkInstances]
    exact hst
  case pairInside =>
    intro depth sub st key value rest hrest parts hst
    rw [compressInstances, walkInstances]
    exact hrest parts hst
  case oneInstance =>
    -- an instance: what it returns is dropped
    intro depth sub st ss rest hinstance hrest parts hst
    rw [compressInstances, walkInstances]
    exact hrest _ (hinstance _ (encode_present hst)).1

/-- The coder behind a form, and whether it is encoded. -/
theorem compressRecord_tracks (record : Record) :
    (compressRecordWithSubforms env stats findRecipe recipe record (newState recipe)).2.coder =
      formCoder env stats recipe (encodedParts env stats findRecipe recipe record) ∧
    ((compressRecordWithSubforms env stats findRecipe recipe record (newState recipe)).1 = 0 ↔
      (walkFields findRecipe (encodes env stats recipe) recipe.fieldList record []).1 = true) :=
  walk_tracks.1 0 recipe.fieldList record (newState recipe) [] newState_coder

def Quiet (env : Environment) (stats : Stats) (recipe : Recipe) (parts : List Part) : Prop :=
  ∀ code ∈ formCodes env stats recipe parts, code = 0

theorem formCodes_append (parts more : List Part) : formCodes env stats recipe (parts ++ more) =
    formCodes env stats recipe parts ++ allCodes (more.flatMap (Part.calls env stats))
      (formCoder env stats recipe parts) := by
  rw [formCodes, formCalls_append, allCodes_append, formCodes, formCoder]

theorem Quiet.before {parts parts' : List Part} (h : parts <+: parts')
    (hquiet : Quiet env stats recipe parts') :
    Quiet env stats recipe parts := by
  obtain ⟨more, rfl⟩ := h
  rw [Quiet, formCodes_append] at hquiet
  exact (List.forall_mem_append.mp hquiet).1

/-- Where no call fails, a field returns what it is meant to return. -/
theorem Quiet.encodes {parts : List Part} {field : Field} {value : CString}
    (h : Quiet env stats recipe (parts ++ [.filled field value])) :
    CompleteForms.encodes env stats recipe parts field value =
      meantToEncode env stats field value := by
  rw [Quiet, formCodes_append, List.flatMap_singleton] at h
  have hcalls : ∀ code ∈ allCodes (recipeEncodeField env field stats value).calls
    (formCoder env stats recipe parts),
      code = 0 := (List.forall_mem_append.mp h).2
  rw [CompleteForms.encodes, meantToEncode, Encoding.run]
  cases (recipeEncodeField env field stats value).returned with
  | code r => rfl
  | lastCall =>
    dsimp only
    rw [decide_eq_true_eq]
    exact encodeCalls_zero hcalls

/-- What a form asks for is what is encoded, if no call fails. -/
theorem encodedParts_eq {record : Record}
    (h : Quiet env stats recipe (encodedParts env stats findRecipe recipe record) ∨
      Quiet env stats recipe (formParts env stats findRecipe recipe record)) :
    encodedParts env stats findRecipe recipe record =
      formParts env stats findRecipe recipe record := by
  have hagrees := (@walk_agrees findRecipe (CompleteForms.encodes env stats recipe)
    (fun _ => meantToEncode env stats) (Quiet env stats recipe) (fun _ _ => Quiet.before)
      fun _ _ _ => Quiet.encodes).1 recipe.fieldList record [] h
  exact congrArg Prod.snd hagrees

theorem freshCoder_settles : Settles freshCoder := (EncoderRun.fresh _).settles

theorem freshCoder_length : freshCoder.bitStreamLength = 8192 := by
  have hlength : freshCoder.bitStreamLength = 8 * (List.replicate 1024 (0 : UInt8)).length := rfl
  rw [hlength, List.length_replicate]

/-- The calls of parts whose symbols lie in their alphabets. -/
theorem quiet_iff {parts : List Part}
    (h : ∀ call ∈ formCalls env stats recipe parts, Legal call) :
    Quiet env stats recipe parts ↔
    (advanceAll fresh (formCalls env stats recipe parts)).out.length ≤ 8192 := by
  have hadvances := allCodes_advances freshCoder_settles h
  rw [← freshCoder_length]
  exact hadvances.zero_iff

theorem conclude_returned (result : ℤ × State) (outSize : ℤ)
    (hneg : (conclude result outSize).returned < 0) :
    (conclude result outSize).returned = -1 := by
  rw [conclude] at hneg ⊢
  split
  case isTrue =>
    rfl
  case isFalse hsucceeds =>
    rw [if_neg hsucceeds] at hneg
    dsimp only at hneg ⊢
    split
    case isTrue =>
      rfl
    case isFalse hfits =>
      rw [if_neg hfits] at hneg
      exact absurd hneg (not_lt.mpr (Int.natCast_nonneg _))

variable (hrecipe : ∀ f ∈ recipe.fieldList, f.Sound)
  (hfind : ∀ formid sub, findRecipe formid = some sub → ∀ f ∈ sub.fieldList, f.Sound)

include hrecipe hfind

/-- The parts of a form have symbols if their values do. -/
theorem formCalls_legal_iff {record : Record}
    (hrecord : AllValues (fun value => value.length < 1000) record) :
    (∀ call ∈ formCalls env stats recipe (formParts env stats findRecipe recipe record),
      Legal call) ↔
      ∀ field value, .filled field value ∈ formParts env stats findRecipe recipe record →
        Encodable env field stats value := by
  obtain ⟨more, hmore, hknown⟩ := (walk_extends (fun _ => meantToEncode env stats) hfind).1
    recipe.fieldList record [] hrecipe hrecord
  have hparts : formParts env stats findRecipe recipe record = more := hmore
  rw [hparts, formCalls, List.forall_mem_append]
  have hhash : ∀ call ∈ recipe.formhash.map fun b =>
    Call.equiprobable 256 b.toNat, Legal call := by
    intro call hcall
    obtain ⟨b, -, rfl⟩ := List.mem_map.mp hcall
    have hbyte := b.toNat_lt
    exact legal_byte (by omega)
  constructor
  · rintro ⟨-, hlegal⟩ field value hmem
    obtain ⟨hsound, hshort⟩ := hknown field value hmem
    refine (legal_iff env hsound stats (by omega)).mp fun call hcall => ?_
    exact hlegal call (List.mem_flatMap.mpr ⟨_, hmem, hcall⟩)
  · intro hvalues
    refine ⟨hhash, ?_⟩
    intro call hcall
    obtain ⟨part, hmem, hcall⟩ := List.mem_flatMap.mp hcall
    cases part with
    | absent =>
      obtain rfl := List.mem_singleton.mp hcall
      exact Or.inr ⟨by omega, by omega, by omega⟩
    | present =>
      obtain rfl := List.mem_singleton.mp hcall
      exact Or.inr ⟨by omega, by omega, by omega⟩
    | filled field value =>
      obtain ⟨hsound, hshort⟩ := hknown field value hmem
      exact (legal_iff env hsound stats (by omega)).mpr (hvalues field value hmem) call hcall

omit hrecipe hfind in
/-- The bits of a conclusion find room, or the coder says that they do not. -/
theorem conclude_iff {record : Record}
    (hsymbols : ∀ call ∈ formCalls env stats recipe
      (encodedParts env stats findRecipe recipe record), Legal call)
    (hquiet : Quiet env stats recipe (encodedParts env stats findRecipe recipe record)) :
    let bits := concludedOnce (advanceAll fresh (formCalls env stats recipe
      (encodedParts env stats findRecipe recipe record)))
    ((concludedForm env stats findRecipe recipe record).1 = 0 ↔ bits.length ≤ 8192) ∧
      ((concludedForm env stats findRecipe recipe record).2.outOfBits = false ↔
        bits.length ≤ 8192) := by
  intro bits
  obtain ⟨hsettles, hphase, hlength⟩ :=
    (allCodes_advances freshCoder_settles hsymbols).settles hquiet
  have hfills := rangeConclude_fills hsettles.holds hsettles.room
  rw [concludedForm, (compressRecord_tracks record).1, formCoder]
  have hbits : bits = concludedOnce (phase (encodeAll (formCalls env stats recipe
      (encodedParts env stats findRecipe recipe record)) freshCoder)) := by
    rw [hphase]
    rfl
  rw [hlength, freshCoder_length] at hfills
  rw [hbits]
  refine ⟨hfills.code, ?_⟩
  rw [hfills.holds.flag, decide_eq_false_iff_not, not_lt]
  exact Iff.rfl

/-- Whether the coder, where it encodes a form, does all of it. -/
theorem complete_iff_sendable {record : Record}
    (hrecord : AllValues (fun value => value.length < 1000) record) :
    Complete env stats findRecipe recipe record ↔
    Sendable env stats findRecipe recipe record := by
  have hlegal := @formCalls_legal_iff env stats findRecipe recipe hrecipe hfind record hrecord
  constructor
  · rintro ⟨hcodes, hsymbols, hconcluded, -⟩
    have hbits := (conclude_iff hsymbols hcodes).1.mp hconcluded
    have hsame := encodedParts_eq (Or.inl hcodes)
    rw [hsame] at hsymbols hbits
    exact ⟨hlegal.mp hsymbols, hbits⟩
  · rintro ⟨hvalues, hbits⟩
    have hsymbols := hlegal.mpr hvalues
    have hquiet := (quiet_iff hsymbols).mpr ((once_extends _).length_le.trans hbits)
    have hsame := encodedParts_eq (Or.inr hquiet)
    rw [← hsame] at hsymbols hquiet hbits
    obtain ⟨hcode, hroom⟩ := conclude_iff hsymbols hquiet
    exact ⟨hquiet, hsymbols, hcode.mpr hbits, hroom.mpr hbits⟩

/-- A form is refused with -1. Otherwise every call of range_encode returned 0 if the
form is sendable, and only then. -/
theorem form_complete_iff (input : CString) (outSize : ℤ) :
    ((compressInput env stats findRecipe recipe input outSize).returned < 0 →
      (compressInput env stats findRecipe recipe input outSize).returned = -1) ∧
    ∀ record, parseStrippedWithSubforms input = some record →
      (Complete env stats findRecipe recipe record ↔
        Sendable env stats findRecipe recipe record) := by
  refine ⟨?_, fun record hrecord => complete_iff_sendable hrecipe hfind (parsed_short hrecord)⟩
  rw [compressInput]
  split
  · exact fun _ => rfl
  · exact conclude_returned _ outSize

end Forms

section Times

def timeField : Field := ⟨text "x", .timedate, 0, 0, 0, []⟩

def timeRecipe : Recipe := ⟨text "f", [1, 2, 3, 4, 5, 6], [timeField]⟩

def utc : Environment where
  frexp := fun _ => (false, 0, 0)
  latlong := fun _ => none
  mktime := fun tm => if tm.year = 120 then 1577836800 else 2208988800
  unwritten := 0

def noRecipes : CString → Option Recipe := fun _ => none

def timeOf (year : String) : CString := text year ++ text "-01-01T00:00:00.00+00:00"

def timeRecord (year : String) : Record := [.pair (text "x") (timeOf year)]

theorem time_walk (accepts : List Part → Field → CString → Bool) (year : String) :
    walkFields noRecipes accepts timeRecipe.fieldList (timeRecord year) [] =
      (accepts [.present] timeField (timeOf year),
        [.present, .filled timeField (timeOf year)]) := by
  have hvalue : valueOf timeField.name (timeRecord year) = some (timeOf year) := rfl
  rw [timeRecipe, walkFields_value (by decide) hvalue, walkFields]
  cases haccepts : accepts [.present] timeField (timeOf year) with
  | false => exact if_neg (by rw [List.nil_append, haccepts]; exact Bool.false_ne_true)
  | true => exact if_pos haccepts

theorem timeRecipe_sound : ∀ f ∈ timeRecipe.fieldList, f.Sound := by
  rw [timeRecipe, List.forall_mem_singleton, Field.Sound, if_neg (by decide)]
  rfl

theorem time_parsed {year : String}
    (hlines : countedLines (text "x=" ++ timeOf year) = [text "x=" ++ timeOf year])
    (hne : timeOf year ≠ []) : parseStrippedWithSubforms (text "x=" ++ timeOf year) =
      some (timeRecord year) := by
  have hkey : text "x=" = [120, 61] := rfl
  have hname : text "x" = [120] := rfl
  rw [parse_iff_adds, hlines, timeRecord, hkey, hname]
  exact Adds.pair (by simp) (by simp) ⟨rfl, by decide, by decide, hne⟩ (by decide) (Adds.nil _)

/-- The first second of 2020 is sent, with all its symbols. -/
theorem complete_2020 :
    Complete utc TextRoundTrip.evenStats noRecipes timeRecipe (timeRecord "2020") := by
  have hrecord := @time_parsed "2020" (by decide +kernel) (by decide +kernel)
  have hparts : formParts utc TextRoundTrip.evenStats noRecipes timeRecipe (timeRecord "2020") =
      [.present, .filled timeField (timeOf "2020")] := congrArg Prod.snd (time_walk _ "2020")
  have hcalls : (recipeEncodeField utc timeField TextRoundTrip.evenStats (timeOf "2020")).calls =
      timeCalls 1577836800 := by decide +kernel
  have hseconds : (acceptedTm utc (timeOf "2020")).map utc.mktime = some 1577836800 := by
    decide +kernel
  refine ((form_complete_iff timeRecipe_sound (by simp [noRecipes])
    (text "x=" ++ timeOf "2020") 1024).2 _ hrecord).mpr ⟨?_, ?_⟩
  · rw [hparts]
    intro field value hmem
    simp only [List.mem_cons, reduceCtorEq, List.not_mem_nil, or_false, false_or,
      Part.filled.injEq] at hmem
    obtain ⟨rfl, rfl⟩ := hmem
    refine ⟨fun _ tm htm => ?_, fun hplace => absurd hplace (by decide), ?_⟩
    · rw [htm, Option.map_some, Option.some.injEq] at hseconds
      rw [hseconds, inEpoch_iff ⟨by decide, by decide⟩]
      decide
    · rw [hcalls]
      simp [Shared, timeCalls]
  · rw [hparts]
    decide +kernel

/-- The first second of 2040 has no symbol, and is sent without it. -/
theorem late_time_sent : ¬ ∀ (env : Environment) (stats : Stats)
    (findRecipe : CString → Option Recipe) (recipe : Recipe)
    (input : CString) (outSize : ℤ) (record : Record), (∀ f ∈ recipe.fieldList, f.Sound) →
      (∀ formid sub, findRecipe formid = some sub → ∀ f ∈ sub.fieldList, f.Sound) →
      TextRoundTrip.Stats.Valid stats → parseStrippedWithSubforms input = some record →
      0 ≤ (compressInput env stats findRecipe recipe input outSize).returned →
      Complete env stats findRecipe recipe record := by
  intro h
  have hrecord := @time_parsed "2040" (by decide +kernel) (by decide +kernel)
  have hwalk := time_walk (encodes utc TextRoundTrip.evenStats timeRecipe) "2040"
  have hparts : encodedParts utc TextRoundTrip.evenStats noRecipes timeRecipe
    (timeRecord "2040") =
      [.present, .filled timeField (timeOf "2040")] := congrArg Prod.snd hwalk
  obtain ⟨hcoder, hsucceeds⟩ :=
    @compressRecord_tracks utc TextRoundTrip.evenStats noRecipes timeRecipe
    (timeRecord "2040")
  have hzero := hsucceeds.mpr ((congrArg Prod.fst hwalk).trans (by decide +kernel))
  rw [hparts] at hcoder
  have hreturned : 0 ≤ (compressInput utc TextRoundTrip.evenStats noRecipes timeRecipe
    (text "x=" ++ timeOf "2040")
      1024).returned := by
    rw [compressInput, hrecord]
    by_contra hneg
    have hrefused := conclude_returned _ 1024 (not_le.mp hneg)
    rcases (conclude_spec _ 1024).2.2.mp hrefused with hfails | hbig
    · omega
    · rw [hcoder] at hbig
      exact absurd hbig (by decide +kernel)
  have hbad :=
    h utc TextRoundTrip.evenStats noRecipes timeRecipe (text "x=" ++ timeOf "2040") 1024
      (timeRecord "2040")
    timeRecipe_sound (by simp [noRecipes]) TextRoundTrip.evenStats_valid hrecord hreturned
  have hcodes := hbad.codes
  rw [hparts] at hcodes
  have hminus := hcodes (-1) (by decide +kernel)
  omega

end Times

end Succinct.CompleteForms
