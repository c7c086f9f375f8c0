import Succinct.FieldEncoding
import Succinct.RecipeRecords

/-!
recipe_compress and compress_record_with_subforms of forms/recipe_compress.c. The
range coder is on the heap: how often it is released, and whether it is used after
that, is recorded, and a coder that was released keeps its contents. The history
of the failures is recorded as well.
-/
namespace Succinct.RecipeCompress

open Arithmetic TextModels CStrings Recipes FieldEncoding RecipeRecords

/-- A field that cannot be encoded, or a recipe that is not found, at this depth of
sub-forms. -/
inductive Failure where
  | field (depth : ℕ)
  | recipe (depth : ℕ)
  deriving DecidableEq

def Failure.depth : Failure → ℕ
  | .field depth => depth
  | .recipe depth => depth

def Failure.isField : Failure → Bool
  | .field _ => true
  | .recipe _ => false

structure State where
  coder : RangeCoder
  released : ℕ
  usedReleased : Bool
  failures : List Failure

namespace State

def start (coder : RangeCoder) : State := ⟨coder, 0, false, []⟩

def use (st : State) : State :=
  { st with usedReleased := st.usedReleased || decide (st.released > 0) }

def encode (st : State) (n t : ℤ) : State :=
  { st.use with coder := (rangeEncodeEquiprobable st.coder n t).2 }

/-- recipe_encode_field; a field without calls does not touch the coder. -/
def encodeField (st : State) (e : Encoding) : ℤ × State :=
  ((e.run st.coder).1, if e.calls = [] then st else { st.use with coder := (e.run st.coder).2 })

def free (st : State) : State := { st with released := st.released + 1 }

def fails (st : State) (failure : Failure) : State :=
  { st with failures := st.failures ++ [failure] }

end State

def subformPrefix : CString := text "subform/"

def valueOf (name : CString) : Record → Option CString
  | [] => none
  | .pair key value :: rest => if strcasecmp key name then some value else valueOf name rest
  | .subrecord _ :: rest => valueOf name rest

def encloses (formid : CString) : Record → Bool
  | [] => false
  | .pair key value :: rest =>
    strcasecmp key (text "formid") && strcasecmp value formid || encloses formid rest
  | .subrecord _ :: rest => encloses formid rest

section Compress

variable (env : Environment) (stats : Stats) (findRecipe : CString → Option Recipe)

mutual

def compressFields (depth : ℕ) (fields : List Field) (record : Record) (st : State) : ℤ × State :=
  match fields with
  | [] => (0, st)
  | field :: fields =>
    if strncasecmp field.name subformPrefix subformPrefix.length then
      match findRecipe (field.name.drop subformPrefix.length) with
      | none => (-1, st.fails (.recipe depth))
      | some recipe =>
        let st := compressEnclosures depth recipe (field.name.drop subformPrefix.length) record st
        compressFields depth fields record (st.encode 2 0)
    else
      match valueOf field.name record with
      | none => compressFields depth fields record (st.encode 2 0)
      | some value =>
        let result := (st.encode 2 1).encodeField (recipeEncodeField env field stats value)
        if result.1 ≠ 0 then (-1, (result.2.fails (.field depth)).free)
        else compressFields depth fields record result.2
termination_by (sizeOf record, 2, fields.length)

def compressEnclosures (depth : ℕ) (recipe : Recipe) (formid : CString) (record : Record)
    (st : State) : State :=
  match record with
  | [] => st
  | .pair _ _ :: rest => compressEnclosures depth recipe formid rest st
  | .subrecord s :: rest =>
    compressEnclosures depth recipe formid rest (if encloses formid s
      then compressInstances depth recipe s st else st)
termination_by (sizeOf record, 1, 0)

/-- The loop over the fields of an enclosure: what an instance returns is dropped. -/
def compressInstances (depth : ℕ) (recipe : Recipe) (record : Record) (st : State) : State :=
  match record with
  | [] => st
  | .pair _ _ :: rest => compressInstances depth recipe rest st
  | .subrecord ss :: rest =>
    compressInstances depth recipe rest
      (compressFields (depth + 1) recipe.fieldList ss (st.encode 2 1)).2
termination_by (sizeOf record, 0, 0)

end

def compressRecordWithSubforms (recipe : Recipe) (record : Record) (st : State) : ℤ × State :=
  compressFields env stats findRecipe 0 recipe.fieldList record st

def encodeHash (hash : List UInt8) (st : State) : State :=
  hash.foldl (fun st b => st.encode 256 b.toNat) st

def bytesUsed (coder : RangeCoder) : ℕ :=
  coder.bitsUsed / 8 + if coder.bitsUsed % 8 ≠ 0 then 1 else 0

structure Compressed where
  returned : ℤ
  out : List UInt8
  state : State

def newState (recipe : Recipe) : State :=
  encodeHash recipe.formhash (.start (rangeNewCoder (List.replicate 1024 0)))

/-- recipe_compress behind the records: the result is stored unless it is too big. -/
def conclude (result : ℤ × State) (outSize : ℤ) : Compressed :=
  if result.1 < 0 then ⟨-1, [], result.2.free⟩
  else
    let st := { result.2.use with coder := (rangeConclude result.2.coder).2 }
    let bytes := bytesUsed st.coder
    if (bytes : ℤ) > outSize then ⟨-1, [], st.free⟩
    else ⟨bytes, st.coder.bitStream.take bytes, st.free⟩

/-- recipe_compress with a coder: the three tests for NULL are passed. -/
def compressInput (recipe : Recipe) (input : CString) (outSize : ℤ) : Compressed :=
  match parseStrippedWithSubforms input with
  | none => ⟨-1, [], (newState recipe).free⟩
  | some record =>
    conclude (compressRecordWithSubforms env stats findRecipe recipe record
      (newState recipe)) outSize

end Compress

/-- What happens to the coder, with the failures that are new: it is released for
each field among them, and not used before that. -/
structure Leads (depth : ℕ) (new : List Failure) (st st' : State) : Prop where
  failures : st'.failures = st.failures ++ new
  released : st'.released = st.released + new.countP Failure.isField
  used : st'.usedReleased = true → st.usedReleased = true ∨ 0 < st'.released
  deep : ∀ f ∈ new, depth ≤ f.depth

namespace Leads

theorem refl (depth : ℕ) (st : State) : Leads depth [] st st :=
  ⟨(List.append_nil _).symm, rfl, Or.inl, by simp⟩

theorem trans {depth : ℕ} {new new' : List Failure} {st₁ st₂ st₃ : State}
    (h : Leads depth new st₁ st₂)
    (h' : Leads depth new' st₂ st₃) : Leads depth (new ++ new') st₁ st₃ where
  failures := by rw [h'.failures, h.failures, List.append_assoc]
  released := by rw [h'.released, h.released, List.countP_append, Nat.add_assoc]
  used := by
    intro hused
    rcases h'.used hused with hused | hreleased
    · rcases h.used hused with hused | hreleased
      · exact Or.inl hused
      · exact Or.inr (by rw [h'.released]; omega)
    · exact Or.inr hreleased
  deep := by
    intro f hf
    rcases List.mem_append.mp hf with hf | hf
    · exact h.deep f hf
    · exact h'.deep f hf

theorem mono {depth depth' : ℕ} {new : List Failure} {st st' : State} (h : Leads depth new st st')
    (hle : depth' ≤ depth) : Leads depth' new st st' :=
  ⟨h.failures, h.released, h.used, fun f hf => hle.trans (h.deep f hf)⟩

theorem use (depth : ℕ) (st : State) : Leads depth [] st st.use := by
  refine ⟨(List.append_nil _).symm, rfl, ?_, by simp⟩
  intro hused
  rcases Bool.or_eq_true_iff.mp hused with hused | hreleased
  · exact Or.inl hused
  · exact Or.inr (of_decide_eq_true hreleased)

theorem encode (depth : ℕ) (st : State) (n t : ℤ) : Leads depth [] st (st.encode n t) :=
  ⟨(use depth st).failures, (use depth st).released, (use depth st).used, (use depth st).deep⟩

theorem encodeField (depth : ℕ) (st : State) (e : Encoding) :
    Leads depth [] st (st.encodeField e).2 := by
  rw [State.encodeField]
  dsimp only
  split
  · exact refl depth st
  · exact ⟨(use depth st).failures, (use depth st).released, (use depth st).used,
      (use depth st).deep⟩

/-- A field fails, and the coder is released. -/
theorem fieldFails (depth : ℕ) (st : State) :
    Leads depth [.field depth] st ((st.fails (.field depth)).free) :=
  ⟨rfl, rfl, fun h => Or.inl h, by simp [Failure.depth]⟩

theorem recipeFails (depth : ℕ) (st : State) :
    Leads depth [.recipe depth] st (st.fails (.recipe depth)) :=
  ⟨rfl, rfl, fun h => Or.inl h, by simp [Failure.depth]⟩

end Leads

section Runs

variable {env : Environment} {stats : Stats} {findRecipe : CString → Option Recipe}

/-- The return code tells of the failures at this depth, and of no others. -/
def Reports (depth : ℕ) (st : State) (result : ℤ × State) : Prop :=
  ∃ new, Leads depth new st result.2 ∧
    (result.1 = 0 ∧ (∀ f ∈ new, depth < f.depth) ∨ result.1 = -1 ∧ ∃ f ∈ new, f.depth = depth)

theorem Reports.after {depth : ℕ} {new : List Failure} {st st' : State} {result : ℤ × State}
    (h : Leads (depth + 1) new st st') (h' : Reports depth st' result) :
    Reports depth st result := by
  obtain ⟨new', hleads, hcode⟩ := h'
  refine ⟨new ++ new', (h.mono (Nat.le_succ depth)).trans hleads, ?_⟩
  rcases hcode with ⟨hzero, hdeep⟩ | ⟨hminus, f, hf, hdepth⟩
  · refine Or.inl ⟨hzero, ?_⟩
    intro f hf
    rcases List.mem_append.mp hf with hf | hf
    · exact h.deep f hf
    · exact hdeep f hf
  · exact Or.inr ⟨hminus, f, List.mem_append_right new hf, hdepth⟩

section Motives

variable (env stats findRecipe)

def FieldsLead (depth : ℕ) (fields : List Field) (record : Record) (st : State) : Prop :=
  Reports depth st (compressFields env stats findRecipe depth fields record st)

def EnclosuresLead (depth : ℕ) (recipe : Recipe) (formid : CString) (record : Record)
    (st : State) : Prop :=
  ∃ new, Leads (depth + 1) new st
    (compressEnclosures env stats findRecipe depth recipe formid record st)

def InstancesLead (depth : ℕ) (recipe : Recipe) (record : Record) (st : State) : Prop :=
  ∃ new, Leads (depth + 1) new st
    (compressInstances env stats findRecipe depth recipe record st)

end Motives

theorem compress_leads :
    (∀ depth fields record st, FieldsLead env stats findRecipe depth fields record st) ∧
    (∀ depth recipe formid record st,
      EnclosuresLead env stats findRecipe depth recipe formid record st) ∧
    (∀ depth recipe record st, InstancesLead env stats findRecipe depth recipe record st) := by
  refine compressFields.mutual_induct env stats findRecipe
    (FieldsLead env stats findRecipe) (EnclosuresLead env stats findRecipe)
    (InstancesLead env stats findRecipe)
    ?noFields ?unknown ?subform ?absent ?refused ?accepted
    ?noEnclosure ?pairOutside ?enclosure ?noInstance ?pairInside ?oneInstance
  case noFields =>
    intro depth record st
    rw [FieldsLead, compressFields]
    exact ⟨[], Leads.refl depth st, Or.inl ⟨rfl, by simp⟩⟩
  case unknown =>
    intro depth record st field fields hsubform hnone
    rw [FieldsLead, compressFields, if_pos hsubform, hnone]
    exact ⟨_, Leads.recipeFails depth st, Or.inr ⟨rfl, _, List.mem_singleton_self _, rfl⟩⟩
  case subform =>
    intro depth record st field fields hsubform recipe hfound st' henclosures hrest
    obtain ⟨new, hleads⟩ := henclosures
    rw [FieldsLead, compressFields, if_pos hsubform, hfound]
    exact hrest.after (hleads.trans (Leads.encode (depth + 1) st' 2 0))
  case absent =>
    intro depth record st field fields hfield hmissing hrest
    rw [FieldsLead, compressFields, if_neg hfield, hmissing]
    exact hrest.after (Leads.encode (depth + 1) st 2 0)
  case refused =>
    intro depth record st field fields hfield value hvalue result hfails
    rw [FieldsLead, compressFields, if_neg hfield, hvalue]
    dsimp only
    rw [if_pos hfails]
    refine ⟨[] ++ [] ++ [.field depth], ?_, Or.inr ⟨rfl, _, List.mem_singleton_self _, rfl⟩⟩
    exact ((Leads.encode depth st 2 1).trans (Leads.encodeField depth _ _)).trans
      (Leads.fieldFails depth result.2)
  case accepted =>
    intro depth record st field fields hfield value hvalue result hsucceeds hrest
    rw [FieldsLead, compressFields, if_neg hfield, hvalue]
    dsimp only
    rw [if_neg hsucceeds]
    exact hrest.after ((Leads.encode (depth + 1) st 2 1).trans
      (Leads.encodeField (depth + 1) _ _))
  case noEnclosure =>
    intro depth recipe formid st
    rw [EnclosuresLead, compressEnclosures]
    exact ⟨[], Leads.refl _ st⟩
  case pairOutside =>
    intro depth recipe formid st key value rest hrest
    rw [EnclosuresLead, compressEnclosures]
    exact hrest
  case enclosure =>
    intro depth recipe formid st s rest hinstances hrest
    rw [EnclosuresLead, compressEnclosures]
    obtain ⟨new', hleads'⟩ := hrest
    by_cases hencloses : encloses formid s = true
    · obtain ⟨new, hleads⟩ := hinstances
      rw [dif_pos hencloses] at hleads'
      rw [if_pos hencloses]
      exact ⟨_, hleads.trans hleads'⟩
    · rw [dif_neg hencloses] at hleads'
      rw [if_neg hencloses]
      exact ⟨_, hleads'⟩
  case noInstance =>
    intro depth recipe st
    rw [InstancesLead, compressInstances]
    exact ⟨[], Leads.refl _ st⟩
  case pairInside =>
    intro depth recipe st key value rest hrest
    rw [InstancesLead, compressInstances]
    exact hrest
  case oneInstance =>
    -- an instance: what it returns is dropped
    intro depth recipe st ss rest hinstance hrest
    obtain ⟨new, hleads, -⟩ := hinstance
    obtain ⟨new', hleads'⟩ := hrest
    rw [InstancesLead, compressInstances]
    exact ⟨_, ((Leads.encode (depth + 1) st 2 1).trans hleads).trans hleads'⟩

theorem conclude_spec (result : ℤ × State) (outSize : ℤ) :
    (conclude result outSize).state.released = result.2.released + 1 ∧
    ((conclude result outSize).state.usedReleased = true → result.2.usedReleased = true ∨
      0 < result.2.released) ∧
    ((conclude result outSize).returned = -1 ↔
      result.1 < 0 ∨ outSize < bytesUsed (rangeConclude result.2.coder).2) := by
  have huse := (Leads.use 0 result.2).used
  rw [conclude]
  by_cases hfails : result.1 < 0
  · rw [if_pos hfails]
    exact ⟨rfl, Or.inl, iff_of_true rfl (Or.inl hfails)⟩
  · rw [if_neg hfails]
    by_cases hbig : (bytesUsed (rangeConclude result.2.coder).2 : ℤ) > outSize
    · rw [if_pos hbig]
      exact ⟨rfl, huse, iff_of_true rfl (Or.inr hbig)⟩
    · rw [if_neg hbig]
      refine ⟨rfl, huse, iff_of_false ?_ ?_⟩
      · change (bytesUsed (rangeConclude result.2.coder).2 : ℤ) ≠ -1
        omega
      · rintro (hneg | hlarge)
        · exact hfails hneg
        · exact hbig hlarge

theorem encodeHash_leads (hash : List UInt8) (st : State) :
    Leads 0 [] st (encodeHash hash st) := by
  induction hash generalizing st with
  | nil => exact Leads.refl 0 st
  | cons b rest ih =>
    have hleads := (Leads.encode 0 st 256 b.toNat).trans (ih (st.encode 256 b.toNat))
    rw [List.append_nil] at hleads
    rw [encodeHash, List.foldl_cons, ← encodeHash]
    exact hleads

/-- Nothing has failed before the first record. -/
theorem encodeHash_start (hash : List UInt8) (coder : RangeCoder) :
    (encodeHash hash (.start coder)).failures = [] ∧
    (encodeHash hash (.start coder)).released = 0 ∧
      (encodeHash hash (.start coder)).usedReleased = false := by
  have hleads := encodeHash_leads hash (.start coder)
  refine ⟨hleads.failures, hleads.released, ?_⟩
  rw [Bool.eq_false_iff]
  intro hused
  rcases hleads.used hused with hstart | hreleased
  · cases hstart
  · rw [hleads.released] at hreleased
    exact absurd hreleased (lt_irrefl 0)

/-- The history of the records of a form. -/
theorem compressRecord_history (recipe : Recipe) (record : Record) {result : ℤ × State}
    (h : compressRecordWithSubforms env stats findRecipe recipe record
      (newState recipe) = result) :
    result.2.released = result.2.failures.countP Failure.isField ∧
    (result.2.usedReleased = true → 0 < result.2.released) ∧
    (result.1 = 0 ∧ (∀ f ∈ result.2.failures, 0 < f.depth) ∨ result.1 = -1 ∧
      ∃ f ∈ result.2.failures, f.depth = 0) := by
  have hreports : Reports 0 (newState recipe) result := by
    rw [← h]
    exact compress_leads.1 0 recipe.fieldList record (newState recipe)
  obtain ⟨hnone, hzero, hunused⟩ :=
    encodeHash_start recipe.formhash (rangeNewCoder (List.replicate 1024 0))
  rw [← newState] at hnone hzero hunused
  obtain ⟨new, hleads, hcode⟩ := hreports
  have hfailures := hleads.failures
  have hreleased := hleads.released
  rw [hnone, List.nil_append] at hfailures
  rw [hzero, Nat.zero_add] at hreleased
  rw [hfailures]
  refine ⟨hreleased, ?_, hcode⟩
  intro hused
  refine (hleads.used hused).resolve_left ?_
  rw [hunused]
  exact Bool.false_ne_true

end Runs

section Whole

variable (env : Environment) (stats : Stats) (findRecipe : CString → Option Recipe)

def compressRecords (recipe : Recipe) (input : CString) : Option (ℤ × State) :=
  (parseStrippedWithSubforms input).map fun record =>
    compressRecordWithSubforms env stats findRecipe recipe record (newState recipe)

def reachedFailures (recipe : Recipe) (input : CString) : List Failure :=
  (compressRecords env stats findRecipe recipe input).elim [] fun result => result.2.failures

def outputSize (recipe : Recipe) (input : CString) : ℕ :=
  (compressRecords env stats findRecipe recipe input).elim 0 fun result =>
    bytesUsed (rangeConclude result.2.coder).2

theorem compressInput_eq {recipe : Recipe} {input : CString} {result : ℤ × State}
    (h : compressRecords env stats findRecipe recipe input = some result) (outSize : ℤ) :
    compressInput env stats findRecipe recipe input outSize = conclude result outSize := by
  obtain ⟨record, hrecord, rfl⟩ := Option.map_eq_some_iff.mp h
  rw [compressInput, hrecord]

/-- A failure fails the form cleanly where it is no field that cannot be encoded, and
where a missing recipe is missed at the top level, or else the output does not fit. -/
theorem failure_iff (recipe : Recipe) (input : CString) (outSize : ℤ) :
    (reachedFailures env stats findRecipe recipe input ≠ [] →
      (compressInput env stats findRecipe recipe input outSize).returned = -1 ∧
      (compressInput env stats findRecipe recipe input outSize).state.released = 1 ∧
      (compressInput env stats findRecipe recipe input outSize).state.usedReleased = false) ↔
    (∀ f ∈ reachedFailures env stats findRecipe recipe input, f.isField = false) ∧
      (reachedFailures env stats findRecipe recipe input = [] ∨
        Failure.recipe 0 ∈ reachedFailures env stats findRecipe recipe input ∨
        outSize < outputSize env stats findRecipe recipe input) := by
  cases hrecords : compressRecords env stats findRecipe recipe input with
  | none => simp [reachedFailures, hrecords]
  | some result =>
    obtain ⟨hreleased, hused, hreturned⟩ := conclude_spec result outSize
    have hfailures : reachedFailures env stats findRecipe recipe input = result.2.failures := by
      rw [reachedFailures, hrecords]
      rfl
    have hsize : outputSize env stats findRecipe recipe input =
      bytesUsed (rangeConclude result.2.coder).2 := by
      rw [outputSize, hrecords]
      rfl
    obtain ⟨record, -, hrun⟩ := Option.map_eq_some_iff.mp hrecords
    obtain ⟨hcount, hclean, hcode⟩ := compressRecord_history recipe record hrun
    rw [compressInput_eq env stats findRecipe hrecords, hfailures, hsize, hreleased, hreturned]
    by_cases hfields : ∀ f ∈ result.2.failures, f.isField = false
    · -- the coder was not released before
      have hzero : result.2.released = 0 := by
        rw [hcount, List.countP_eq_zero]
        intro f hf
        rw [hfields f hf]
        exact Bool.false_ne_true
      have hunused : (conclude result outSize).state.usedReleased = false := by
        rw [Bool.eq_false_iff]
        intro h
        rcases hused h with h | h
        · exact absurd (hclean h) (by omega)
        · omega
      have htop : result.1 < 0 ↔ Failure.recipe 0 ∈ result.2.failures := by
        rcases hcode with ⟨hret, hdeep⟩ | ⟨hret, f, hf, hdepth⟩
        · refine iff_of_false (by omega) ?_
          intro hmem
          exact absurd (hdeep _ hmem) (lt_irrefl 0)
        · refine iff_of_true (by omega) ?_
          cases f with
          | field d => exact absurd (hfields _ hf) (by simp [Failure.isField])
          | recipe d =>
            obtain rfl : d = 0 := hdepth
            exact hf
      simp only [hzero, hunused, htop, Nat.zero_add, and_true, ← or_iff_not_imp_left]
      exact ⟨fun h => ⟨hfields, h⟩, fun h => h.2⟩
    · -- twice at least
      have hpos : 0 < result.2.released := by
        rw [hcount, List.countP_pos_iff]
        by_contra hnone
        apply hfields
        intro f hf
        rw [Bool.eq_false_iff]
        exact fun hfield => hnone ⟨f, hf, hfield⟩
      refine iff_of_false ?_ fun h => hfields h.1
      intro h
      have hne : result.2.failures ≠ [] := by
        intro hnil
        rw [hnil] at hfields
        exact hfields (by simp)
      have htwice := (h hne).2.1
      omega

end Whole

def choiceRecipe : Recipe :=
  ⟨text "f", [1, 2, 3, 4, 5, 6], [⟨text "x", .enum, 0, 0, 0, [text "a"]⟩]⟩

def noFloats : Environment := ⟨fun _ => (false, 0, 0), fun _ => none, fun _ => 0, 0⟩

theorem choice_fails (stats : Stats) (st : State) :
    compressRecordWithSubforms noFloats stats (fun _ => none) choiceRecipe
      [.pair (text "x") (text "b")] st =
      (-1, ((st.encode 2 1).fails (.field 0)).free) := by
  rw [compressRecordWithSubforms, choiceRecipe, compressFields, if_neg (by decide)]
  rfl

/-- The value is no option: the coder is released where the field fails, and again by
recipe_compress. -/
theorem released_twice : ¬ ∀ (env : Environment) (stats : Stats)
    (findRecipe : CString → Option Recipe)
    (recipe : Recipe) (input : CString)
    (outSize : ℤ), reachedFailures env stats findRecipe recipe input ≠ [] →
      (compressInput env stats findRecipe recipe input outSize).returned = -1 ∧
      (compressInput env stats findRecipe recipe input outSize).state.released = 1 ∧
      (compressInput env stats findRecipe recipe input outSize).state.usedReleased = false := by
  intro h
  have hrecords : compressRecords noFloats TextRoundTrip.evenStats
    (fun _ => none) choiceRecipe (text "x=b") =
      some (-1, (((newState choiceRecipe).encode 2 1).fails (.field 0)).free) :=
    congrArg some (choice_fails TextRoundTrip.evenStats (newState choiceRecipe))
  have hfailures : reachedFailures noFloats TextRoundTrip.evenStats (fun _ => none) choiceRecipe
    (text "x=b") ≠ [] := by
    rw [reachedFailures, hrecords]
    exact List.append_ne_nil_of_right_ne_nil _ (List.cons_ne_nil _ _)
  have hbad :=
    (h noFloats TextRoundTrip.evenStats (fun _ => none) choiceRecipe
      (text "x=b") 1024 hfailures).2.1
  rw [compressInput_eq _ _ _ hrecords, (conclude_spec _ _).1] at hbad
  change (newState choiceRecipe).released + 1 + 1 = 1 at hbad
  omega

end Succinct.RecipeCompress
