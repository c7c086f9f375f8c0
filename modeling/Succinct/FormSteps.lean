import Mathlib.Logic.Relation
import Succinct.XhtmlForms

/-!
What an event does to the state of the parser. It declares at most one recipe, then
edits the lists, and last sets the flags that say where in the document the parser is.
-/
namespace Succinct.FormSteps

open CStrings Recipes NodeLists XhtmlForms

structure Declaration where
  isSubform : Bool
  version : CString
  deriving DecidableEq

def declaredBy (inInstance : Bool) : Event → Option Declaration
  | .start _ attr =>
    match firstAttribute attr ddFormid with
    | some version => some ⟨false, version⟩
    | none => if inInstance then (firstAttribute attr ddSubformid).map (⟨true, ·⟩) else none
  | _ => none

def declare (state : ParseState) : Option Declaration → Option ParseState
  | none => some state
  | some d => declareRecipe state d.isSubform d.version

structure Control where
  inInstance : Bool
  selectElem : Option CString
  selectFirst : Bool
  inValue : Bool

def control (state : ParseState) : Control :=
  ⟨state.inInstance, state.selectElem, state.selectFirst, state.inValue⟩

def setControl (state : ParseState) (c : Control) : ParseState :=
  { state with
    inInstance := c.inInstance, selectElem := c.selectElem, selectFirst := c.selectFirst,
      inValue := c.inValue }

/-- The field that a select element is bound to, by the last of its bind attributes. -/
def selectField (attr : Attributes) : Option CString :=
  attr.foldl (fun field a => if strcasecmp (text "bind") a.1
    then some ((afterSlash a.2).getD a.2) else field) none

def Control.after (c : Control) : Event → Control
  | .start el attr =>
    if c.inInstance || isBind el then c
    else if isSelect el then
      match selectField attr with
      | none => c
      | some field => { c with selectElem := some field, selectFirst := true }
    else if c.selectElem.isSome && isValue el then { c with inValue := true }
    else if isData el then { c with inInstance := true }
    else c
  | .characters _ => c
  | .stop el =>
    { c with
      inInstance := c.inInstance && !isData el
      selectElem := if isSelect el then none else c.selectElem
      inValue := c.inValue && !isValue el }

inductive Edit : ParseState → ParseState → Prop where
  | tag {state : ParseState} {el version : CString} {subformTags : List CString}
    (h : version ∈ state.subforms) :
    Edit state { state with tags := state.tags.add ⟨el, version⟩, subformTags }
  | close {state : ParseState} {subformTags : List CString} :
    Edit state { state with subformTags, subforms := state.subforms.tail }
  | find {state : ParseState} {p : TagNode → Bool} :
    Edit state { state with tags := state.tags.search p }
  | search {state : ParseState} {tag : TagNode} (h : tag ∈ state.tags.nodes) :
    Edit state { state with recipes := state.recipes.search fun node =>
      node.formversion = tag.formversion }
  | line {state : ParseState} {node node' : RecipeNode} {type : FieldType} {line : CString}
    (hnode : state.recipes.current = some node) (hline : addLine type line node = some node')
    (hcolon : 58 ∈ line) :
    Edit state { state with recipes := state.recipes.update fun _ => node' }

abbrev Edits : ParseState → ParseState → Prop := Relation.ReflTransGen Edit

variable {state next : ParseState}

theorem setControl_self : setControl state (control state) = state := rfl

theorem Edit.control_eq (h : Edit state next) : control next = control state := by
  cases h <;> rfl

theorem Edits.control_eq (h : Edits state next) : control next = control state := by
  induction h with
  | refl => rfl
  | tail _ hedit ih => exact hedit.control_eq.trans ih

section Start

theorem edits_bindNodeset {attr : Attributes} {path : CString} {bind : Bind}
    {p : ParseState × Bind}
    (h : bindNodeset attr path state bind = some p) : Edits state p.1 := by
  rw [bindNodeset] at h
  cases heq : afterSlash path with
  | none =>
    rw [heq] at h
    cases h
  | some nodeName =>
    rw [heq] at h
    have hfind : Edits state { state
      with tags := state.tags.search fun tag => tag.tagname = nodeName } :=
      Relation.ReflTransGen.single Edit.find
    simp only at h
    cases htag : (state.tags.search fun tag => decide (tag.tagname = nodeName)).current with
    | none =>
      rw [htag] at h
      obtain rfl := Option.some.inj h
      exact hfind
    | some tag =>
      rw [htag] at h
      dsimp only at h
      split at h
      · obtain rfl := Option.some.inj h
        exact hfind
      · obtain rfl := Option.some.inj h
        exact hfind.tail (Edit.search (NodeList.mem_of_current htag))

theorem edits_bindAttribute {attr : Attributes} {p p' : ParseState × Bind} {a : CString × CString}
    (h : bindAttribute attr p a = some p') : Edits p.1 p'.1 := by
  obtain ⟨middle, hmiddle, rfl⟩ := Option.map_eq_some_iff.mp h
  change Edits p.1 middle.1
  split at hmiddle
  · exact edits_bindNodeset hmiddle
  · obtain rfl := Option.some.inj hmiddle
    exact Relation.ReflTransGen.refl

theorem edits_bindAttributes {attr rest : Attributes} {p p' : ParseState × Bind}
    (h : rest.foldlM (bindAttribute attr) p = some p') : Edits p.1 p'.1 := by
  induction rest generalizing p with
  | nil =>
    obtain rfl := Option.some.inj h
    exact Relation.ReflTransGen.refl
  | cons a rest ih =>
    rw [List.foldlM_cons] at h
    obtain ⟨middle, hstep, hrest⟩ := Option.bind_eq_some_iff.mp h
    exact (edits_bindAttribute hstep).trans (ih hrest)

/-- A line has a name and a type. -/
theorem colon_mem_bindLine {bind : Bind} {type : FieldType} {line : CString}
    (h : bindLine state bind type = some line) : 58 ∈ line := by
  rw [bindLine] at h
  by_cases hsub : type = .subform
  · rw [if_pos hsub] at h
    obtain ⟨tag, -, rfl⟩ := Option.map_eq_some_iff.mp h
    exact List.mem_append_right _ List.mem_cons_self
  · rw [if_neg hsub] at h
    obtain rfl := Option.some.inj h
    simp [fieldLine]

theorem edits_startBind {attr : Attributes} (h : startBind state attr = some next) :
    Edits state next := by
  obtain ⟨⟨middle, bind⟩, hfold, hrest⟩ := Option.bind_eq_some_iff.mp h
  have hedits : Edits state middle := edits_bindAttributes hfold
  simp only at hrest
  split at hrest
  · obtain rfl := Option.some.inj hrest
    exact hedits
  · obtain ⟨line, hbind, hline⟩ := Option.bind_eq_some_iff.mp hrest
    split at hline
    · cases hline
    · obtain ⟨node', hnode', rfl⟩ := Option.map_eq_some_iff.mp hline
      obtain ⟨node, hnode, hadd⟩ := Option.bind_eq_some_iff.mp hnode'
      exact hedits.tail (Edit.line hnode hadd (colon_mem_bindLine hbind))

theorem foldl_selectAttribute (attr : Attributes) :
    attr.foldl selectAttribute state =
      (selectField attr).elim state fun field =>
        { state with selectElem := some field, selectFirst := true } := by
  have hfold : ∀ field : Option CString, attr.foldl selectAttribute
      (field.elim state fun field =>
        { state with selectElem := some field, selectFirst := true }) =
      (attr.foldl (fun field a => if strcasecmp (text "bind") a.1
        then some ((afterSlash a.2).getD a.2) else field)
        field).elim state fun field =>
          { state with selectElem := some field, selectFirst := true } := by
    induction attr with
    | nil => exact fun _ => rfl
    | cons a rest ih =>
      intro field
      rw [List.foldl_cons, List.foldl_cons, ← ih, selectAttribute]
      split
      · cases field <;> rfl
      · rfl
  exact hfold none

/-- The first attribute has one name. -/
theorem firstAttribute_subform {attr : Attributes} {version : CString}
    (h : firstAttribute attr ddFormid = some version) :
    firstAttribute attr ddSubformid = none := by
  cases attr with
  | nil => cases h
  | cons a rest =>
    rw [firstAttribute] at h ⊢
    by_cases hname : a.1 = ddFormid
    · rw [if_pos hname] at h
      rw [hname, if_neg (by decide)]
    · rw [if_neg hname] at h
      cases h

theorem edits_startInInstance {el : CString} {attr : Attributes}
    (hattr : firstAttribute attr ddSubformid = none)
    (h : startInInstance state el attr = some next) : Edits state next := by
  rw [startInInstance, hattr] at h
  simp only at h
  split at h
  case h_1 =>
    obtain rfl := Option.some.inj h
    exact Relation.ReflTransGen.refl
  case h_2 version versions hsubforms =>
    obtain rfl := Option.some.inj h
    exact Relation.ReflTransGen.single (Edit.tag (by rw [hsubforms]; exact List.mem_cons_self))

theorem declare_startForm (attr : Attributes) :
    startForm state attr = declare state ((firstAttribute attr ddFormid).map (⟨false, ·⟩)) := by
  rw [startForm]
  cases firstAttribute attr ddFormid <;> rfl

theorem declaredBy_outside (el : CString) (attr : Attributes) :
    declaredBy false (.start el attr) = (firstAttribute attr ddFormid).map (⟨false, ·⟩) := by
  rw [declaredBy]
  cases firstAttribute attr ddFormid <;> rfl

theorem declareRecipe_eq {isSubform : Bool} {version : CString}
    (h : declareRecipe state isSubform version = some next) :
    next = { state with
      recipes := state.recipes.add
        ⟨state.created, isSubform, version, impliedFields isSubform, []⟩
      subforms := version :: state.subforms
      created := state.created + 1 } := by
  rw [declareRecipe] at h
  split at h
  · cases h
  · exact (Option.some.inj h).symm

theorem control_declare {d : Option Declaration} (h : declare state d = some next) :
    control next = control state := by
  cases d with
  | none =>
    obtain rfl := Option.some.inj h
    rfl
  | some d =>
    obtain rfl := declareRecipe_eq h
    rfl

/-- In the instance an element is a form, a subform or a question. -/
theorem start_inside {el : CString} {attr : Attributes} {middle : ParseState}
    (hform : startForm state attr = some middle)
    (hrest : startInInstance middle el attr = some next) :
    ∃ declared, declare state (declaredBy true (.start el attr)) = some declared ∧
    Edits declared next := by
  rw [declare_startForm] at hform
  rw [declaredBy]
  cases hattr : firstAttribute attr ddFormid with
  | some version =>
    rw [hattr] at hform
    exact ⟨middle, hform, edits_startInInstance (firstAttribute_subform hattr) hrest⟩
  | none =>
    rw [hattr] at hform
    obtain rfl := Option.some.inj hform
    simp only [if_true]
    cases hsub : firstAttribute attr ddSubformid with
    | none => exact ⟨state, rfl, edits_startInInstance hsub hrest⟩
    | some version =>
      rw [startInInstance, hsub] at hrest
      simp only at hrest
      split at hrest
      · cases hrest
      obtain ⟨declared, hdeclared, rfl⟩ := Option.map_eq_some_iff.mp hrest
      refine ⟨declared, hdeclared, Relation.ReflTransGen.single (Edit.tag ?_)⟩
      rw [declareRecipe_eq hdeclared]
      exact List.mem_cons_self

end Start

/-- What a step does, except with the text of an option. -/
def Steps (state : ParseState) (event : Event) (next : ParseState) : Prop :=
  ∃ declared last, declare state (declaredBy state.inInstance event) = some declared ∧
    Edits declared last ∧ next = setControl last ((control state).after event)

theorem Steps.of_edits {event : Event} {declared : ParseState}
    (hdeclare : declare state (declaredBy state.inInstance event) = some declared)
    (hedits : Edits declared next)
    (hafter : (control state).after event = control state) : Steps state event next := by
  refine ⟨declared, next, hdeclare, hedits, ?_⟩
  rw [hafter, ← control_declare hdeclare, ← hedits.control_eq, setControl_self]

/-- An element of the body sets flags only. -/
theorem start_outside {el : CString} {attr : Attributes} (hinside : state.inInstance = false)
    (hbind : isBind el = false)
    (h : (if isSelect el then some (attr.foldl selectAttribute state)
      else if state.selectElem.isSome && isValue el then some { state with inValue := true }
      else if isData el then some { state with inInstance := true }
      else some state) = some next) :
    next = setControl state ((control state).after (.start el attr)) := by
  have hbody : ((control state).inInstance || isBind el) = false := by
    rw [hbind, Bool.or_false]
    exact hinside
  rw [Control.after, hbody, if_neg Bool.false_ne_true]
  by_cases hselect : isSelect el = true
  · rw [if_pos hselect] at h ⊢
    rw [← Option.some.inj h, foldl_selectAttribute]
    cases selectField attr with
    | none => rfl
    | some field => rfl
  rw [if_neg hselect] at h ⊢
  by_cases hvalue : (state.selectElem.isSome && isValue el) = true
  · rw [if_pos hvalue] at h
    have hopen : ((control state).selectElem.isSome && isValue el) = true := hvalue
    rw [if_pos hopen, ← Option.some.inj h]
    rfl
  rw [if_neg hvalue] at h
  have hopen : ¬ ((control state).selectElem.isSome && isValue el) = true := hvalue
  rw [if_neg hopen]
  by_cases hdata : isData el = true
  · rw [if_pos hdata] at h ⊢
    rw [← Option.some.inj h]
    rfl
  · rw [if_neg hdata] at h ⊢
    rw [← Option.some.inj h]
    rfl

theorem startXhtml_steps {el : CString} {attr : Attributes}
    (h : startXhtml state el attr = some next) :
    Steps state (.start el attr) next := by
  obtain ⟨middle, hform, hrest⟩ := Option.bind_eq_some_iff.mp h
  have hdeclare := hform
  rw [declare_startForm] at hdeclare
  have hcontrol := control_declare hdeclare
  have hinstance : middle.inInstance = state.inInstance := congrArg Control.inInstance hcontrol
  by_cases hinside : state.inInstance = true
  · rw [if_pos (hinstance.trans hinside)] at hrest
    obtain ⟨declared, hdeclared, hedits⟩ := start_inside hform hrest
    refine Steps.of_edits (by rw [hinside]; exact hdeclared) hedits ?_
    simp [Control.after, control, hinside]
  rw [if_neg (hinstance ▸ hinside)] at hrest
  rw [Bool.not_eq_true] at hinside
  rw [← declaredBy_outside el, ← hinside] at hdeclare
  by_cases hbind : isBind el = true
  · rw [if_pos hbind] at hrest
    exact Steps.of_edits hdeclare (edits_startBind hrest) (by simp [Control.after, hbind])
  · rw [if_neg hbind] at hrest
    refine ⟨middle, middle, hdeclare, Relation.ReflTransGen.refl, ?_⟩
    rw [← hcontrol]
    exact start_outside (hinstance.trans hinside) (Bool.not_eq_true _ ▸ hbind) hrest

def instanceAfter (inInstance : Bool) : Event → Bool
  | .start el _ => inInstance || isData el
  | .characters _ => inInstance
  | .stop el => inInstance && !isData el

/-- An element has one name. -/
theorem not_of_isData {el : CString} (h : isData el = true) :
    isBind el = false ∧ isSelect el = false ∧ isValue el = false := by
  have hel : el.map tolower = text "data" := (strcasecmp_iff.mp h).symm
  have hother : ∀ name : CString, name.map tolower ≠ text "data" →
    strcasecmp name el = false := by
    intro name hname
    rw [strcasecmp, decide_eq_false_iff_not, hel]
    exact hname
  refine ⟨?_, ?_, ?_⟩
  · rw [isBind, hother _ (by decide), hother _ (by decide), Bool.or_false]
  · rw [isSelect, hother _ (by decide), hother _ (by decide), Bool.or_false]
  · rw [isValue, hother _ (by decide), hother _ (by decide), Bool.or_false]

theorem inInstance_after (c : Control) (event : Event) :
    (c.after event).inInstance = instanceAfter c.inInstance event := by
  cases event with
  | characters x => rfl
  | stop el => rfl
  | start el attr =>
    rw [instanceAfter, Control.after]
    cases hdata : isData el with
    | true =>
      obtain ⟨hbind, hselect, hvalue⟩ := not_of_isData hdata
      cases hinstance : c.inInstance <;> simp [hinstance, hbind, hselect, hvalue]
    | false =>
      rw [Bool.or_false]
      split
      · rfl
      split
      · cases selectField attr <;> rfl
      split <;> rfl

theorem endSubform_cases {el : CString} (h : endSubform state el = some next) :
    next = state ∨ ∃ subformTags,
    next = { state with subformTags, subforms := state.subforms.tail } := by
  rw [endSubform] at h
  split at h
  · exact Or.inl (Option.some.inj h).symm
  case h_2 tag tags _ =>
    split at h
    · split at h
      · cases h
      · exact Or.inr ⟨tags, (Option.some.inj h).symm⟩
    · exact Or.inl (Option.some.inj h).symm

theorem endXhtml_steps {el : CString} (h : endXhtml state el = some next) :
    Steps state (.stop el) next := by
  rcases endSubform_cases h with rfl | ⟨subformTags, rfl⟩
  · exact ⟨state, state, rfl, Relation.ReflTransGen.refl, rfl⟩
  · exact ⟨state, _, rfl, Relation.ReflTransGen.single (@Edit.close state subformTags), rfl⟩

theorem step_steps {event : Event} (hevent : ∀ x, event ≠ .characters x)
    (h : step state event = some next) :
    Steps state event next := by
  cases event with
  | start el attr => exact startXhtml_steps h
  | characters x => exact absurd rfl (hevent x)
  | stop el => exact endXhtml_steps h

/-- The text of an option changes the recipe that is found for the select element. -/
theorem characters_steps {x : CString} (h : step state (.characters x) = some next) :
    (next = state ∧ (state.selectElem = none ∨ state.inValue = false)) ∨
      ∃ elem found node, state.selectElem = some elem ∧ state.inValue = true ∧
        searchRecipe state elem = some found ∧ found.recipes.current = some node ∧
        next = addText found elem x node := by
  rw [step, characterdataXhtml] at h
  split at h
  case h_1 hnone =>
    exact Or.inl ⟨(Option.some.inj h).symm, Or.inl hnone⟩
  case h_2 elem helem =>
    by_cases hvalue : state.inValue = true
    · rw [if_pos hvalue] at h
      obtain ⟨found, hfound, hrest⟩ := Option.bind_eq_some_iff.mp h
      obtain ⟨node, hnode, rfl⟩ := Option.map_eq_some_iff.mp hrest
      exact Or.inr ⟨elem, found, node, helem, hvalue, hfound, hnode, rfl⟩
    · rw [if_neg hvalue] at h
      exact Or.inl ⟨(Option.some.inj h).symm, Or.inr (Bool.not_eq_true _ ▸ hvalue)⟩

theorem output_eq {events : List Event} {output : List Specification}
    (h : xhtmlToRecipe true events = some (0, output)) :
    ∃ last, run initial events = some last ∧ output = last.recipes.rest.map finish := by
  obtain ⟨last, hrun, hreturn⟩ := Option.bind_eq_some_iff.mp h
  refine ⟨last, hrun, ?_⟩
  simp only [Bool.not_true, Bool.false_eq_true, if_false] at hreturn
  split at hreturn
  · cases hreturn
  · exact (congrArg Prod.snd (Option.some.inj hreturn)).symm

theorem output_of_run {events : List Event} (h : run initial events = some state)
    (hlength : state.recipes.rest.length ≤ 1024) :
    xhtmlToRecipe true events = some (0, state.recipes.rest.map finish) := by
  rw [xhtmlToRecipe, h, Option.bind_some]
  simp only [Bool.not_true, Bool.false_eq_true, if_false]
  rw [if_neg (not_lt.mpr hlength)]

theorem run_append {before after : List Event} {last : ParseState}
    (h : run state before = some next)
    (h' : run next after = some last) : run state (before ++ after) = some last := by
  rw [run, List.foldlM_append]
  exact Option.bind_eq_some_iff.mpr ⟨next, h, h'⟩

end Succinct.FormSteps
