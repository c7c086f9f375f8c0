import Succinct.FormSteps

/-!
Where a document points. It declares forms, and it names questions: in a bind, and in
the select element that a text belongs to. A question is looked up for its form, and
the pointer to the current recipe is where the last declaration or lookup of the
document leads.
-/
namespace Succinct.FormMoves

open CStrings Recipes NodeLists XhtmlForms FormSteps

inductive Move where
  | declare (d : Declaration)
  | find (version : CString)

/-- What a document has said before an event. -/
structure Outline where
  inInstance : Bool
  selectElem : Option CString
  inValue : Bool
  forms : List CString
  subformTags : List CString
  questions : NodeList TagNode

def Outline.start : Outline := ⟨false, none, false, [], [], .empty⟩

def Outline.formOf (o : Outline) (name : CString) : Option CString :=
  (o.questions.nodes.find? fun tag => tag.tagname = name).map (·.formversion)

def bindNames (attr : Attributes) : List CString :=
  attr.filterMap fun a => if startsWith a.1 "nodeset" then afterSlash a.2 else none

def bindsSubform (attr : Attributes) : Bool :=
  strcasecmp ((lastType attr).getD []) (text "xsd:subform")

def Outline.bindMoves (o : Outline) (attr : Attributes) : List Move :=
  if bindsSubform attr then [] else ((bindNames attr).filterMap o.formOf).map .find

def Outline.moves (o : Outline) : Event → List Move
  | .start el attr =>
    (declaredBy o.inInstance (.start el attr)).toList.map .declare ++
      if !o.inInstance && isBind el then o.bindMoves attr else []
  | .characters _ =>
    if o.inValue then ((o.selectElem.bind o.formOf).map .find).toList else []
  | .stop _ => []

def Outline.control (o : Outline) : Control := ⟨o.inInstance, o.selectElem, true, o.inValue⟩

def Outline.setControl (o : Outline) (c : Control) : Outline :=
  { o with inInstance := c.inInstance, selectElem := c.selectElem, inValue := c.inValue }

def Outline.declare (o : Outline) (d : Option Declaration) : Outline :=
  { o with forms := d.toList.map (·.version) ++ o.forms }

def Outline.ask (o : Outline) (el : CString) (attr : Attributes) : Outline :=
  { o with
    questions := o.forms.head?.elim o.questions fun version => o.questions.add ⟨el, version⟩
    subformTags := if (firstAttribute attr ddSubformid).isSome then el :: o.subformTags
      else o.subformTags }

def Outline.look (o : Outline) (name : CString) : Outline :=
  { o with questions := o.questions.search fun tag => tag.tagname = name }

def Outline.close (o : Outline) (el : CString) : Outline :=
  match o.subformTags with
  | [] => o
  | tag :: tags => if strcasecmp tag el
    then { o with subformTags := tags, forms := o.forms.tail } else o

def Outline.after (o : Outline) (event : Event) : Outline :=
  (match event with
  | .start el attr =>
    if o.inInstance then (o.declare (declaredBy o.inInstance event)).ask el attr
    else if isBind el then
      (bindNames attr).foldl Outline.look (o.declare (declaredBy o.inInstance event))
    else o.declare (declaredBy o.inInstance event)
  | .characters _ => o
  | .stop el => o.close el).setControl (o.control.after event)

def Outline.run : Outline → List Event → List Move
  | _, [] => []
  | o, event :: rest => o.moves event ++ (o.after event).run rest

def moves (events : List Event) : List Move := Outline.start.run events

structure Form where
  number : ℕ
  version : CString

/-- The forms whose recipes are there, and the one whose recipe is the current one. -/
structure Layout where
  forms : NodeList Form
  created : ℕ

def Layout.empty : Layout := ⟨.empty, 0⟩

def Layout.move (l : Layout) : Move → Layout
  | .declare d => ⟨l.forms.add ⟨l.created, d.version⟩, l.created + 1⟩
  | .find version => { l with forms := l.forms.search fun form => form.version = version }

def layout (ms : List Move) : Layout := ms.foldl Layout.move .empty

/-- Where the text of an option is looked up: its select element, and the number of the form
that the lookup leads to. -/
def Outline.lookup (o : Outline) (l : Layout) : Event → Option (CString × ℕ)
  | .characters _ =>
    if o.inValue then
      o.selectElem.bind fun elem => (o.formOf elem).bind fun version =>
        (l.move (.find version)).forms.current.map fun form => (elem, form.number)
    else none
  | _ => none

def Outline.lookups : Outline → Layout → List Event → List (CString × ℕ)
  | _, _, [] => []
  | o, l, event :: rest =>
    (o.lookup l event).toList ++ (o.after event).lookups ((o.moves event).foldl Layout.move l) rest

/-- The lookups of the texts in the last part of a document. -/
def lookups (before after : List Event) : List (CString × ℕ) :=
  (before.foldl Outline.after .start).lookups (layout (moves before)) after

section Steps

variable {state middle next : ParseState} {ms ms' : List Move}

def outline (state : ParseState) : Outline where
  inInstance := state.inInstance
  selectElem := state.selectElem
  inValue := state.inValue
  forms := state.subforms
  subformTags := state.subformTags
  questions := state.tags

def form (node : RecipeNode) : Form := ⟨node.number, node.formversion⟩

def layoutOf (state : ParseState) : Layout := ⟨state.recipes.map form, state.created⟩

structure Moved (state : ParseState) (ms : List Move) (o : Outline)
    (next : ParseState) : Prop where
  outline_eq : outline next = o
  layout_eq : layoutOf next = ms.foldl Layout.move (layoutOf state)

theorem Moved.refl (state : ParseState) : Moved state [] (outline state) state := ⟨rfl, rfl⟩

theorem Moved.trans {o o' : Outline} (h : Moved state ms o middle)
    (h' : Moved middle ms' o' next) :
    Moved state (ms ++ ms') o' next :=
  ⟨h'.outline_eq, by rw [h'.layout_eq, h.layout_eq, List.foldl_append]⟩

theorem moved_declare {d : Option Declaration} (h : declare state d = some next) :
    Moved state (d.toList.map .declare) ((outline state).declare d) next := by
  cases d with
  | none =>
    obtain rfl := Option.some.inj h
    exact Moved.refl state
  | some d =>
    obtain rfl := declareRecipe_eq h
    refine ⟨rfl, ?_⟩
    change Layout.mk _ _ = Layout.mk _ _
    rw [NodeList.map_add]
    rfl

theorem layoutOf_search (state : ParseState) (version : CString) :
    Layout.mk ((state.recipes.search fun node => node.formversion = version).map form)
      state.created =
      (layoutOf state).move (.find version) := by
  exact congrArg (Layout.mk · state.created)
    (NodeList.map_search (q := fun form : Form => form.version = version) fun _ => rfl)

/-- A question is looked up, and with it its form. -/
theorem moved_bindNodeset {attr : Attributes} {path : CString} {bind : Bind}
    {p : ParseState × Bind} (hquiet : lastType attr = none → bind.tempType = [])
    (h : bindNodeset attr path state bind = some p) :
    ∃ name, afterSlash path = some name ∧
      Moved state (if bindsSubform attr then []
        else ((outline state).formOf name).toList.map .find)
        ((outline state).look name) p.1 ∧ (lastType attr = none → p.2.tempType = []) := by
  rw [bindNodeset] at h
  cases hname : afterSlash path with
  | none =>
    rw [hname] at h
    cases h
  | some name =>
    have htype : (lastType attr).getD bind.tempType = (lastType attr).getD [] := by
      cases hlast : lastType attr with
      | none => rw [Option.getD_none, Option.getD_none, hquiet hlast]
      | some type => rfl
    have hempty : lastType attr = none → (lastType attr).getD [] = [] := by
      intro hlast
      rw [hlast, Option.getD_none]
    have hfind : (state.tags.search fun tag => tag.tagname = name).current =
        state.tags.nodes.find? fun tag => tag.tagname = name :=
      List.find?_eq_bind_findIdx?_getElem?.symm
    rw [hname] at h
    simp only [htype, hfind] at h
    refine ⟨name, rfl, ?_⟩
    rw [Outline.formOf, bindsSubform]
    change Moved state (if strcasecmp ((lastType attr).getD []) (text "xsd:subform") then []
      else ((state.tags.nodes.find? fun tag => tag.tagname = name).map (·.formversion)).toList.map
        .find) _ _ ∧ _
    cases htag : state.tags.nodes.find? fun tag => tag.tagname = name with
    | none =>
      rw [htag] at h
      obtain rfl := Option.some.inj h
      refine ⟨⟨rfl, ?_⟩, hempty⟩
      rw [Option.map_none, Option.toList_none, List.map_nil, ite_self]
      rfl
    | some tag =>
      rw [htag] at h
      dsimp only at h
      by_cases hsub : strcasecmp ((lastType attr).getD []) (text "xsd:subform")
      · rw [if_pos hsub] at h ⊢
        obtain rfl := Option.some.inj h
        exact ⟨⟨rfl, rfl⟩, hempty⟩
      · rw [if_neg hsub] at h ⊢
        obtain rfl := Option.some.inj h
        exact ⟨⟨rfl, layoutOf_search state tag.formversion⟩, hempty⟩

theorem bindAttribute_looks {attr : Attributes} {p p' : ParseState × Bind} {a : CString × CString}
    (h : bindAttribute attr p a = some p') :
    ∃ looked, (if startsWith a.1 "nodeset" then bindNodeset attr a.2 p.1 p.2 else some p) =
      some looked ∧ p'.1 = looked.1 ∧ p'.2.tempType = looked.2.tempType := by
  obtain ⟨looked, hlooked, rfl⟩ := Option.map_eq_some_iff.mp h
  refine ⟨looked, hlooked, rfl, ?_⟩
  by_cases htype : startsWith a.1 "type"
  · by_cases hconstraint : startsWith a.1 "constraint" <;> simp [htype, hconstraint]
  · by_cases hconstraint : startsWith a.1 "constraint" <;> simp [htype, hconstraint]

/-- The attributes of a bind, one after the other. -/
theorem moved_bindAttributes {attr rest : Attributes} {p p' : ParseState × Bind}
    (hquiet : lastType attr = none → p.2.tempType = [])
    (h : rest.foldlM (bindAttribute attr) p = some p') :
    Moved p.1
      (if bindsSubform attr then []
        else ((bindNames rest).filterMap (outline p.1).formOf).map .find)
      ((bindNames rest).foldl Outline.look (outline p.1)) p'.1 := by
  induction rest generalizing p with
  | nil =>
    obtain rfl := Option.some.inj h
    refine ⟨rfl, ?_⟩
    rw [bindNames, List.filterMap_nil, List.filterMap_nil, List.map_nil, ite_self]
    rfl
  | cons a rest ih =>
    rw [List.foldlM_cons] at h
    obtain ⟨middle, hstep, hrest⟩ := Option.bind_eq_some_iff.mp h
    obtain ⟨looked, hlooked, hstate, htemp⟩ := bindAttribute_looks hstep
    by_cases hnodeset : startsWith a.1 "nodeset"
    · rw [if_pos hnodeset] at hlooked
      obtain ⟨name, hname, hmoved, htype⟩ := moved_bindNodeset hquiet hlooked
      have hnames : bindNames (a :: rest) = name :: bindNames rest := by
        rw [bindNames, List.filterMap_cons_some (by rw [if_pos hnodeset]; exact hname)]
        rfl
      rw [← hstate] at hmoved
      have hboth := hmoved.trans (ih (fun hnone => htemp.trans (htype hnone)) hrest)
      rw [hmoved.outline_eq] at hboth
      rw [hnames, List.foldl_cons]
      refine ⟨hboth.outline_eq, hboth.layout_eq.trans (congrArg (List.foldl _ _) ?_)⟩
      by_cases hsub : bindsSubform attr
      · rw [if_pos hsub, if_pos hsub, if_pos hsub]
        rfl
      · rw [if_neg hsub, if_neg hsub, if_neg hsub]
        cases hform : (outline p.1).formOf name with
        | none =>
          rw [List.filterMap_cons_none hform]
          rfl
        | some version =>
          rw [List.filterMap_cons_some hform]
          rfl
    · rw [if_neg hnodeset] at hlooked
      obtain rfl := Option.some.inj hlooked
      have hnames : bindNames (a :: rest) = bindNames rest := by
        rw [bindNames, List.filterMap_cons_none (by rw [if_neg hnodeset])]
        rfl
      rw [hnames, ← hstate]
      exact ih (fun hnone => htemp.trans (hquiet hnone)) hrest

theorem addLine_form {type : FieldType} {line : CString} {node node' : RecipeNode}
    (h : addLine type line node = some node') : form node' = form node := by
  rw [addLine] at h
  by_cases hchoice : type = .multiselect ∨ type = .enum
  · rw [if_pos hchoice] at h
    by_cases hfull : 1024 ≤ node.selects.length
    · rw [if_pos hfull] at h
      cases h
    · rw [if_neg hfull] at h
      obtain rfl := Option.some.inj h
      rfl
  · rw [if_neg hchoice] at h
    obtain rfl := Option.some.inj h
    rfl

theorem moved_update {node : RecipeNode} {f : RecipeNode → RecipeNode}
    (hnode : state.recipes.current = some node) (hf : form (f node) = form node) :
    Moved state [] (outline state) { state with recipes := state.recipes.update f } := by
  refine ⟨rfl, congrArg (Layout.mk · state.created) (NodeList.update_map fun other hother => ?_)⟩
  obtain rfl := Option.some.inj (hnode.symm.trans hother)
  exact hf

/-- A bind looks its questions up, and adds a line to the recipe. -/
theorem moved_startBind {attr : Attributes} (h : startBind state attr = some next) :
    Moved state ((outline state).bindMoves attr)
      ((bindNames attr).foldl Outline.look (outline state)) next := by
  obtain ⟨⟨found, bind⟩, hfold, hrest⟩ := Option.bind_eq_some_iff.mp h
  have hmoved := moved_bindAttributes (fun _ => rfl) hfold
  dsimp only at hrest
  cases htype : bindType bind with
  | none =>
    rw [htype] at hrest
    obtain rfl := Option.some.inj hrest
    exact hmoved
  | some type =>
    rw [htype] at hrest
    obtain ⟨line, -, hline⟩ := Option.bind_eq_some_iff.mp hrest
    by_cases hlong : 4096 ≤ line.length
    · rw [if_pos hlong] at hline
      cases hline
    · rw [if_neg hlong] at hline
      obtain ⟨node', hnode', rfl⟩ := Option.map_eq_some_iff.mp hline
      obtain ⟨node, hnode, hadd⟩ := Option.bind_eq_some_iff.mp hnode'
      have hboth := hmoved.trans (moved_update (f := fun _ => node') hnode (addLine_form hadd))
      rw [List.append_nil, hmoved.outline_eq] at hboth
      exact hboth

theorem moved_startInInstance {el : CString} {attr : Attributes}
    (h : startInInstance state el attr = some next) :
    Moved state (((firstAttribute attr ddSubformid).map (⟨true, ·⟩)).toList.map .declare)
      (((outline state).declare ((firstAttribute attr ddSubformid).map (⟨true, ·⟩))).ask el attr)
      next := by
  rw [startInInstance] at h
  cases hsub : firstAttribute attr ddSubformid with
  | some version =>
    rw [hsub] at h
    dsimp only at h
    by_cases hfull : MAXSUBFORMS ≤ state.subformTags.length + 1
    · rw [if_pos hfull] at h
      cases h
    · rw [if_neg hfull] at h
      obtain ⟨declared, hdeclared, rfl⟩ := Option.map_eq_some_iff.mp h
      have hmoved := moved_declare (d := some ⟨true, version⟩) hdeclared
      refine ⟨?_, hmoved.layout_eq⟩
      rw [declareRecipe_eq hdeclared, Outline.ask, hsub]
      rfl
  | none =>
    rw [hsub] at h
    dsimp only at h
    cases hforms : state.subforms with
    | nil =>
      rw [hforms] at h
      obtain rfl := Option.some.inj h
      refine ⟨?_, rfl⟩
      rw [Outline.ask, hsub]
      simp [Outline.declare, outline, hforms]
    | cons version versions =>
      rw [hforms] at h
      obtain rfl := Option.some.inj h
      refine ⟨?_, rfl⟩
      rw [Outline.ask, hsub]
      simp [Outline.declare, outline, hforms]

/-- In the data an element may declare a form, and is a question. -/
theorem moved_inside {el : CString} {attr : Attributes}
    (hform : startForm state attr = some middle)
    (h : startInInstance middle el attr = some next) :
    Moved state ((declaredBy true (.start el attr)).toList.map .declare)
      (((outline state).declare (declaredBy true (.start el attr))).ask el attr) next := by
  rw [declare_startForm] at hform
  have hfirst := moved_declare hform
  have hboth := hfirst.trans (moved_startInInstance h)
  rw [hfirst.outline_eq] at hboth
  rw [declaredBy]
  cases hattr : firstAttribute attr ddFormid with
  | some version =>
    rw [hattr, firstAttribute_subform hattr] at hboth
    exact hboth
  | none =>
    rw [hattr] at hboth
    exact hboth

theorem control_look (names : List CString) (o : Outline) :
    (names.foldl Outline.look o).control = o.control := by
  induction names generalizing o with
  | nil => rfl
  | cons name rest ih => exact ih (o.look name)

/-- The flag of the first option is not a part of the outline. -/
theorem setControl_after (o : Outline) (state : ParseState) (event : Event) :
    o.setControl ((outline state).control.after event) =
      o.setControl ((control state).after event) := by
  have hstate : (outline state).control = { control state with selectFirst := true } := rfl
  rw [hstate]
  cases event with
  | characters x => rfl
  | stop el => rfl
  | start el attr =>
    rw [Control.after, Control.after]
    dsimp only
    by_cases hbody : ((control state).inInstance || isBind el) = true
    · rw [if_pos hbody, if_pos hbody]
      rfl
    rw [if_neg hbody, if_neg hbody]
    by_cases hselect : isSelect el = true
    · rw [if_pos hselect, if_pos hselect]
      cases selectField attr with
      | none => rfl
      | some field => rfl
    rw [if_neg hselect, if_neg hselect]
    by_cases hvalue : ((control state).selectElem.isSome && isValue el) = true
    · rw [if_pos hvalue, if_pos hvalue]
      rfl
    rw [if_neg hvalue, if_neg hvalue]
    by_cases hdata : isData el = true
    · rw [if_pos hdata, if_pos hdata]
      rfl
    · rw [if_neg hdata, if_neg hdata]
      rfl

theorem moved_start {el : CString} {attr : Attributes}
    (h : startXhtml state el attr = some next) :
    Moved state ((outline state).moves (.start el attr)) ((outline state).after (.start el attr))
      next := by
  obtain ⟨middle, hform, hrest⟩ := Option.bind_eq_some_iff.mp h
  have hdeclare := hform
  rw [declare_startForm] at hdeclare
  have hfirst := moved_declare hdeclare
  have hcontrol := control_declare hdeclare
  have hinstance : middle.inInstance = state.inInstance := congrArg Control.inInstance hcontrol
  rw [Outline.moves, Outline.after]
  by_cases hinside : state.inInstance = true
  · have hafter : (outline state).control.after (.start el attr) = (outline state).control := by
      simp [Control.after, Outline.control, outline, hinside]
    have hin : (outline state).inInstance = true := hinside
    rw [if_pos (hinstance.trans hinside)] at hrest
    rw [hin, Bool.not_true, Bool.false_and, if_neg Bool.false_ne_true,
      List.append_nil, if_pos rfl, hafter]
    exact moved_inside hform hrest
  rw [if_neg (hinstance ▸ hinside)] at hrest
  rw [Bool.not_eq_true] at hinside
  have hout : (outline state).inInstance = false := hinside
  rw [← declaredBy_outside el] at hfirst
  rw [hout, Bool.not_false, Bool.true_and, if_neg Bool.false_ne_true]
  by_cases hbind : isBind el = true
  · have hafter : (outline state).control.after (.start el attr) = (outline state).control := by
      simp [Control.after, hbind]
    rw [if_pos hbind] at hrest
    rw [if_pos hbind, if_pos hbind, hafter]
    have hboth := hfirst.trans (moved_startBind hrest)
    rw [hfirst.outline_eq] at hboth
    refine ⟨hboth.outline_eq.trans ?_, hboth.layout_eq⟩
    have hlook := control_look (bindNames attr)
      ((outline state).declare (declaredBy false (.start el attr)))
    have hsame : ((outline state).declare (declaredBy false (.start el attr))).control =
        (outline state).control := rfl
    rw [← hsame, ← hlook]
    rfl
  · rw [if_neg hbind] at hrest
    rw [if_neg hbind, if_neg hbind, List.append_nil]
    obtain rfl := start_outside (hinstance.trans hinside) (Bool.not_eq_true _ ▸ hbind) hrest
    refine ⟨?_, hfirst.layout_eq⟩
    rw [setControl_after, ← hfirst.outline_eq, hcontrol]
    rfl

theorem moved_stop {el : CString} (h : endXhtml state el = some next) :
    Moved state ((outline state).moves (.stop el)) ((outline state).after (.stop el)) next := by
  rw [endXhtml, endSubform] at h
  rw [Outline.moves, Outline.after, Outline.close]
  dsimp only at h
  have htags : (outline state).subformTags = state.subformTags := rfl
  rw [htags]
  cases hopen : state.subformTags with
  | nil =>
    rw [hopen] at h
    obtain rfl := Option.some.inj h
    refine ⟨?_, rfl⟩
    dsimp only
    rw [← hopen]
    rfl
  | cons tag tags =>
    rw [hopen] at h
    dsimp only at h ⊢
    by_cases hclosed : strcasecmp tag el
    · rw [if_pos hclosed] at h ⊢
      by_cases hlast : state.subforms.tail = []
      · rw [if_pos hlast] at h
        cases h
      · rw [if_neg hlast] at h
        obtain rfl := Option.some.inj h
        exact ⟨rfl, rfl⟩
    · rw [if_neg hclosed] at h ⊢
      obtain rfl := Option.some.inj h
      refine ⟨?_, rfl⟩
      rw [← hopen]
      rfl

/-- The text of an option looks up the form of its select element. -/
theorem moved_characters {x : CString} (h : step state (.characters x) = some next) :
    Moved state ((outline state).moves (.characters x)) ((outline state).after (.characters x))
      next := by
  rw [Outline.moves, Outline.after]
  change Moved state (if state.inValue then _ else _) (outline state) next
  rcases characters_steps h
    with ⟨hsame, hidle⟩ | ⟨elem, found, node, helem, hvalue, hfound, hnode, rfl⟩
  · have hnothing : (if state.inValue then (((outline state).selectElem.bind
        (outline state).formOf).map Move.find).toList else []) = [] := by
      rcases hidle with hselect | hvalue
      · have hnone : (outline state).selectElem = none := hselect
        rw [hnone, Option.bind_none, Option.map_none, Option.toList_none, ite_self]
      · rw [hvalue, if_neg Bool.false_ne_true]
    rw [hsame, hnothing]
    exact Moved.refl state
  · obtain ⟨tag, htag, rfl⟩ := Option.map_eq_some_iff.mp hfound
    have hsome : (outline state).selectElem = some elem := helem
    have hform : (outline state).formOf elem = some tag.formversion :=
      Option.map_eq_some_iff.mpr ⟨tag, htag, rfl⟩
    have hupdate := moved_update
      (f := ({ · with selects := (addOption elem x state.selectFirst node.selects).1 })) hnode rfl
    refine ⟨rfl, ?_⟩
    rw [if_pos hvalue, hsome, Option.bind_some, hform]
    exact hupdate.layout_eq.trans (layoutOf_search state tag.formversion)

theorem moved_step {event : Event} (h : step state event = some next) :
    Moved state ((outline state).moves event) ((outline state).after event) next := by
  cases event with
  | start el attr => exact moved_start h
  | characters x => exact moved_characters h
  | stop el => exact moved_stop h

theorem moved_run {events : List Event} (h : run state events = some next) :
    layoutOf next = ((outline state).run events).foldl Layout.move (layoutOf state) := by
  induction events generalizing state with
  | nil =>
    obtain rfl := Option.some.inj h
    rfl
  | cons event rest ih =>
    rw [run, List.foldlM_cons] at h
    obtain ⟨middle, hstep, hrest⟩ := Option.bind_eq_some_iff.mp h
    have hmoved := moved_step hstep
    rw [ih hrest, hmoved.outline_eq, hmoved.layout_eq, Outline.run, List.foldl_append]

theorem outline_run {events : List Event} (h : run state events = some next) :
    outline next = events.foldl Outline.after (outline state) := by
  induction events generalizing state with
  | nil =>
    obtain rfl := Option.some.inj h
    rfl
  | cons event rest ih =>
    rw [run, List.foldlM_cons] at h
    obtain ⟨middle, hstep, hrest⟩ := Option.bind_eq_some_iff.mp h
    rw [ih hrest, (moved_step hstep).outline_eq, List.foldl_cons]

/-- The recipes are there as the moves of the document tell. -/
theorem layout_moves {events : List Event} (h : run initial events = some next) :
    layoutOf next = layout (moves events) := moved_run h

end Steps

section Order

variable {ms : List Move}

def declared (ms : List Move) : List Declaration :=
  ms.filterMap fun
    | .declare d => some d
    | .find _ => none

/-- The form that the last move leads to, as the number of those before it: a lookup
leads to the first one with the version. -/
def target (ms : List Move) : Option ℕ :=
  ms.getLast?.bind fun
    | .declare _ => some ((declared ms).length - 1)
    | .find version => (declared ms).findIdx? fun d => d.version = version

/-- Where a form is declared, the moves before it lead to the last form there is. -/
def Tidy (ms : List Move) : Prop :=
  ∀ before d, before ++ [.declare d] <+: ms →
    ∀ i ∈ target before, i + 1 = (declared before).length

structure InOrder (ms : List Move) : Prop where
  tidy : Tidy ms
  ends : target ms = some 0

def Known (ms : List Move) : Prop :=
  ∀ before version, before ++ [.find version] <+: ms → ∃ d ∈ declared before, d.version = version

theorem declared_append (ms ms' : List Move) :
    declared (ms ++ ms') = declared ms ++ declared ms' :=
  List.filterMap_append

def Move.declares : Move → Bool
  | .declare _ => true
  | .find _ => false

theorem tidy_iff_inits (ms : List Move) :
    Tidy ms ↔ ∀ ms' ∈ ms.inits, ms'.getLast?.any Move.declares = true →
      ∀ i ∈ target ms'.dropLast, i + 1 = (declared ms'.dropLast).length := by
  constructor
  · intro h ms' hms' hlast
    obtain ⟨m, hm, hdeclares⟩ := (Option.any_eq_true _ _).mp hlast
    have hconcat := List.dropLast_append_getLast? m hm
    cases m with
    | declare d =>
      apply h _ d
      rw [hconcat]
      exact (List.mem_inits _ _).mp hms'
    | find version => cases hdeclares
  · intro h before d hpre
    have hbefore := h _ (List.mem_inits _ _ |>.mpr hpre)
    rw [List.getLast?_concat, List.dropLast_concat] at hbefore
    exact hbefore rfl

instance (ms : List Move) : Decidable (Tidy ms) := decidable_of_iff' _ (tidy_iff_inits ms)

theorem target_declare (ms : List Move) (d : Declaration) :
    target (ms ++ [.declare d]) = some (declared ms).length := by
  rw [target, List.getLast?_concat, Option.bind_some, declared_append]
  exact congrArg some (by rw [List.length_append]; rfl)

theorem target_find (ms : List Move) (version : CString) :
    target (ms ++ [.find version]) = (declared ms).findIdx? fun d => d.version = version := by
  rw [target, List.getLast?_concat, Option.bind_some, declared_append]
  exact congrArg (List.findIdx? _) (List.append_nil _)

theorem tidy_declare {d : Declaration} :
    Tidy (ms ++ [.declare d]) ↔ Tidy ms ∧ ∀ i ∈ target ms, i + 1 = (declared ms).length := by
  constructor
  · intro h
    exact ⟨fun before d' hpre => h before d' (hpre.trans (List.prefix_append _ _)),
      h ms d List.prefix_rfl⟩
  · rintro ⟨hbefore, hlast⟩ before d' hpre
    rcases List.prefix_concat_iff.mp hpre with heq | hpre
    · rw [(List.append_inj' heq rfl).1]
      exact hlast
    · exact hbefore before d' hpre

theorem tidy_find {version : CString} : Tidy (ms ++ [.find version]) ↔ Tidy ms := by
  constructor
  · intro h before d hpre
    exact h before d (hpre.trans (List.prefix_append _ _))
  · intro h before d hpre
    rcases List.prefix_concat_iff.mp hpre with heq | hpre
    · cases (List.append_inj' heq rfl).2
    · exact h before d hpre

theorem layout_concat (ms : List Move) (m : Move) : layout (ms ++ [m]) = (layout ms).move m := by
  rw [layout, layout, List.foldl_append]
  rfl

/-- The forms that are there: all of them exactly in a tidy document, and then the
pointer is where the last move leads. -/
structure Laid (ms : List Move) : Prop where
  length : (layout ms).forms.nodes.length ≤ (declared ms).length
  tidy : (layout ms).forms.nodes.length = (declared ms).length ↔ Tidy ms
  versions : Tidy ms → (layout ms).forms.nodes.map (·.version) = (declared ms).map (·.version)
  curr : Tidy ms → (layout ms).forms.curr = target ms
  nothing : target ms = none → declared ms = []

theorem Laid.declare (h : Laid ms) (d : Declaration) : Laid (ms ++ [.declare d]) := by
  have hdeclared : declared (ms ++ [.declare d]) = declared ms ++ [d] := declared_append ms _
  have hlayout : (layout (ms ++ [.declare d])).forms =
      (layout ms).forms.add ⟨(layout ms).created, d.version⟩ := by
    rw [layout_concat]
    rfl
  have hle := h.length
  have hadd : ((layout ms).forms.add ⟨(layout ms).created, d.version⟩).nodes.length ≤ _ :=
    NodeList.length_add_le
  have hend : ((layout ms).forms.add ⟨(layout ms).created, d.version⟩).nodes.length = _ ↔ _ :=
    NodeList.length_add_iff
  have hplace : Tidy ms → (layout ms).forms.nodes.length = (declared ms).length →
      ((layout ms).forms.AtEnd ↔ ∀ i ∈ target ms, i + 1 = (declared ms).length) := by
    intro htidy hlength
    rw [NodeList.AtEnd, h.curr htidy, hlength]
  have hempty : Tidy ms → (layout ms).forms.curr = none → (layout ms).forms.nodes = [] := by
    intro htidy hnone
    rw [h.curr htidy] at hnone
    rw [← List.length_eq_zero_iff, h.tidy.mpr htidy, h.nothing hnone, List.length_nil]
  refine ⟨?_, ?_, ?_, ?_, fun hnone => ?_⟩
  · rw [hlayout, hdeclared, List.length_append, List.length_singleton]
    omega
  · rw [hlayout, hdeclared, List.length_append, List.length_singleton, tidy_declare]
    constructor
    · intro hlength
      have htidy := h.tidy.mp (by omega)
      exact ⟨htidy, (hplace htidy (by omega)).mp (hend.mp (by omega))⟩
    · rintro ⟨htidy, hlast⟩
      have hlength := h.tidy.mpr htidy
      rw [hend.mpr ((hplace htidy hlength).mpr hlast), hlength]
  · intro hboth
    obtain ⟨htidy, hlast⟩ := tidy_declare.mp hboth
    have hatEnd := (hplace htidy (h.tidy.mpr htidy)).mpr hlast
    rw [hlayout, hdeclared, NodeList.nodes_add hatEnd (hempty htidy), List.map_append,
      h.versions htidy, List.map_append]
    rfl
  · intro hboth
    obtain ⟨htidy, hlast⟩ := tidy_declare.mp hboth
    have hlength := h.tidy.mpr htidy
    rw [hlayout, target_declare,
      NodeList.curr_add ((hplace htidy hlength).mpr hlast) (hempty htidy), hlength]
  · rw [target_declare] at hnone
    cases hnone

theorem Laid.find (h : Laid ms) {version : CString}
    (hknown : ∃ d ∈ declared ms, d.version = version) : Laid (ms ++ [.find version]) := by
  have hdeclared : declared (ms ++ [.find version]) = declared ms := by
    rw [declared_append]
    exact List.append_nil _
  have hlayout : (layout (ms ++ [.find version])).forms =
      (layout ms).forms.search fun form => form.version = version := by
    rw [layout_concat]
    rfl
  refine ⟨?_, ?_, ?_, ?_, fun hnone => ?_⟩
  · rw [hlayout, hdeclared]
    exact h.length
  · rw [hlayout, hdeclared, tidy_find]
    exact h.tidy
  · rw [hlayout, hdeclared, tidy_find]
    exact h.versions
  · rw [hlayout, target_find, tidy_find]
    intro htidy
    have hforms := List.findIdx?_map (p := fun v : CString => decide (v = version))
      (f := Form.version) (l := (layout ms).forms.nodes)
    have hdeclarations := List.findIdx?_map (p := fun v : CString => decide (v = version))
      (f := Declaration.version) (l := declared ms)
    rw [h.versions htidy, hdeclarations] at hforms
    exact hforms.symm
  · obtain ⟨d, hd, hversion⟩ := hknown
    rw [target_find, List.findIdx?_eq_none_iff] at hnone
    exact absurd hversion (of_decide_eq_false (hnone d hd))

theorem laid (ms : List Move) (hknown : Known ms) : Laid ms := by
  induction ms using List.reverseRecOn with
  | nil => exact ⟨le_rfl, ⟨fun _ before d hpre => by simp at hpre, fun _ => rfl⟩, fun _ => rfl,
      fun _ => rfl, fun _ => rfl⟩
  | append_singleton ms m ih =>
    have hbefore := ih fun before version hpre =>
      hknown before version (hpre.trans (List.prefix_append _ _))
    cases m with
    | declare d => exact hbefore.declare d
    | find version => exact hbefore.find (hknown ms version List.prefix_rfl)

theorem inOrder_iff (hknown : Known ms) :
    InOrder ms ↔ (layout ms).forms.nodes.length = (declared ms).length ∧
      (layout ms).forms.curr = some 0 := by
  have h := laid ms hknown
  constructor
  · rintro ⟨htidy, hends⟩
    exact ⟨h.tidy.mpr htidy, (h.curr htidy).trans hends⟩
  · rintro ⟨hlength, hcurr⟩
    have htidy := h.tidy.mp hlength
    exact ⟨htidy, (h.curr htidy).symm.trans hcurr⟩

end Order

section Documents

def declarations : Bool → List Event → List Declaration
  | _, [] => []
  | inInstance, event :: rest =>
    (declaredBy inInstance event).toList ++ declarations (instanceAfter inInstance event) rest

variable {o : Outline}

theorem declared_finds (versions : List CString) : declared (versions.map .find) = [] := by
  rw [declared, List.filterMap_map, List.filterMap_eq_nil_iff]
  exact fun _ _ => rfl

theorem declared_event (o : Outline) (event : Event) :
    declared (o.moves event) = (declaredBy o.inInstance event).toList := by
  cases event with
  | start el attr =>
    have hfinds : declared (if !o.inInstance && isBind el then o.bindMoves attr
      else []) = [] := by
      by_cases hbind : (!o.inInstance && isBind el) = true
      · rw [if_pos hbind, Outline.bindMoves]
        by_cases hsub : bindsSubform attr
        · rw [if_pos hsub]
          rfl
        · rw [if_neg hsub]
          exact declared_finds _
      · rw [if_neg hbind]
        rfl
    rw [Outline.moves, declared_append, hfinds, List.append_nil]
    cases declaredBy o.inInstance (.start el attr) <;> rfl
  | characters x =>
    rw [Outline.moves]
    by_cases hvalue : o.inValue
    · rw [if_pos hvalue]
      cases o.selectElem.bind o.formOf <;> rfl
    · rw [if_neg hvalue]
      rfl
  | stop el => rfl

theorem inInstance_outline (o : Outline) (event : Event) :
    (o.after event).inInstance = instanceAfter o.inInstance event :=
  inInstance_after o.control event

theorem declared_run (o : Outline) (events : List Event) :
    declared (o.run events) = declarations o.inInstance events := by
  induction events generalizing o with
  | nil => rfl
  | cons event rest ih =>
    rw [Outline.run, declared_append, declared_event, ih, inInstance_outline, declarations]

structure Sourced (ds : List Declaration) (o : Outline) : Prop where
  forms : ∀ version ∈ o.forms, ∃ d ∈ ds, d.version = version
  questions : ∀ tag ∈ o.questions.nodes, ∃ d ∈ ds, d.version = tag.formversion

theorem Sourced.formOf {ds : List Declaration} (h : Sourced ds o) {name version : CString}
    (hform : o.formOf name = some version) : ∃ d ∈ ds, d.version = version := by
  obtain ⟨tag, htag, rfl⟩ := Option.map_eq_some_iff.mp hform
  exact h.questions tag (List.mem_of_find?_eq_some htag)

theorem Sourced.declare {ds : List Declaration} (h : Sourced ds o) (d : Option Declaration) :
    Sourced (ds ++ d.toList) (o.declare d) := by
  refine ⟨fun version hversion => ?_, fun tag htag => ?_⟩
  · rcases List.mem_append.mp hversion with hnew | hold
    · obtain ⟨d', hd', rfl⟩ := List.mem_map.mp hnew
      exact ⟨d', List.mem_append_right _ hd', rfl⟩
    · obtain ⟨d', hd', rfl⟩ := h.forms version hold
      exact ⟨d', List.mem_append_left _ hd', rfl⟩
  · obtain ⟨d', hd', hversion⟩ := h.questions tag htag
    exact ⟨d', List.mem_append_left _ hd', hversion⟩

theorem Sourced.ask {ds : List Declaration} (h : Sourced ds o) (el : CString)
    (attr : Attributes) :
    Sourced ds (o.ask el attr) := by
  refine ⟨h.forms, fun tag htag => ?_⟩
  rw [Outline.ask] at htag
  cases hforms : o.forms with
  | nil =>
    rw [hforms] at htag
    exact h.questions tag htag
  | cons version versions =>
    rw [hforms] at htag
    rcases NodeList.mem_add htag with rfl | hold
    · exact h.forms version (by rw [hforms]; exact List.mem_cons_self)
    · exact h.questions tag hold

theorem Sourced.looks {ds : List Declaration} (h : Sourced ds o) (names : List CString) :
    Sourced ds (names.foldl Outline.look o) := by
  induction names generalizing o with
  | nil => exact h
  | cons name rest ih => exact ih ⟨h.forms, h.questions⟩

theorem Sourced.close {ds : List Declaration} (h : Sourced ds o) (el : CString) :
    Sourced ds (o.close el) := by
  rw [Outline.close]
  cases o.subformTags with
  | nil => exact h
  | cons tag tags =>
    dsimp only
    by_cases hclosed : strcasecmp tag el
    · rw [if_pos hclosed]
      exact ⟨fun version hversion => h.forms version (List.mem_of_mem_tail hversion), h.questions⟩
    · rw [if_neg hclosed]
      exact h

theorem Sourced.after {ds : List Declaration} (h : Sourced ds o) (event : Event) :
    Sourced (ds ++ (declaredBy o.inInstance event).toList) (o.after event) := by
  cases event with
  | start el attr =>
    have hdeclare := h.declare (declaredBy o.inInstance (.start el attr))
    rw [Outline.after]
    by_cases hinside : o.inInstance = true
    · rw [if_pos hinside]
      exact ⟨(hdeclare.ask el attr).forms, (hdeclare.ask el attr).questions⟩
    rw [if_neg hinside]
    by_cases hbind : isBind el = true
    · rw [if_pos hbind]
      exact ⟨(hdeclare.looks _).forms, (hdeclare.looks _).questions⟩
    · rw [if_neg hbind]
      exact ⟨hdeclare.forms, hdeclare.questions⟩
  | characters x =>
    change Sourced (ds ++ []) _
    rw [List.append_nil]
    exact ⟨h.forms, h.questions⟩
  | stop el =>
    change Sourced (ds ++ []) _
    rw [List.append_nil]
    exact ⟨(h.close el).forms, (h.close el).questions⟩

/-- What an event looks up is declared before it. -/
theorem Sourced.find {ds : List Declaration} (h : Sourced ds o) {event : Event}
    {version : CString}
    (hmove : .find version ∈ o.moves event) : ∃ d ∈ ds, d.version = version := by
  cases event with
  | start el attr =>
    rcases List.mem_append.mp hmove with hdeclare | hbind
    · obtain ⟨d, -, hno⟩ := List.mem_map.mp hdeclare
      cases hno
    · by_cases hel : (!o.inInstance && isBind el) = true
      · rw [if_pos hel, Outline.bindMoves] at hbind
        by_cases hsub : bindsSubform attr
        · rw [if_pos hsub] at hbind
          cases hbind
        · rw [if_neg hsub] at hbind
          obtain ⟨version', hfound, hsame⟩ := List.mem_map.mp hbind
          cases hsame
          obtain ⟨name, -, hform⟩ := List.mem_filterMap.mp hfound
          exact h.formOf hform
      · rw [if_neg hel] at hbind
        cases hbind
  | characters x =>
    rw [Outline.moves] at hmove
    by_cases hvalue : o.inValue = true
    · rw [if_pos hvalue, Option.mem_toList] at hmove
      obtain ⟨version', hfound, hsame⟩ := Option.map_eq_some_iff.mp hmove
      cases hsame
      obtain ⟨elem, -, hform⟩ := Option.bind_eq_some_iff.mp hfound
      exact h.formOf hform
    · rw [if_neg hvalue] at hmove
      cases hmove
  | stop el => cases hmove

theorem known_run {ds : List Declaration} (h : Sourced ds o) (events : List Event)
    (before : List Move) (version : CString) (hpre : before ++ [.find version] <+: o.run events) :
    ∃ d ∈ ds ++ declared before, d.version = version := by
  induction events generalizing o ds before with
  | nil => simp [Outline.run] at hpre
  | cons event rest ih =>
    rw [Outline.run] at hpre
    rcases Nat.lt_or_ge before.length (o.moves event).length with hshort | hlong
    · have hfirst : before ++ [.find version] <+: o.moves event := by
        refine List.prefix_of_prefix_length_le hpre (List.prefix_append _ _) ?_
        rw [List.length_append, List.length_singleton]
        omega
      have hmem : Move.find version ∈ o.moves event :=
        hfirst.subset (List.mem_append_right _ (List.mem_singleton_self _))
      obtain ⟨d, hd, hversion⟩ := h.find hmem
      exact ⟨d, List.mem_append_left _ hd, hversion⟩
    · obtain ⟨later, rfl⟩ : o.moves event <+: before :=
        List.prefix_of_prefix_length_le (List.prefix_append _ _)
          ((List.prefix_append _ _).trans hpre) hlong
      rw [List.append_assoc, List.prefix_append_right_inj] at hpre
      obtain ⟨d, hd, hversion⟩ := ih (h.after event) later hpre
      rw [← declared_event, List.append_assoc, ← declared_append] at hd
      exact ⟨d, hd, hversion⟩

theorem known_moves (events : List Event) : Known (moves events) := by
  intro before version hpre
  have hstart : Sourced [] Outline.start :=
    ⟨fun _ hno => absurd hno List.not_mem_nil, fun _ hno => absurd hno List.not_mem_nil⟩
  exact known_run hstart events before version hpre

end Documents

end Succinct.FormMoves
