import Mathlib.Data.List.Forall2
import Succinct.FormMoves

/-!
A form definition and its recipes. The pointer to the current recipe is the end of the
list while recipes are added, the result of the last search while the questions are
read, and the first recipe of the output; the order of the declarations and the binds
decides what the output contains.
-/
namespace Succinct.FormRecipes

open CStrings Recipes NodeLists XhtmlForms FormSteps FormMoves

def RecipeOf (d : Declaration) (specification : Specification) : Prop :=
  specification.formVersion = d.version ∧ impliedFields d.isSubform <+: specification.recipeText

def Complete (declared : List Declaration) (output : List Specification) : Prop :=
  ∃ order : List Declaration, order.Perm declared ∧ List.Forall₂ RecipeOf order output ∧
    ∃ d, order.head? = some d ∧ d.isSubform = false

section Lists

variable {D : List Declaration} {state next : ParseState}

def RecipeFor (d : Declaration) (node : RecipeNode) : Prop :=
  node.formversion = d.version ∧ impliedFields d.isSubform <+: node.recipe

/-- No recipe has been lost: the list has one for each form, and every version that can
be searched for is in it. -/
structure Whole (D : List Declaration) (state : ParseState) : Prop where
  nodes : List.Forall₂ RecipeFor D state.recipes.nodes
  curr : state.recipes.curr = none → state.recipes.nodes = []
  subforms : ∀ version ∈ state.subforms, ∃ d ∈ D, d.version = version
  tags : ∀ tag ∈ state.tags.nodes, ∃ d ∈ D, d.version = tag.formversion

structure Invariant (D : List Declaration) (state : ParseState) : Prop where
  length : state.recipes.nodes.length ≤ D.length
  whole : state.recipes.nodes.length = D.length → Whole D state

theorem forall₂_update {list : NodeList RecipeNode} {f : RecipeNode → RecipeNode}
    (h : List.Forall₂ RecipeFor D list.nodes)
    (hf : ∀ node, list.current = some node → (f node).formversion = node.formversion ∧
      node.recipe <+: (f node).recipe) :
    List.Forall₂ RecipeFor D (list.update f).nodes := by
  rw [List.forall₂_iff_get] at h ⊢
  obtain ⟨hlen, hfor⟩ := h
  refine ⟨hlen.trans NodeList.length_update.symm, fun i hi hi' => ?_⟩
  have hlt : i < list.nodes.length := hlen ▸ hi
  have hold := hfor i hi hlt
  simp only [List.get_eq_getElem] at hold ⊢
  rcases NodeList.getElem?_update (List.getElem?_eq_getElem hi')
    with ⟨hcurr, node, hnode, heq⟩ | ⟨-, hsame⟩
  · obtain ⟨hversion, hpre⟩ := hf node hnode
    rw [NodeList.current, hcurr, Option.bind_some, List.getElem?_eq_getElem hlt] at hnode
    obtain rfl := Option.some.inj hnode
    rw [heq]
    exact ⟨hversion.trans hold.1, hold.2.trans hpre⟩
  · rw [List.getElem?_eq_getElem hlt] at hsame
    rw [← Option.some.inj hsame]
    exact hold

theorem addLine_keeps {type : FieldType} {line : CString} {node node' : RecipeNode}
    (h : addLine type line node = some node') :
    node'.formversion = node.formversion ∧ node.recipe <+: node'.recipe := by
  rw [addLine] at h
  split at h
  · split at h
    · cases h
    · obtain rfl := Option.some.inj h
      exact ⟨rfl, List.prefix_rfl⟩
  · obtain rfl := Option.some.inj h
    exact ⟨rfl, (List.prefix_append _ _).trans (List.prefix_append _ _)⟩

/-- While no recipe is lost, every search finds one. -/
theorem search_ne_none (h : Whole D state) {tag : TagNode} (htag : tag ∈ state.tags.nodes) :
    (state.recipes.search fun node => node.formversion = tag.formversion).curr ≠ none := by
  rintro hcurr
  obtain ⟨d, hd, hversion⟩ := h.tags tag htag
  obtain ⟨i, hi, rfl⟩ := List.mem_iff_getElem.mp hd
  have hlt : i < state.recipes.nodes.length := h.nodes.length_eq ▸ hi
  have hfor := (List.forall₂_iff_get.mp h.nodes).2 i hi hlt
  have hbad := NodeList.curr_search_eq_none.mp hcurr _ (List.getElem_mem hlt)
  rw [decide_eq_false_iff_not] at hbad
  exact hbad (hfor.1.trans hversion)

theorem Whole.update (h : Whole D state) {node : RecipeNode} {f : RecipeNode → RecipeNode}
    (hnode : state.recipes.current = some node)
    (hf : (f node).formversion = node.formversion ∧ node.recipe <+: (f node).recipe) :
    Whole D { state with recipes := state.recipes.update f } := by
  refine ⟨forall₂_update h.nodes ?_, fun hcurr => ?_, h.subforms, h.tags⟩
  · rintro other hother
    obtain rfl := Option.some.inj (hnode.symm.trans hother)
    exact hf
  · have hnone : state.recipes.curr = none := hcurr
    rw [NodeList.current_of_curr_none hnone] at hnode
    cases hnode

theorem Whole.edit (h : Whole D state) (hedit : Edit state next) : Whole D next := by
  cases hedit with
  | @tag el version _ hversion =>
    refine ⟨h.nodes, h.curr, h.subforms, fun tag htag => ?_⟩
    rcases NodeList.mem_add htag with rfl | htag
    · exact h.subforms version hversion
    · exact h.tags tag htag
  | close => exact ⟨h.nodes, h.curr, fun v hv => h.subforms v (List.mem_of_mem_tail hv), h.tags⟩
  | find => exact ⟨h.nodes, h.curr, h.subforms, h.tags⟩
  | search htag =>
    exact ⟨h.nodes, fun hcurr => absurd hcurr (search_ne_none h htag), h.subforms, h.tags⟩
  | line hnode hline => exact h.update hnode (addLine_keeps hline)

theorem length_edit (hedit : Edit state next) :
    next.recipes.nodes.length = state.recipes.nodes.length := by
  cases hedit with
  | line => exact NodeList.length_update
  | _ => rfl

structure Quiet (state next : ParseState) : Prop where
  length : next.recipes.nodes.length = state.recipes.nodes.length
  whole : ∀ D, Whole D state → Whole D next

theorem quiet_edits (hedits : Edits state next) : Quiet state next := by
  induction hedits with
  | refl => exact ⟨rfl, fun _ => id⟩
  | tail _ hedit ih =>
    exact ⟨(length_edit hedit).trans ih.length, fun D h => (ih.whole D h).edit hedit⟩

theorem quiet_characters {x : CString} (h : step state (.characters x) = some next) :
    Quiet state next := by
  rcases characters_steps h with ⟨rfl, -⟩ | ⟨elem, found, node, -, -, hfound, hnode, rfl⟩
  · exact ⟨rfl, fun _ => id⟩
  · obtain ⟨tag, htag, rfl⟩ := Option.map_eq_some_iff.mp hfound
    refine ⟨NodeList.length_update, fun D hD => ?_⟩
    have hwhole := (hD.edit (Edit.search (List.mem_of_find?_eq_some htag))).update hnode
      (f := ({ · with selects := (addOption elem x state.selectFirst node.selects).1 }))
        ⟨rfl, List.prefix_rfl⟩
    exact ⟨hwhole.nodes, hwhole.curr, hwhole.subforms, hwhole.tags⟩

/-- A step keeps the list that has a recipe for each form, with the form that it declares. -/
def Declares (state next : ParseState) (d : Option Declaration) : Prop :=
  ∀ D, Invariant D state → Invariant (D ++ d.toList) next

theorem Declares.of_quiet (h : Quiet state next) : Declares state next none := by
  intro D hinv
  rw [Option.toList_none, List.append_nil]
  exact ⟨h.length ▸ hinv.length, fun hlen => h.whole D (hinv.whole (h.length ▸ hlen))⟩

theorem Declares.trans {middle : ParseState} {d : Option Declaration}
    (h : Declares state middle d)
    (hlen : next.recipes.nodes.length = middle.recipes.nodes.length)
    (hwhole : ∀ D, Whole D middle → Whole D next) : Declares state next d := by
  intro D hinv
  have hmiddle := h D hinv
  exact ⟨hlen ▸ hmiddle.length, fun heq => hwhole _ (hmiddle.whole (hlen ▸ heq))⟩

theorem declares_declareRecipe {isSubform : Bool} {version : CString}
    (h : declareRecipe state isSubform version = some next) :
    Declares state next (some ⟨isSubform, version⟩) := by
  obtain rfl := declareRecipe_eq h
  intro D hinv
  have hadd := @NodeList.length_add_le _ state.recipes
    ⟨state.created, isSubform, version, impliedFields isSubform, []⟩
  have hend := @NodeList.length_add_iff _ state.recipes
    ⟨state.created, isSubform, version, impliedFields isSubform, []⟩
  have hle := hinv.length
  refine ⟨?_, fun hlen => ?_⟩
  · rw [Option.toList_some, List.length_append, List.length_singleton]
    exact hadd.trans (Nat.succ_le_succ hle)
  · rw [Option.toList_some, List.length_append, List.length_singleton] at hlen
    dsimp only at hlen
    obtain ⟨hnodes, hcurr, hsubforms, htags⟩ := hinv.whole (by omega)
    refine ⟨?_, fun hnone => absurd hnone NodeList.curr_add_ne_none, fun v hv => ?_,
      fun tag htag => ?_⟩
    · rw [NodeList.nodes_add (hend.mp (by omega)) hcurr]
      exact List.rel_append hnodes (List.Forall₂.cons ⟨rfl, List.prefix_rfl⟩ List.Forall₂.nil)
    · rcases List.mem_cons.mp hv with rfl | hv
      · exact ⟨_, List.mem_append_right D (List.mem_singleton_self _), rfl⟩
      · obtain ⟨d, hd, hversion⟩ := hsubforms v hv
        exact ⟨d, List.mem_append_left _ hd, hversion⟩
    · obtain ⟨d, hd, hversion⟩ := htags tag htag
      exact ⟨d, List.mem_append_left _ hd, hversion⟩

theorem declares_steps {event : Event} (h : Steps state event next) :
    Declares state next (declaredBy state.inInstance event) := by
  obtain ⟨declared, last, hdeclare, hedits, rfl⟩ := h
  have hquiet := quiet_edits hedits
  have hdeclares : Declares state declared (declaredBy state.inInstance event) := by
    cases hd : declaredBy state.inInstance event with
    | none =>
      rw [hd] at hdeclare
      obtain rfl := Option.some.inj hdeclare
      exact Declares.of_quiet ⟨rfl, fun _ => id⟩
    | some d =>
      rw [hd] at hdeclare
      exact declares_declareRecipe hdeclare
  refine hdeclares.trans hquiet.length fun D hD => ?_
  have hwhole := hquiet.whole D hD
  exact ⟨hwhole.nodes, hwhole.curr, hwhole.subforms, hwhole.tags⟩

theorem declares_step {event : Event} (h : step state event = some next) :
    Declares state next (declaredBy state.inInstance event) ∧
      next.inInstance = instanceAfter state.inInstance event := by
  by_cases hevent : ∃ x, event = .characters x
  · obtain ⟨x, rfl⟩ := hevent
    refine ⟨Declares.of_quiet (quiet_characters h), ?_⟩
    rcases characters_steps h with ⟨rfl, -⟩ | ⟨elem, found, node, -, -, hfound, -, rfl⟩
    · rfl
    · obtain ⟨tag, -, rfl⟩ := Option.map_eq_some_iff.mp hfound
      rfl
  · have hsteps := step_steps (fun x hx => hevent ⟨x, hx⟩) h
    refine ⟨declares_steps hsteps, ?_⟩
    obtain ⟨declared, last, -, -, rfl⟩ := hsteps
    exact inInstance_after _ event

theorem run_invariant {events : List Event} {last : ParseState} (hinv : Invariant D state)
    (hrun : run state events = some last) :
    Invariant (D ++ declarations state.inInstance events) last := by
  induction events generalizing state D with
  | nil =>
    obtain rfl := Option.some.inj hrun
    rw [declarations, List.append_nil]
    exact hinv
  | cons event rest ih =>
    rw [run, List.foldlM_cons] at hrun
    obtain ⟨next, hstep, hrest⟩ := Option.bind_eq_some_iff.mp hrun
    obtain ⟨hdeclares, hinstance⟩ := declares_step hstep
    rw [declarations, ← List.append_assoc, ← hinstance]
    exact ih (hdeclares D hinv) hrest

/-- No recipe is lost in a run, and the first is the current one, exactly if the
document is in order. -/
theorem inOrder_run {events : List Event} {last : ParseState}
    (hrun : run initial events = some last) :
    InOrder (moves events) ↔
      last.recipes.nodes.length = (declarations false events).length ∧
        last.recipes.curr = some 0 := by
  have hlayout := congrArg Layout.forms (layout_moves hrun)
  have hlength : (layout (moves events)).forms.nodes.length = last.recipes.nodes.length := by
    rw [← hlayout]
    exact List.length_map _
  rw [FormMoves.inOrder_iff (known_moves events), hlength, ← hlayout, moves, declared_run]
  rfl

theorem invariant_initial : Invariant [] initial :=
  ⟨le_rfl, fun _ => ⟨List.Forall₂.nil, fun _ =>
    rfl, by simp [initial], by simp [initial, NodeList.empty]⟩⟩

end Lists

section Output

variable {events : List Event} {output : List Specification}

/-- The implied fields tell the main form from a subform. -/
theorem impliedFields_inj {a b : Bool} {s : CString} (ha : impliedFields a <+: s)
    (hb : impliedFields b <+: s) :
    a = b := by
  have hhead : ∀ c : Bool, impliedFields c <+: s → s.head? = some (if c then 102 else 117) := by
    rintro c ⟨rest, rfl⟩
    cases c with
    | false => rfl
    | true => rfl
  have heq := (hhead a ha).symm.trans (hhead b hb)
  revert heq
  cases a <;> cases b <;> simp

theorem recipeOf_finish {d : Declaration} {node : RecipeNode} (h : RecipeFor d node) :
    RecipeOf d (finish node) :=
  ⟨h.1, h.2.trans (List.prefix_append _ _)⟩

theorem recipeOf_map {D : List Declaration} {nodes : List RecipeNode}
    (h : List.Forall₂ RecipeFor D nodes) :
    List.Forall₂ RecipeOf D (nodes.map finish) :=
  List.forall₂_map_right_iff.mpr (h.imp fun _ _ => recipeOf_finish)

/-- Whichever way the forms are matched with the recipes, the first recipe is of one kind. -/
theorem head_isSubform {D order : List Declaration}
    {output : List Specification} {d : Declaration}
    (hD : List.Forall₂ RecipeOf D output) (horder : List.Forall₂ RecipeOf order output)
    (hhead : order.head? = some d) : ∃ d', D.head? = some d' ∧ d'.isSubform = d.isSubform := by
  cases horder with
  | nil => cases hhead
  | cons hfirst =>
    obtain rfl := Option.some.inj hhead
    cases hD with
    | cons hfirst' => exact ⟨_, rfl, impliedFields_inj hfirst'.2 hfirst.2⟩

/-- The recipes of a document are complete exactly if it is in order and declares the
main form first. -/
theorem complete_iff (events : List Event) (output : List Specification)
    (h : xhtmlToRecipe true events = some (0, output)) :
    Complete (declarations false events) output ↔
      InOrder (moves events) ∧
        ∃ d, (declarations false events).head? = some d ∧ d.isSubform = false := by
  obtain ⟨last, hrun, rfl⟩ := output_eq h
  have hlast : Invariant (declarations false events) last := run_invariant invariant_initial hrun
  rw [inOrder_run hrun]
  constructor
  · rintro ⟨order, hperm, hfor, d, hhead, hmain⟩
    have hlength := hfor.length_eq.symm.trans hperm.length_eq
    rw [List.length_map] at hlength
    have hrest : last.recipes.rest.length ≤ last.recipes.nodes.length := NodeList.length_rest_le
    have hle := hlast.length
    have hne : last.recipes.nodes ≠ [] := by
      rintro hnil
      rw [hnil, List.length_nil] at hrest
      rw [List.length_eq_zero_iff.mp (hperm.length_eq.trans (by omega))] at hhead
      cases hhead
    have hcurr := NodeList.curr_of_length_rest hne (by omega)
    have hwhole := hlast.whole (by omega)
    rw [NodeList.rest_of_curr_zero hcurr] at hfor
    obtain ⟨d', hd', hkind⟩ := head_isSubform (recipeOf_map hwhole.nodes) hfor hhead
    exact ⟨⟨by omega, hcurr⟩, d', hd', hkind.trans hmain⟩
  · rintro ⟨⟨hlength, hcurr⟩, hmain⟩
    rw [NodeList.rest_of_curr_zero hcurr]
    exact ⟨_, List.Perm.refl _, recipeOf_map (hlast.whole hlength).nodes, hmain⟩

def bindOf (nodeset type : String) : List Event :=
  [.start (text "bind") [(text "nodeset", text nodeset), (text "type", text type)],
    .stop (text "bind")]

/-- A form with a subform that has one itself, whose last bind is one of its own questions. -/
def nestedForm : List Event :=
  [.start (text "h:html") [],
    .start (text "data") [(ddFormid, text "main")],
    .start (text "age") [], .stop (text "age"),
    .start (text "people") [(ddSubformid, text "sub")],
    .start (text "name") [], .stop (text "name"),
    .start (text "pets") [(ddSubformid, text "pet")],
    .start (text "kind") [], .stop (text "kind"),
    .stop (text "pets"),
    .stop (text "people"),
    .start (text "note") [], .stop (text "note"),
    .stop (text "data")] ++
  bindOf "/data/age" "xsd:int" ++ bindOf "/data/people" "xsd:subform" ++
  bindOf "/data/people/name" "xsd:string" ++ bindOf "/data/people/pets" "xsd:subform" ++
  bindOf "/data/people/pets/kind" "xsd:string" ++ bindOf "/data/note" "xsd:string" ++
  [.stop (text "h:html")]

def nestedRecipes : List Specification :=
  [⟨impliedMetaFields ++ lines ["age:integer:0:999:0", "subform/sub:subform:0:0:0",
      "note:text:0:0:0"], text "main"⟩,
    ⟨impliedMetaFieldsSubforms ++ lines ["name:text:0:0:0", "subform/pet:subform:0:0:0"],
      text "sub"⟩,
    ⟨impliedMetaFieldsSubforms ++ lines ["kind:text:0:0:0"], text "pet"⟩]

theorem complete_nested :
    xhtmlToRecipe true nestedForm = some (0, nestedRecipes) ∧
      Complete (declarations false nestedForm) nestedRecipes := by
  have hrun : xhtmlToRecipe true nestedForm = some (0, nestedRecipes) := by decide +kernel
  refine ⟨hrun, (complete_iff nestedForm nestedRecipes hrun).mpr ⟨⟨?_, ?_⟩, ?_⟩⟩
  · decide +kernel
  · decide +kernel
  · exact ⟨⟨false, text "main"⟩, by decide +kernel, rfl⟩

def formWithSubform : List Event :=
  [.start (text "h:html") [],
    .start (text "data") [(ddFormid, text "main")],
    .start (text "age") [], .stop (text "age"),
    .start (text "people") [(ddSubformid, text "sub")],
    .start (text "name") [], .stop (text "name"),
    .stop (text "people"),
    .stop (text "data"),
    .start (text "bind") [(text "nodeset", text "/data/age"), (text "type", text "xsd:int")],
    .stop (text "bind"),
    .start (text "bind") [(text "nodeset", text "/data/people"),
      (text "type", text "xsd:subform")],
    .stop (text "bind"),
    .start (text "bind") [(text "nodeset", text "/data/people/name"),
      (text "type", text "xsd:string")],
    .stop (text "bind"),
    .stop (text "h:html")]

/-- The recipe of the subform is returned alone. -/
theorem formWithSubform_incomplete :
    ¬ ∀ (events : List Event) (output : List Specification),
    xhtmlToRecipe true events = some (0, output) →
      Complete (declarations false events) output := by
  intro h
  have houtput : xhtmlToRecipe true formWithSubform =
      some (0, [⟨impliedMetaFieldsSubforms ++ text "name:text:0:0:0" ++ [10], text "sub"⟩]) := by
        decide
  obtain ⟨order, hperm, hfor, -⟩ := h _ _ houtput
  have hlength := hfor.length_eq.symm.trans hperm.length_eq
  exact absurd hlength (by decide)

end Output

end Succinct.FormRecipes
