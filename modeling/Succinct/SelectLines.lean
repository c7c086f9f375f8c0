import Mathlib.Data.List.Nodup
import Succinct.FormSteps
import Succinct.RecipeLines

/-!
The lines that the recipes keep for the choices of a form. A recipe is known by its
number, and a line by its place; a line only grows, by the texts of the options that
reach it.
-/
namespace Succinct.SelectLines

open CStrings Recipes NodeLists XhtmlForms FormSteps RecipeLines

/-- A text within a value, for the select element of a field, with the recipe that is
found for the field as it is before. -/
structure Callback where
  elem : CString
  node : RecipeNode
  first : Bool
  piece : CString

def callback (state : ParseState) : Event → Option Callback
  | .characters x =>
    if state.inValue then
      state.selectElem.bind fun elem =>
        ((searchRecipe state elem).bind fun found => found.recipes.current).map
        fun node => ⟨elem, node, state.selectFirst, x⟩
    else none
  | _ => none

def callbacks : ParseState → List Event → List Callback
  | _, [] => []
  | state, event :: rest =>
    (callback state event).toList ++ (step state event).elim [] fun next => callbacks next rest

def matchesLine (elem line : CString) : Bool := strncasecmp elem line elem.length

def Callback.reaches (number index : ℕ) (c : Callback) : Bool :=
  c.node.number = number && (c.node.selects[index]?).any (matchesLine c.elem)

def Callback.taken (index : ℕ) (c : Callback) : Bool :=
  (c.node.selects.take index).any (matchesLine c.elem)

def Callback.item (index : ℕ) (c : Callback) : Bool × CString :=
  (c.first && !c.taken index, c.piece)

/-- The recipes have numbers of their own, and end with the end of a line. -/
structure Numbered (state : ParseState) : Prop where
  nodup : (state.recipes.nodes.map (·.number)).Nodup
  bound : ∀ node ∈ state.recipes.nodes, node.number < state.created
  closed : ∀ node ∈ state.recipes.nodes, ∃ fields, node.recipe = fields ++ [10]

variable {state next last : ParseState} {node node' : RecipeNode}

theorem Numbered.unique (h : Numbered state) (hnode : node ∈ state.recipes.nodes)
    (hnode' : node' ∈ state.recipes.nodes)
    (hnumber : node'.number = node.number) : node' = node :=
  List.inj_on_of_nodup_map h.nodup hnode' hnode hnumber

section Names

theorem tolower_colon {b : UInt8} (h : tolower b = 58) : b = 58 := by
  rw [tolower] at h
  by_cases hupper : 65 ≤ b ∧ b ≤ 90
  · rw [if_pos hupper] at h
    have hnat := congrArg UInt8.toNat h
    have hlow := UInt8.le_iff_toNat_le.mp hupper.1
    have hhigh := UInt8.le_iff_toNat_le.mp hupper.2
    rw [UInt8.toNat_add] at hnat
    simp at hnat hlow hhigh
    omega
  · rw [if_neg hupper] at h
    exact h

/-- A text goes to the lines whose names begin with the name of its field, in either case. -/
theorem matchesLine_iff {elem name : CString} (tail : CString) (hcolon : 58 ∉ elem) :
    matchesLine elem (name ++ 58 :: tail) = true ↔ elem.map tolower <+: name.map tolower := by
  rw [matchesLine, strncasecmp, List.take_length, strcasecmp_iff, List.map_take,
    List.map_append, List.map_cons]
  have hlength : (elem.map tolower).length = elem.length := List.length_map _
  constructor
  · intro heq
    have hle : elem.length ≤ (name.map tolower).length := by
      by_contra hlong
      have hget : (elem.map tolower)[(name.map tolower).length]? = some (tolower 58) := by
        rw [heq, List.getElem?_take, if_pos (by omega),
          List.getElem?_append_right le_rfl, Nat.sub_self]
        rfl
      rw [List.getElem?_map] at hget
      obtain ⟨b, hb, hlower⟩ := Option.map_eq_some_iff.mp hget
      rw [tolower_colon hlower] at hb
      exact hcolon (List.mem_of_getElem? hb)
    rw [heq, List.take_append_of_le_length hle]
    exact List.take_prefix _ _
  · intro hpre
    have hle := hpre.length_le
    rw [hlength] at hle
    rw [List.take_append_of_le_length hle, ← hlength]
    exact List.prefix_iff_eq_take.mp hpre

def choiceName (line : CString) : CString := line.takeWhile (· ≠ 58)

theorem choiceName_append {name : CString} (tail : CString) (hname : 58 ∉ name) :
    choiceName (name ++ 58 :: tail) = name := by
  have hpos : ∀ b ∈ name, decide (b ≠ 58) = true := fun b hb =>
    decide_eq_true fun heq => hname (heq ▸ hb)
  rw [choiceName, List.takeWhile_append_of_pos hpos, List.takeWhile_cons_of_neg (by simp),
    List.append_nil]

/-- The options behind a line do not matter. -/
theorem matchesLine_append {elem line : CString} (tail : CString) (hcolon : 58 ∉ elem)
    (hline : 58 ∈ line) :
    matchesLine elem (line ++ tail) = true ↔
    elem.map tolower <+: (choiceName line).map tolower := by
  obtain ⟨name, rest, rfl, hname⟩ := List.eq_append_cons_of_mem hline
  rw [choiceName_append rest hname, List.append_assoc]
  exact matchesLine_iff (rest ++ tail) hcolon

end Names

section Numbers

theorem impliedFields_closed (isSubform : Bool) :
    ∃ fields, impliedFields isSubform = fields ++ [10] := by
  cases isSubform with
  | false => exact ⟨impliedMetaFields.dropLast, by decide +kernel⟩
  | true => exact ⟨impliedMetaFieldsSubforms.dropLast, by decide +kernel⟩

theorem numbered_add {isSubform : Bool} {version : CString} (h : Numbered state)
    (hdeclare : declareRecipe state isSubform version = some next) : Numbered next := by
  obtain rfl := declareRecipe_eq hdeclare
  have hfresh : state.created ∉ state.recipes.nodes.map (·.number) := by
    rintro hmem
    obtain ⟨node, hnode, hnumber⟩ := List.mem_map.mp hmem
    exact absurd (h.bound node hnode) (by omega)
  refine ⟨?_, fun node hnode => ?_, fun node hnode => ?_⟩
  · cases hcurr : state.recipes.curr with
    | none =>
      rw [NodeList.add_of_none hcurr]
      exact List.nodup_cons.mpr ⟨hfresh, h.nodup⟩
    | some i =>
      rw [NodeList.add_of_some hcurr, List.map_append, List.nodup_append]
      have hsub : (state.recipes.upTo.map (·.number)).Sublist
        (state.recipes.nodes.map (·.number)) :=
        (List.take_sublist _ _).map _
      refine ⟨h.nodup.sublist hsub, by simp, ?_⟩
      rintro a ha b hb rfl
      obtain rfl := List.mem_singleton.mp hb
      exact hfresh (hsub.subset ha)
  · rcases NodeList.mem_add hnode with rfl | hnode
    · exact Nat.lt_succ_self _
    · exact (h.bound node hnode).trans (Nat.lt_succ_self _)
  · rcases NodeList.mem_add hnode with rfl | hnode
    · exact impliedFields_closed isSubform
    · exact h.closed node hnode

theorem addLine_number {type : FieldType} {line : CString}
    (h : addLine type line node = some node') :
    node'.number = node.number ∧ node.selects <+: node'.selects ∧
      ((∃ fields, node.recipe = fields ++ [10]) → ∃ fields, node'.recipe = fields ++ [10]) := by
  rw [addLine] at h
  split at h
  · split at h
    · cases h
    · obtain rfl := Option.some.inj h
      exact ⟨rfl, List.prefix_append _ _, id⟩
  · obtain rfl := Option.some.inj h
    exact ⟨rfl, List.prefix_rfl, fun _ => ⟨_, rfl⟩⟩

theorem numbered_update {f : RecipeNode → RecipeNode} (h : Numbered state)
    (hnode : state.recipes.current = some node) (hnumber : (f node).number = node.number)
    (hclosed : (∃ fields, node.recipe = fields ++ [10]) →
      ∃ fields, (f node).recipe = fields ++ [10]) :
    Numbered { state with recipes := state.recipes.update f } := by
  have hmem := NodeList.mem_of_current hnode
  have hf : ∀ other, state.recipes.current = some other → (f other).number = other.number := by
    rintro other hother
    obtain rfl := Option.some.inj (hnode.symm.trans hother)
    exact hnumber
  refine ⟨?_, fun other hother => ?_, fun other hother => ?_⟩
  · rw [NodeList.map_update hf]
    exact h.nodup
  · rcases NodeList.mem_update hother with ⟨node', hnode', rfl⟩ | hother
    · rw [hf node' hnode']
      exact h.bound node' (NodeList.mem_of_current hnode')
    · exact h.bound other hother
  · rcases NodeList.mem_update hother with ⟨node', hnode', rfl⟩ | hother
    · obtain rfl := Option.some.inj (hnode.symm.trans hnode')
      exact hclosed (h.closed node hmem)
    · exact h.closed other hother

structure Grown (state next : ParseState) : Prop where
  created : state.created ≤ next.created
  numbered : Numbered state → Numbered next
  nodes : ∀ node' ∈ next.recipes.nodes, node'.number < state.created →
    ∃ node ∈ state.recipes.nodes, node'.number = node.number ∧ node.selects <+: node'.selects

theorem Grown.trans (h : Grown state next) (h' : Grown next last) : Grown state last where
  created := h.created.trans h'.created
  numbered := h'.numbered ∘ h.numbered
  nodes node'' hnode'' hlt := by
    obtain ⟨node', hnode', hnumber', hpre'⟩ := h'.nodes node'' hnode'' (hlt.trans_le h.created)
    obtain ⟨node, hnode, hnumber, hpre⟩ := h.nodes node' hnode' (hnumber' ▸ hlt)
    exact ⟨node, hnode, hnumber'.trans hnumber, hpre.trans hpre'⟩

/-- The same recipes. -/
theorem Grown.of_nodes (hnodes : next.recipes.nodes = state.recipes.nodes)
    (hcreated : next.created = state.created) :
    Grown state next where
  created := hcreated.ge
  numbered h :=
    ⟨hnodes ▸ h.nodup, by rw [hnodes, hcreated]; exact h.bound, by rw [hnodes]; exact h.closed⟩
  nodes node' hnode' _ := ⟨node', hnodes ▸ hnode', rfl, List.prefix_rfl⟩

theorem grown_declare {d : Option Declaration} (h : declare state d = some next) :
    Grown state next := by
  cases d with
  | none =>
    obtain rfl := Option.some.inj h
    exact Grown.of_nodes rfl rfl
  | some d =>
    refine ⟨?_, fun hnumbered => numbered_add hnumbered h, fun node' hnode' hlt => ?_⟩
    · rw [declareRecipe_eq h]
      exact Nat.le_succ _
    · rw [declareRecipe_eq h] at hnode'
      rcases NodeList.mem_add hnode' with rfl | hnode'
      · exact absurd hlt (lt_irrefl _)
      · exact ⟨node', hnode', rfl, List.prefix_rfl⟩

theorem grown_edit (h : Edit state next) : Grown state next := by
  cases h with
  | line hnode hline =>
    obtain ⟨hnumber, hselects, hclosed⟩ := addLine_number hline
    refine ⟨le_rfl, fun hnumbered => numbered_update hnumbered hnode hnumber hclosed,
      fun other hother _ => ?_⟩
    rcases NodeList.mem_update hother with ⟨node', hnode', rfl⟩ | hother
    · obtain rfl := Option.some.inj (hnode.symm.trans hnode')
      exact ⟨_, NodeList.mem_of_current hnode, hnumber, hselects⟩
    · exact ⟨other, hother, rfl, List.prefix_rfl⟩
  | _ => exact Grown.of_nodes rfl rfl

theorem grown_steps {event : Event} (h : Steps state event next) : Grown state next := by
  obtain ⟨declared, last, hdeclare, hedits, rfl⟩ := h
  have hlast : Grown declared last := by
    clear hdeclare
    induction hedits with
    | refl => exact Grown.of_nodes rfl rfl
    | tail _ hedit ih => exact ih.trans (grown_edit hedit)
  exact ((grown_declare hdeclare).trans hlast).trans (Grown.of_nodes rfl rfl)

end Numbers

section Texts

variable {elem x line : CString} {number index : ℕ}

theorem getElem?_addOption (elem x : CString) (first : Bool) (lines : List CString) (i : ℕ) :
    (addOption elem x first lines).1[i]? = (lines[i]?).map fun line =>
      if matchesLine elem line then
        line ++ (if first && !(lines.take i).any (matchesLine elem) then 58 else 44) :: x
      else line := by
  induction lines generalizing first i with
  | nil => simp [addOption]
  | cons line rest ih =>
    rw [addOption]
    by_cases hmatch : strncasecmp elem line elem.length = true
    · rw [if_pos hmatch]
      cases i with
      | zero => simp [matchesLine, hmatch]
      | succ i => simp [ih, matchesLine, hmatch]
    · rw [if_neg hmatch]
      cases i with
      | zero => simp [matchesLine, hmatch]
      | succ i => simp [ih, matchesLine, hmatch]

theorem addOption_first (elem x : CString) (first : Bool) (lines : List CString) :
    (addOption elem x first lines).2 = (first && !lines.any (matchesLine elem)) := by
  induction lines generalizing first with
  | nil => simp [addOption]
  | cons line rest ih =>
    rw [addOption]
    by_cases hmatch : strncasecmp elem line elem.length = true
    · simp [ih, matchesLine, hmatch]
    · simp [ih, matchesLine, hmatch]

/-- A text within a value of a select element, or nothing happens. -/
theorem characters_callback (h : step state (.characters x) = some next) :
    (callback state (.characters x) = none ∧ next = state ∧
      (state.selectElem = none ∨ state.inValue = false)) ∨
      ∃ elem version node, callback state (.characters x) =
        some ⟨elem, node, state.selectFirst, x⟩ ∧
        state.selectElem = some elem ∧ state.inValue = true ∧
        (state.recipes.search fun node => node.formversion = version).current = some node ∧
        next =
          addText { state with recipes := state.recipes.search fun node =>
            node.formversion = version } elem x node := by
  rcases characters_steps h
    with ⟨rfl, hidle⟩ | ⟨elem, found, node, helem, hvalue, hfound, hnode, rfl⟩
  · refine Or.inl ⟨?_, rfl, hidle⟩
    rw [callback]
    rcases hidle with hselect | hvalue
    · rw [hselect, Option.bind_none]
      split <;> rfl
    · rw [hvalue]
      rfl
  · obtain ⟨tag, htag, rfl⟩ := Option.map_eq_some_iff.mp hfound
    refine Or.inr ⟨elem, tag.formversion, node, ?_, helem, hvalue, hnode, rfl⟩
    rw [callback, if_pos hvalue, helem, Option.bind_some, hfound, Option.bind_some,
      hnode, Option.map_some]

theorem numbered_search {version : CString} (h : Numbered state) :
    Numbered { state with recipes := state.recipes.search fun node =>
      node.formversion = version } :=
  ⟨h.nodup, h.bound, h.closed⟩

theorem step_numbered {event : Event} (h : step state event = some next) :
    state.created ≤ next.created ∧ (Numbered state → Numbered next) ∧
      ∀ node' ∈ next.recipes.nodes, node'.number < state.created →
        ∃ node ∈ state.recipes.nodes, node'.number = node.number := by
  by_cases hevent : ∃ x, event = .characters x
  · obtain ⟨x, rfl⟩ := hevent
    rcases characters_callback h with ⟨-, rfl, -⟩ | ⟨elem, version, node, -, -, -, hnode, rfl⟩
    · exact ⟨le_rfl, id, fun node' hnode' _ => ⟨node', hnode', rfl⟩⟩
    · refine ⟨le_rfl, fun hnumbered => ?_, fun node' hnode' _ => ?_⟩
      · have hupdate := numbered_update (numbered_search hnumbered) hnode
          (f := ({ · with selects := (addOption elem x state.selectFirst node.selects).1 })) rfl
            id
        exact ⟨hupdate.nodup, hupdate.bound, hupdate.closed⟩
      · rcases NodeList.mem_update hnode' with ⟨other, hother, rfl⟩ | hnode'
        · exact ⟨other, NodeList.mem_of_search hother, rfl⟩
        · exact ⟨node', hnode', rfl⟩
  · have hgrown := grown_steps (step_steps (fun x hx => hevent ⟨x, hx⟩) h)
    refine ⟨hgrown.created, hgrown.numbered, fun node' hnode' hlt => ?_⟩
    obtain ⟨node, hnode, hnumber, -⟩ := hgrown.nodes node' hnode' hlt
    exact ⟨node, hnode, hnumber⟩

theorem run_numbered {events : List Event} (h : run state events = some last) :
    (Numbered state → Numbered last) ∧ ∀ node' ∈ last.recipes.nodes,
    node'.number < state.created →
      ∃ node ∈ state.recipes.nodes, node'.number = node.number := by
  induction events generalizing state with
  | nil =>
    obtain rfl := Option.some.inj h
    exact ⟨id, fun node' hnode' _ => ⟨node', hnode', rfl⟩⟩
  | cons event rest ih =>
    rw [run, List.foldlM_cons] at h
    obtain ⟨next, hstep, hrest⟩ := Option.bind_eq_some_iff.mp h
    obtain ⟨hcreated, hnumbered, hnodes⟩ := step_numbered hstep
    obtain ⟨hlast, hnodes'⟩ := ih hrest
    refine ⟨hlast ∘ hnumbered, fun node'' hnode'' hlt => ?_⟩
    obtain ⟨node', hnode', hnumber'⟩ := hnodes' node'' hnode'' (hlt.trans_le hcreated)
    obtain ⟨node, hnode, hnumber⟩ := hnodes node' hnode' (hnumber' ▸ hlt)
    exact ⟨node, hnode, hnumber'.trans hnumber⟩

def Named (state : ParseState) : Prop :=
  ∀ node ∈ state.recipes.nodes, ∀ line ∈ node.selects, 58 ∈ line

theorem addLine_named {type : FieldType} (h : addLine type line node = some node')
    (hcolon : 58 ∈ line) (hnode : ∀ line ∈ node.selects, 58 ∈ line) :
    ∀ line ∈ node'.selects, 58 ∈ line := by
  rw [addLine] at h
  by_cases hchoice : type = .multiselect ∨ type = .enum
  · rw [if_pos hchoice] at h
    by_cases hfull : 1024 ≤ node.selects.length
    · rw [if_pos hfull] at h
      cases h
    · rw [if_neg hfull] at h
      obtain rfl := Option.some.inj h
      intro line' hline'
      rcases List.mem_append.mp hline' with hold | hnew
      · exact hnode line' hold
      · rw [List.mem_singleton.mp hnew]
        exact hcolon
  · rw [if_neg hchoice] at h
    obtain rfl := Option.some.inj h
    exact hnode

theorem named_edit (hnamed : Named state) (h : Edit state next) : Named next := by
  cases h with
  | line hnode hline hcolon =>
    intro other hother
    rcases NodeList.mem_update hother with ⟨node', hnode', rfl⟩ | hother
    · exact addLine_named hline hcolon (hnamed _ (NodeList.mem_of_current hnode))
    · exact hnamed other hother
  | _ => exact hnamed

theorem named_steps {event : Event} (hnamed : Named state) (h : Steps state event next) :
    Named next := by
  obtain ⟨declared, last, hdeclare, hedits, rfl⟩ := h
  have hdeclared : Named declared := by
    cases hd : declaredBy state.inInstance event with
    | none =>
      rw [hd] at hdeclare
      obtain rfl := Option.some.inj hdeclare
      exact hnamed
    | some d =>
      rw [hd] at hdeclare
      obtain rfl := declareRecipe_eq hdeclare
      intro node hnode
      rcases NodeList.mem_add hnode with rfl | hnode
      · exact fun line hline => absurd hline List.not_mem_nil
      · exact hnamed node hnode
  have hlast : Named last := by
    clear hdeclare
    induction hedits with
    | refl => exact hdeclared
    | tail _ hedit ih => exact named_edit ih hedit
  exact hlast

theorem named_step {event : Event} (hnamed : Named state) (h : step state event = some next) :
    Named next := by
  by_cases hevent : ∃ x, event = .characters x
  · obtain ⟨x, rfl⟩ := hevent
    rcases characters_callback h with ⟨-, rfl, -⟩ | ⟨elem, version, node, -, -, -, hnode, rfl⟩
    · exact hnamed
    · intro other hother line hline
      rcases NodeList.mem_update hother with ⟨node', hnode', rfl⟩ | hother
      · obtain ⟨i, hi⟩ := List.mem_iff_getElem?.mp hline
        rw [getElem?_addOption] at hi
        obtain ⟨old, hold, rfl⟩ := Option.map_eq_some_iff.mp hi
        have hcolon := hnamed node (NodeList.mem_of_search hnode) old (List.mem_of_getElem? hold)
        by_cases hmatch : matchesLine elem old = true
        · rw [if_pos hmatch]
          exact List.mem_append_left _ hcolon
        · rw [if_neg hmatch]
          exact hcolon
      · exact hnamed other hother line hline
  · exact named_steps hnamed (step_steps (fun x hx => hevent ⟨x, hx⟩) h)

theorem named_run {events : List Event} (hnamed : Named state)
    (h : run state events = some last) :
    Named last := by
  induction events generalizing state with
  | nil =>
    obtain rfl := Option.some.inj h
    exact hnamed
  | cons event rest ih =>
    rw [run, List.foldlM_cons] at h
    obtain ⟨next, hstep, hrest⟩ := Option.bind_eq_some_iff.mp h
    exact ih (named_step hnamed hstep) hrest

theorem named_initial : Named initial := fun _ hno => absurd hno List.not_mem_nil

theorem numbered_initial : Numbered initial :=
  ⟨by simp [initial, NodeList.empty], by simp [initial, NodeList.empty],
  by simp [initial, NodeList.empty]⟩

theorem getElem?_of_prefix {l l' : List CString} (h : l <+: l') {i : ℕ}
    (hline : l[i]? = some line) :
    l'[i]? = some line := by
  obtain ⟨rest, rfl⟩ := h
  exact (List.getElem?_append_left (List.getElem?_eq_some_iff.mp hline).1).trans hline

theorem characters_line (hnumbered : Numbered state) (h : step state (.characters x) = some next)
    (hnode : node ∈ state.recipes.nodes) (hline : node.selects[index]? = some line)
    (hnode' : node' ∈ next.recipes.nodes) (hnumber : node'.number = node.number) :
    node'.selects[index]? = some (line ++
      ((callback state (.characters x)).toList.filter (·.reaches node.number index)).flatMap
        (separated <| ·.item index)) := by
  have hnext := (step_numbered h).2.1 hnumbered
  rcases characters_callback h
    with ⟨hnone, rfl, -⟩ | ⟨elem, version, found, hsome, -, -, hfound, rfl⟩
  · obtain rfl := hnumbered.unique hnode hnode' hnumber
    simp [hnone, hline]
  have hmem : found ∈ state.recipes.nodes := NodeList.mem_of_search hfound
  rw [hsome]
  by_cases hsame : found.number = node.number
  · obtain rfl := hnumbered.unique hnode hmem hsame
    have hgrown := hnext.unique (NodeList.mem_update_current hfound) hnode' hnumber
    rw [hgrown]
    simp only [getElem?_addOption, hline, Option.map_some, Option.toList_some]
    by_cases hmatch : matchesLine elem line = true
    · simp [Callback.reaches, Callback.item, Callback.taken, separated, hline, hmatch]
    · simp [Callback.reaches, hline, hmatch]
  · have hold : node' = node := by
      rcases NodeList.mem_update hnode' with ⟨other, hother, rfl⟩ | hnode'
      · obtain rfl := Option.some.inj (hfound.symm.trans hother)
        exact absurd hnumber hsame
      · exact hnumbered.unique hnode hnode' hnumber
    rw [hold, hline]
    simp [Callback.reaches, hsame]

theorem callback_some {event : Event} {c : Callback} (h : callback state event = some c) :
    (event = .characters c.piece ∧ state.selectElem = some c.elem ∧ state.inValue = true) ∧
      c.node ∈ state.recipes.nodes := by
  cases event with
  | characters x =>
    rw [callback] at h
    by_cases hvalue : state.inValue = true
    · rw [if_pos hvalue] at h
      obtain ⟨elem, helem, hfound⟩ := Option.bind_eq_some_iff.mp h
      obtain ⟨node, hnode, rfl⟩ := Option.map_eq_some_iff.mp hfound
      obtain ⟨found, hsearch, hcurrent⟩ := Option.bind_eq_some_iff.mp hnode
      obtain ⟨tag, -, rfl⟩ := Option.map_eq_some_iff.mp hsearch
      exact ⟨⟨rfl, helem, hvalue⟩, NodeList.mem_of_search hcurrent⟩
    · rw [if_neg hvalue] at h
      cases h
  | _ => cases h

theorem callback_of_not_characters {event : Event} (hevent : ∀ x, event ≠ .characters x) :
    callback state event = none := by
  cases event with
  | characters x => exact absurd rfl (hevent x)
  | _ => rfl

theorem step_line {event : Event} (hnumbered : Numbered state) (h : step state event = some next)
    (hnode : node ∈ state.recipes.nodes) (hline : node.selects[index]? = some line)
    (hnode' : node' ∈ next.recipes.nodes) (hnumber : node'.number = node.number) :
    node'.selects[index]? = some (line ++
      ((callback state event).toList.filter (·.reaches node.number index)).flatMap
        (separated <| ·.item index)) := by
  by_cases hevent : ∃ x, event = .characters x
  · obtain ⟨x, rfl⟩ := hevent
    exact characters_line hnumbered h hnode hline hnode' hnumber
  · have hother : ∀ x, event ≠ .characters x := fun x hx => hevent ⟨x, hx⟩
    obtain ⟨source, hsource, hsame, hpre⟩ :=
      (grown_steps (step_steps hother h)).nodes node' hnode'
      (hnumber ▸ hnumbered.bound node hnode)
    obtain rfl := hnumbered.unique hnode hsource (hsame.symm.trans hnumber)
    rw [callback_of_not_characters hother, getElem?_of_prefix hpre hline]
    simp

/-- A line ends up as it was, with the texts that reached it in the run. -/
theorem run_line {events : List Event} (hnumbered : Numbered state)
    (h : run state events = some last)
    (hnode : node ∈ state.recipes.nodes) (hline : node.selects[index]? = some line)
    (hnode' : node' ∈ last.recipes.nodes) (hnumber : node'.number = node.number) :
    node'.selects[index]? = some (line ++
      ((callbacks state events).filter (·.reaches node.number index)).flatMap
        (separated <| ·.item index)) := by
  induction events generalizing state node line with
  | nil =>
    obtain rfl := Option.some.inj h
    obtain rfl := hnumbered.unique hnode hnode' hnumber
    simp [callbacks, hline]
  | cons event rest ih =>
    rw [run, List.foldlM_cons] at h
    obtain ⟨next, hstep, hrest⟩ := Option.bind_eq_some_iff.mp h
    obtain ⟨hcreated, hnext, -⟩ := step_numbered hstep
    have hlt := hnumbered.bound node hnode
    obtain ⟨middle, hmiddle, hsame⟩ := (run_numbered hrest).2 node' hnode' (by omega)
    have hnumber' : middle.number = node.number := hsame.symm.trans hnumber
    have hfirst := step_line hnumbered hstep hnode hline hmiddle hnumber'
    have hlast := ih (hnext hnumbered) hrest hmiddle hfirst hsame
    rw [hlast, callbacks, hstep, Option.elim_some, List.filter_append,
      List.flatMap_append, hnumber', List.append_assoc]

theorem callbacks_numbered {events : List Event} :
    ∀ c ∈ callbacks state events, c.node.number < state.created →
      ∃ node ∈ state.recipes.nodes, c.node.number = node.number := by
  induction events generalizing state with
  | nil => simp [callbacks]
  | cons event rest ih =>
    rintro c hc hlt
    rw [callbacks] at hc
    rcases List.mem_append.mp hc with hc | hc
    · exact ⟨c.node, (callback_some (Option.mem_toList.mp hc)).2, rfl⟩
    · cases hstep : step state event with
      | none =>
        rw [hstep] at hc
        cases hc
      | some next =>
        rw [hstep] at hc
        obtain ⟨hcreated, -, hnodes⟩ := step_numbered hstep
        obtain ⟨node', hnode', hnumber'⟩ := ih c hc (hlt.trans_le hcreated)
        obtain ⟨node, hnode, hnumber⟩ := hnodes node' hnode' (hnumber' ▸ hlt)
        exact ⟨node, hnode, hnumber'.trans hnumber⟩

/-- A text that finds the recipe of a line finds the line, too. -/
theorem callbacks_line {events : List Event} (hnumbered : Numbered state)
    (hnode : node ∈ state.recipes.nodes) (hline : node.selects[index]? = some line) :
    ∀ c ∈ callbacks state events, c.node.number = node.number →
      ∃ tail, c.node.selects[index]? = some (line ++ tail) := by
  induction events generalizing state node line with
  | nil => simp [callbacks]
  | cons event rest ih =>
    rintro c hc hnumber
    rw [callbacks] at hc
    rcases List.mem_append.mp hc with hc | hc
    · obtain rfl := hnumbered.unique hnode (callback_some (Option.mem_toList.mp hc)).2 hnumber
      exact ⟨[], by rw [List.append_nil]; exact hline⟩
    · cases hstep : step state event with
      | none =>
        rw [hstep] at hc
        cases hc
      | some next =>
        rw [hstep] at hc
        obtain ⟨hcreated, hnext, -⟩ := step_numbered hstep
        have hlt := hnumbered.bound node hnode
        obtain ⟨node', hnode', hnumber'⟩ := callbacks_numbered c hc (by omega)
        have hline' := step_line hnumbered hstep hnode hline hnode' (hnumber'.symm.trans hnumber)
        obtain ⟨tail, htail⟩ := ih (hnext hnumbered) hnode' hline' c hc hnumber'
        exact ⟨_, by rw [htail, List.append_assoc]⟩

end Texts

end Succinct.SelectLines
