import Mathlib.Data.List.Basic
import Mathlib.Data.List.Infix

/-!
A linked list with one pointer into it, which serves as the place of the next
insertion, as the result of the last search and as the start of a traversal. An
insertion hangs the new node on the node of the pointer, so what followed that
node is no longer reached.
-/
namespace Succinct.NodeLists

@[ext]
structure NodeList (α : Type*) where
  nodes : List α
  curr : Option ℕ
  valid : ∀ i ∈ curr, i < nodes.length

namespace NodeList

variable {α β : Type*} {list : NodeList α} {node other : α} {p : α → Bool} {f : α → α} {g : α → β}

def empty : NodeList α := ⟨[], none, by simp⟩

def upTo (list : NodeList α) : List α := list.nodes.take (list.curr.elim 0 (· + 1))

def add (list : NodeList α) (node : α) : NodeList α :=
  match list.curr with
  | some _ => ⟨list.upTo ++ [node], some list.upTo.length, by simp⟩
  | none => ⟨node :: list.nodes, some 0, by simp⟩

def search (list : NodeList α) (p : α → Bool) : NodeList α :=
  ⟨list.nodes, list.nodes.findIdx? p, fun i hi => by
    obtain ⟨hlt, -⟩ := List.findIdx?_eq_some_iff_getElem.mp hi
    exact hlt⟩

def current (list : NodeList α) : Option α := list.curr.bind (list.nodes[·]?)

def update (list : NodeList α) (f : α → α) : NodeList α :=
  ⟨list.curr.elim list.nodes (list.nodes.modify · f), list.curr, fun i hi => by
    rw [Option.mem_def.mp hi, Option.elim_some, List.length_modify]
    exact list.valid i hi⟩

def rest (list : NodeList α) : List α := list.curr.elim [] (list.nodes.drop ·)

def AtEnd (list : NodeList α) : Prop := ∀ i ∈ list.curr, i + 1 = list.nodes.length

theorem length_upTo : list.upTo.length = list.curr.elim 0 (· + 1) := by
  rw [upTo, List.length_take, Nat.min_eq_left]
  cases hcurr : list.curr with
  | none => exact Nat.zero_le _
  | some i => exact list.valid i hcurr

theorem add_of_some {i : ℕ} (hcurr : list.curr = some i) :
    (list.add node).nodes = list.upTo ++ [node] := by
  unfold add
  cases hnone : list.curr with
  | some _ =>
    rfl
  | none =>
    rw [hcurr] at hnone
    cases hnone

theorem add_of_none (hcurr : list.curr = none) : (list.add node).nodes = node :: list.nodes := by
  unfold add
  cases hsome : list.curr with
  | some _ =>
    rw [hcurr] at hsome
    cases hsome
  | none =>
    rfl

theorem length_add_le : (list.add node).nodes.length ≤ list.nodes.length + 1 := by
  cases hcurr : list.curr with
  | none => rw [add_of_none hcurr, List.length_cons]
  | some i =>
    rw [add_of_some hcurr, List.length_append, length_upTo, hcurr]
    exact Nat.succ_le_succ (list.valid i hcurr)

/-- An insertion loses nothing at the end of the list only. -/
theorem length_add_iff : (list.add node).nodes.length = list.nodes.length + 1 ↔ list.AtEnd := by
  cases hcurr : list.curr with
  | none => simp [add_of_none hcurr, AtEnd, hcurr]
  | some i => simp [add_of_some hcurr, AtEnd, hcurr, length_upTo]

theorem nodes_add (hend : list.AtEnd) (hempty : list.curr = none → list.nodes = []) :
    (list.add node).nodes = list.nodes ++ [node] := by
  cases hcurr : list.curr with
  | none => rw [add_of_none hcurr, hempty hcurr, List.nil_append]
  | some i =>
    rw [add_of_some hcurr, upTo, hcurr, Option.elim_some, hend i hcurr, List.take_length]

theorem curr_add (hend : list.AtEnd) (hempty : list.curr = none → list.nodes = []) :
    (list.add node).curr = some list.nodes.length := by
  cases hcurr : list.curr with
  | none =>
    rw [hempty hcurr]
    simp only [add, hcurr, List.length_nil]
  | some i => simp only [add, hcurr, length_upTo, Option.elim_some, hend i hcurr]

theorem curr_add_ne_none : (list.add node).curr ≠ none := by
  unfold add
  split
  · exact Option.some_ne_none _
  · exact Option.some_ne_none _

theorem mem_add (h : other ∈ (list.add node).nodes) : other = node ∨ other ∈ list.nodes := by
  cases hcurr : list.curr with
  | none =>
    rw [add_of_none hcurr] at h
    exact List.mem_cons.mp h
  | some i =>
    rw [add_of_some hcurr] at h
    rcases List.mem_append.mp h with h | h
    · exact Or.inr (List.mem_of_mem_take h)
    · exact Or.inl (List.mem_singleton.mp h)

theorem curr_search_eq_none : (list.search p).curr = none ↔ ∀ node ∈ list.nodes, p node = false :=
  List.findIdx?_eq_none_iff

theorem mem_of_current (h : list.current = some node) : node ∈ list.nodes := by
  obtain ⟨i, -, hi⟩ := Option.bind_eq_some_iff.mp h
  exact List.mem_of_getElem? hi

theorem mem_of_search (h : (list.search p).current = some node) : node ∈ list.nodes := by
  have hmem := mem_of_current h
  exact hmem

theorem current_of_curr_none (h : list.curr = none) : list.current = none := by
  rw [current, h, Option.bind_none]

theorem length_update : (list.update f).nodes.length = list.nodes.length := by
  cases hcurr : list.curr with
  | none => simp [update, hcurr]
  | some i => simp [update, hcurr]

/-- A node of the list after a change is the current one, changed, or another one. -/
theorem getElem?_update {i : ℕ} (h : (list.update f).nodes[i]? = some other) :
    (list.curr = some i ∧ ∃ node, list.current = some node ∧ other = f node) ∨
      (list.curr ≠ some i ∧ list.nodes[i]? = some other) := by
  cases hcurr : list.curr with
  | none =>
    simp only [update, hcurr, Option.elim_none] at h
    exact Or.inr ⟨by simp, h⟩
  | some j =>
    simp only [update, hcurr, Option.elim_some, List.getElem?_modify] at h
    by_cases hij : j = i
    · subst hij
      simp only [if_true] at h
      obtain ⟨node, hnode, rfl⟩ := Option.map_eq_some_iff.mp h
      exact Or.inl ⟨rfl, node, by rw [current, hcurr]; exact hnode, rfl⟩
    · simp only [hij, if_false, id_map'] at h
      exact Or.inr ⟨by simpa using hij, h⟩

theorem mem_update (h : other ∈ (list.update f).nodes) :
    (∃ node, list.current = some node ∧ other = f node) ∨ other ∈ list.nodes := by
  obtain ⟨i, hi⟩ := List.mem_iff_getElem?.mp h
  rcases getElem?_update hi with ⟨-, hcurrent⟩ | ⟨-, hother⟩
  · exact Or.inl hcurrent
  · exact Or.inr (List.mem_of_getElem? hother)

theorem mem_update_current (h : list.current = some node) : f node ∈ (list.update f).nodes := by
  obtain ⟨i, hcurr, hi⟩ := Option.bind_eq_some_iff.mp h
  refine List.mem_of_getElem? (i := i) ?_
  simp only [update, hcurr, Option.elim_some, List.getElem?_modify, hi, if_true,
    Option.map_eq_map, Option.map_some]

/-- What a change keeps of the current node it keeps of the list. -/
theorem map_update (hg : ∀ node, list.current = some node → g (f node) = g node) :
    (list.update f).nodes.map g = list.nodes.map g := by
  refine List.ext_getElem (by simp [length_update]) fun i h h' => ?_
  rw [List.getElem_map, List.getElem_map]
  rw [List.length_map] at h h'
  rcases getElem?_update (List.getElem?_eq_getElem h) with ⟨hcurr, node, hnode, heq⟩ | ⟨-, heq⟩
  · rw [heq, hg node hnode]
    rw [current, hcurr, Option.bind_some, List.getElem?_eq_getElem h'] at hnode
    rw [Option.some.inj hnode]
  · rw [List.getElem?_eq_getElem h'] at heq
    rw [Option.some.inj heq]

def map (g : α → β) (list : NodeList α) : NodeList β :=
  ⟨list.nodes.map g, list.curr, fun i hi => by
    rw [List.length_map]
    exact list.valid i hi⟩

theorem map_add : (list.add node).map g = (list.map g).add (g node) := by
  cases hcurr : list.curr with
  | none =>
    have hmap : (list.map g).curr = none := hcurr
    ext1
    · rw [add_of_none hmap]
      change (list.add node).nodes.map g = _
      rw [add_of_none hcurr]
      rfl
    · simp only [map, add, hcurr]
  | some i =>
    have hmap : (list.map g).curr = some i := hcurr
    have htake : (list.map g).upTo = list.upTo.map g := by
      rw [upTo, upTo, List.map_take]
      rfl
    ext1
    · rw [add_of_some hmap, htake]
      change (list.add node).nodes.map g = _
      rw [add_of_some hcurr, List.map_append]
      rfl
    · simp only [map, add, hcurr, length_upTo]

theorem map_search {q : β → Bool} (hq : ∀ node, q (g node) = p node) :
    (list.search p).map g = (list.map g).search q := by
  have hcomp : q ∘ g = p := funext hq
  ext1
  · rfl
  · change list.nodes.findIdx? p = (list.nodes.map g).findIdx? q
    rw [List.findIdx?_map, hcomp]

theorem update_map (hg : ∀ node, list.current = some node → g (f node) = g node) :
    (list.update f).map g = list.map g := by
  ext1
  · exact map_update hg
  · rfl

theorem current_map : (list.map g).current = list.current.map g := by
  change list.curr.bind ((list.nodes.map g)[·]?) = (list.curr.bind (list.nodes[·]?)).map g
  cases list.curr with
  | none => rfl
  | some i => exact List.getElem?_map

theorem rest_map : (list.map g).rest = list.rest.map g := by
  change list.curr.elim [] ((list.nodes.map g).drop ·) =
    (list.curr.elim [] (list.nodes.drop ·)).map g
  cases list.curr with
  | none => rfl
  | some i =>
    rw [Option.elim_some, Option.elim_some]
    exact List.map_drop.symm

theorem length_rest_le : list.rest.length ≤ list.nodes.length := by
  cases hcurr : list.curr with
  | none => simp [rest, hcurr]
  | some i => simp [rest, hcurr]

theorem mem_of_rest (h : node ∈ list.rest) : node ∈ list.nodes := by
  cases hcurr : list.curr with
  | none =>
    rw [rest, hcurr] at h
    cases h
  | some i =>
    rw [rest, hcurr] at h
    exact List.mem_of_mem_drop h

theorem rest_of_curr_zero (h : list.curr = some 0) : list.rest = list.nodes := by
  rw [rest, h, Option.elim_some, List.drop_zero]

theorem curr_of_length_rest (hne : list.nodes ≠ []) (h : list.rest.length = list.nodes.length) :
    list.curr = some 0 := by
  have hpos := List.length_pos_iff.mpr hne
  cases hcurr : list.curr with
  | none =>
    rw [rest, hcurr, Option.elim_none, List.length_nil] at h
    omega
  | some i =>
    rw [rest, hcurr, Option.elim_some, List.length_drop] at h
    rw [show i = 0 by omega]

end NodeList

end Succinct.NodeLists
