import Mathlib.Data.List.Nodup
import Mathlib.Logic.Function.Basic

/-!
Doubly linked lists in a heap of nodes. A segment is the list of the nodes
between two pointers, each with its address and its value; the pointers before
and after it are those of its neighbours. Nodes are put between two neighbours,
changed in place, and taken out.
-/
namespace Succinct.LinkedLists

variable {α : Type}

structure Node (α : Type) where
  next : Option ℕ
  prev : Option ℕ
  value : α

abbrev Heap (α : Type) := ℕ → Node α

def setNext (heap : Heap α) (r : ℕ) (q : Option ℕ) : Heap α :=
  Function.update heap r { heap r with next := q }

def setPrev (heap : Heap α) (r : ℕ) (q : Option ℕ) : Heap α :=
  Function.update heap r { heap r with prev := q }

def setValue (heap : Heap α) (r : ℕ) (v : α) : Heap α :=
  Function.update heap r { heap r with value := v }

/-- The cells of a segment, which begins at p, with the node before it, its last
node and the pointer after it. -/
def Seg (heap : Heap α) : Option ℕ → Option ℕ → List (ℕ × α) → Option ℕ → Option ℕ → Prop
  | before, p, [], last, after => p = after ∧ last = before
  | before, p, c :: cells, last, after =>
    p = some c.1 ∧ (heap c.1).prev = before ∧ (heap c.1).value = c.2 ∧
      Seg heap (some c.1) (heap c.1).next cells last after

def refs (cells : List (ℕ × α)) : List ℕ := cells.map Prod.fst

@[simp] theorem refs_cons (c : ℕ × α) (cells : List (ℕ × α)) :
    refs (c :: cells) = c.1 :: refs cells := rfl

@[simp] theorem refs_append (xs ys : List (ℕ × α)) : refs (xs ++ ys) = refs xs ++ refs ys :=
  List.map_append

section Segments

variable {heap : Heap α} {before p last after : Option ℕ}

theorem seg_append (xs ys : List (ℕ × α)) : Seg heap before p (xs ++ ys) last after ↔
    ∃ m q, Seg heap before p xs m q ∧ Seg heap m q ys last after := by
  induction xs generalizing before p with
  | nil =>
    constructor
    · intro h
      exact ⟨before, p, ⟨rfl, rfl⟩, h⟩
    · rintro ⟨m, q, ⟨rfl, rfl⟩, h⟩
      exact h
  | cons c xs ih =>
    constructor
    · rintro ⟨hp, hprev, hvalue, hrest⟩
      obtain ⟨m, q, hxs, hys⟩ := ih.mp hrest
      exact ⟨m, q, ⟨hp, hprev, hvalue, hxs⟩, hys⟩
    · rintro ⟨m, q, ⟨hp, hprev, hvalue, hxs⟩, hys⟩
      exact ⟨hp, hprev, hvalue, ih.mpr ⟨m, q, hxs, hys⟩⟩

/-- A segment depends on its own nodes only. -/
theorem Seg.congr {heap' : Heap α} {cells : List (ℕ × α)} (h : Seg heap before p cells last after)
    (hsame : ∀ r ∈ refs cells, heap' r = heap r) : Seg heap' before p cells last after := by
  induction cells generalizing before p with
  | nil => exact h
  | cons c cells ih =>
    obtain ⟨hp, hprev, hvalue, hrest⟩ := h
    rw [refs_cons, List.forall_mem_cons] at hsame
    obtain ⟨hc, hcells⟩ := hsame
    refine ⟨hp, ?_, ?_, ?_⟩
    · rw [hc]
      exact hprev
    · rw [hc]
      exact hvalue
    · rw [hc]
      exact ih hrest hcells

theorem Seg.update {cells : List (ℕ × α)} (h : Seg heap before p cells last after) {r : ℕ}
    (hr : r ∉ refs cells) (node : Node α) :
    Seg (Function.update heap r node) before p cells last after := by
  refine h.congr ?_
  intro r' hr'
  rw [Function.update_of_ne]
  rintro rfl
  exact hr hr'

/-- The pointer after a segment is changed in its last node. -/
theorem Seg.setNext {xs : List (ℕ × α)} {c : ℕ × α} (h : Seg heap before p (xs ++ [c]) last after)
    (hc : c.1 ∉ refs xs) (q : Option ℕ) :
    Seg (LinkedLists.setNext heap c.1 q) before p (xs ++ [c]) last q := by
  obtain ⟨m, q', hxs, rfl, hprev, hvalue, -, hlast⟩ := (seg_append xs [c]).mp h
  refine (seg_append xs [c]).mpr ⟨m, some c.1, hxs.update hc _, rfl, ?_, ?_, ?_, hlast⟩
  · rw [LinkedLists.setNext, Function.update_self]
    exact hprev
  · rw [LinkedLists.setNext, Function.update_self]
    exact hvalue
  · rw [LinkedLists.setNext, Function.update_self]

/-- The node before a segment is changed in its first node. -/
theorem Seg.setPrev {c : ℕ × α} {cells : List (ℕ × α)}
    (h : Seg heap before p (c :: cells) last after) (hc : c.1 ∉ refs cells) (q : Option ℕ) :
    Seg (LinkedLists.setPrev heap c.1 q) q p (c :: cells) last after := by
  obtain ⟨hp, -, hvalue, hrest⟩ := h
  refine ⟨hp, ?_, ?_, ?_⟩
  · rw [LinkedLists.setPrev, Function.update_self]
  · rw [LinkedLists.setPrev, Function.update_self]
    exact hvalue
  · rw [LinkedLists.setPrev, Function.update_self]
    exact hrest.update hc _

theorem Seg.setValue {xs ys : List (ℕ × α)} {c : ℕ × α}
    (h : Seg heap before p (xs ++ c :: ys) last after) (hxs : c.1 ∉ refs xs) (hys : c.1 ∉ refs ys)
    (v : α) : Seg (LinkedLists.setValue heap c.1 v) before p
      (xs ++ (c.1, v) :: ys) last after := by
  obtain ⟨m, q, hleft, hq, hprev, -, hright⟩ := (seg_append xs (c :: ys)).mp h
  refine (seg_append xs ((c.1, v) :: ys)).mpr ⟨m, q, hleft.update hxs _, hq, ?_, ?_, ?_⟩
  · rw [LinkedLists.setValue, Function.update_self]
    exact hprev
  · rw [LinkedLists.setValue, Function.update_self]
  · rw [LinkedLists.setValue, Function.update_self]
    exact hright.update hys _

theorem Seg.after_eq {xs : List (ℕ × α)} {c : ℕ × α}
    (h : Seg heap before p (xs ++ [c]) last after) :
    (heap c.1).next = after := by
  obtain ⟨m, q, -, -, -, -, hafter, -⟩ := (seg_append xs [c]).mp h
  exact hafter

theorem Seg.last_eq {xs : List (ℕ × α)} {c : ℕ × α}
    (h : Seg heap before p (xs ++ [c]) last after) :
    last = some c.1 := by
  obtain ⟨m, q, -, -, -, -, -, hlast⟩ := (seg_append xs [c]).mp h
  exact hlast

end Segments

structure DList (α : Type) where
  heap : Heap α
  fresh : ℕ
  head : Option ℕ
  tail : Option ℕ

namespace DList

def alloc (l : DList α) (v : α) : DList α :=
  { l with heap := Function.update l.heap l.fresh ⟨none, none, v⟩, fresh := l.fresh + 1 }

def linkPrev (l : DList α) (prev : Option ℕ) (r : ℕ) : DList α :=
  match prev with
  | none => { l with head := some r }
  | some p => { l with heap := setPrev (setNext l.heap p (some r)) r (some p) }

def linkNext (l : DList α) (next : Option ℕ) (r : ℕ) : DList α :=
  match next with
  | none => { l with tail := some r }
  | some n => { l with heap := setNext (setPrev l.heap n (some r)) r (some n) }

def insertBetween (l : DList α) (prev next : Option ℕ) (v : α) : DList α :=
  ((l.alloc v).linkPrev prev l.fresh).linkNext next l.fresh

def unlinkAfter (l : DList α) (p n : ℕ) : DList α :=
  let l := { l with heap := setNext l.heap p (l.heap n).next }
  match (l.heap n).next with
  | none => { l with tail := some p }
  | some q => { l with heap := setPrev l.heap q (some p) }

def put (l : DList α) (r : ℕ) (v : α) : DList α := { l with heap := setValue l.heap r v }

structure Holds (l : DList α) (cells : List (ℕ × α)) : Prop where
  seg : Seg l.heap none l.head cells l.tail none
  nodup : (refs cells).Nodup
  fresh : ∀ r ∈ refs cells, r < l.fresh

section Links

variable {l : DList α} {xs ys : List (ℕ × α)} {m q : Option ℕ} {r : ℕ}

/-- The nodes up to the new one. -/
theorem linkPrev_seg (h : Seg l.heap none l.head xs m q) (hnodup : (refs xs).Nodup)
    (hr : r ∉ refs xs) :
    Seg (l.linkPrev m r).heap none (l.linkPrev m r).head xs m (some r) ∧
      (∀ r' ∉ refs xs, r' ≠ r → (l.linkPrev m r).heap r' = l.heap r') ∧
      ((l.heap r).prev = none → (l.linkPrev m r).heap r = { l.heap r with prev := m }) := by
  rcases List.eq_nil_or_concat xs with rfl | ⟨xs', c, rfl⟩
  · obtain ⟨-, rfl⟩ := h
    refine ⟨⟨rfl, rfl⟩, fun _ _ _ => rfl, ?_⟩
    intro hprev
    change l.heap r = _
    rw [← hprev]
  · rw [List.concat_eq_append] at h hnodup hr ⊢
    obtain rfl := h.last_eq
    rw [refs_append] at hnodup hr
    have hc : c.1 ∉ refs xs' := by
      intro hmem
      exact List.disjoint_of_nodup_append hnodup hmem List.mem_cons_self
    have hne : c.1 ≠ r := by
      rintro rfl
      exact hr (List.mem_append_right _ List.mem_cons_self)
    refine ⟨?_, ?_, ?_⟩
    · have hnext := h.setNext hc (some r)
      exact hnext.update (by rw [refs_append]; exact hr) _
    · intro r' hr' hner
      have hner' : r' ≠ c.1 := by
        rintro rfl
        exact hr' (by rw [refs_append]; exact List.mem_append_right _ List.mem_cons_self)
      change Function.update (Function.update l.heap c.1 _) r _ r' = _
      rw [Function.update_of_ne hner, Function.update_of_ne hner']
    · intro _
      change Function.update (Function.update l.heap c.1 _) r _ r = _
      rw [Function.update_self]
      change { (Function.update l.heap c.1 _ r) with prev := some c.1 } = _
      rw [Function.update_of_ne hne.symm]

/-- The nodes from the new one on. -/
theorem linkNext_seg (h : Seg l.heap m q ys l.tail none) (hnodup : (refs ys).Nodup)
    (hr : r ∉ refs ys) :
    Seg (l.linkNext q r).heap (some r) q ys (l.linkNext q r).tail none ∧
      (∀ r' ∉ refs ys, r' ≠ r → (l.linkNext q r).heap r' = l.heap r') ∧
      ((l.heap r).next = none → (l.linkNext q r).heap r = { l.heap r with next := q }) := by
  cases ys with
  | nil =>
    obtain ⟨rfl, -⟩ := h
    refine ⟨⟨rfl, rfl⟩, fun _ _ _ => rfl, ?_⟩
    intro hnext
    change l.heap r = _
    rw [← hnext]
  | cons c ys =>
    obtain rfl := h.1
    rw [refs_cons] at hnodup hr
    obtain ⟨hc, -⟩ := List.nodup_cons.mp hnodup
    have hne : c.1 ≠ r := by
      rintro rfl
      exact hr List.mem_cons_self
    refine ⟨?_, ?_, ?_⟩
    · have hprev := h.setPrev hc (some r)
      exact hprev.update hr _
    · intro r' hr' hner
      have hner' : r' ≠ c.1 := by
        rintro rfl
        exact hr' List.mem_cons_self
      change Function.update (Function.update l.heap c.1 _) r _ r' = _
      rw [Function.update_of_ne hner, Function.update_of_ne hner']
    · intro _
      change Function.update (Function.update l.heap c.1 _) r _ r = _
      rw [Function.update_self]
      change { (Function.update l.heap c.1 _ r) with next := some c.1 } = _
      rw [Function.update_of_ne hne.symm]

end Links

@[simp] theorem tail_linkPrev (l : DList α) (m : Option ℕ) (r : ℕ) :
    (l.linkPrev m r).tail = l.tail := by
  cases m <;> rfl

@[simp] theorem fresh_linkPrev (l : DList α) (m : Option ℕ) (r : ℕ) :
    (l.linkPrev m r).fresh = l.fresh := by
  cases m <;> rfl

@[simp] theorem head_linkNext (l : DList α) (q : Option ℕ) (r : ℕ) :
    (l.linkNext q r).head = l.head := by
  cases q <;> rfl

@[simp] theorem fresh_linkNext (l : DList α) (q : Option ℕ) (r : ℕ) :
    (l.linkNext q r).fresh = l.fresh := by
  cases q <;> rfl

namespace Holds

variable {l : DList α} {xs ys : List (ℕ × α)}

theorem put {c : ℕ × α} (h : l.Holds (xs ++ c :: ys)) (v : α) :
    (l.put c.1 v).Holds (xs ++ (c.1, v) :: ys) := by
  have hrefs : refs (xs ++ (c.1, v) :: ys) = refs (xs ++ c :: ys) := by simp
  have hnodup := h.nodup
  rw [refs_append, refs_cons] at hnodup
  have hxs : c.1 ∉ refs xs := by
    intro hmem
    exact List.disjoint_of_nodup_append hnodup hmem List.mem_cons_self
  have hys : c.1 ∉ refs ys := (List.nodup_cons.mp hnodup.of_append_right).1
  refine ⟨h.seg.setValue hxs hys v, ?_, ?_⟩
  · rw [hrefs]
    exact h.nodup
  · rw [hrefs]
    exact h.fresh

/-- A new node goes where the list is cut in two. -/
theorem insertBetween (h : l.Holds (xs ++ ys)) {m q : Option ℕ}
    (hleft : Seg l.heap none l.head xs m q) (hright : Seg l.heap m q ys l.tail none) (v : α) :
    (l.insertBetween m q v).Holds (xs ++ (l.fresh, v) :: ys) := by
  have hnodup := h.nodup
  rw [refs_append] at hnodup
  have hfresh : l.fresh ∉ refs (xs ++ ys) := fun hmem => Nat.lt_irrefl _ (h.fresh _ hmem)
  rw [refs_append, List.mem_append, not_or] at hfresh
  obtain ⟨hxs, hys⟩ := hfresh
  have hdisjoint := List.disjoint_of_nodup_append hnodup
  -- the new node, and the nodes before and after it
  have hnode : (l.alloc v).heap l.fresh = ⟨none, none, v⟩ := Function.update_self ..
  have hleft₁ : Seg (l.alloc v).heap none (l.alloc v).head xs m q := hleft.update hxs _
  have hright₁ : Seg (l.alloc v).heap m q ys (l.alloc v).tail none := hright.update hys _
  obtain ⟨hleft₂, hframe₂, hnode₂⟩ := linkPrev_seg hleft₁ hnodup.of_append_left hxs
  rw [hnode] at hnode₂
  replace hnode₂ := hnode₂ rfl
  have hright₂ : Seg ((l.alloc v).linkPrev m l.fresh).heap m q ys
      ((l.alloc v).linkPrev m l.fresh).tail none := by
    rw [tail_linkPrev]
    refine hright₁.congr fun r hr => hframe₂ r (fun hmem => hdisjoint hmem hr) ?_
    rintro rfl
    exact hys hr
  obtain ⟨hright₃, hframe₃, hnode₃⟩ := linkNext_seg hright₂ hnodup.of_append_right hys
  rw [hnode₂] at hnode₃
  replace hnode₃ := hnode₃ rfl
  have hleft₃ : Seg (l.insertBetween m q v).heap none (l.insertBetween m q v).head xs m
      (some l.fresh) := by
    rw [DList.insertBetween, head_linkNext]
    refine hleft₂.congr fun r hr => hframe₃ r (fun hmem => hdisjoint hr hmem) ?_
    rintro rfl
    exact hxs hr
  refine ⟨?_, ?_, ?_⟩
  · refine (seg_append xs _).mpr ⟨m, some l.fresh, hleft₃, rfl, ?_, ?_, ?_⟩
    · rw [DList.insertBetween, hnode₃]
    · rw [DList.insertBetween, hnode₃]
    · rw [DList.insertBetween, hnode₃]
      exact hright₃
  · rw [refs_append, refs_cons]
    refine (List.nodup_middle).mpr (List.nodup_cons.mpr ⟨?_, hnodup⟩)
    rw [List.mem_append, not_or]
    exact ⟨hxs, hys⟩
  · intro r hr
    change r < (((l.alloc v).linkPrev m l.fresh).linkNext q l.fresh).fresh
    rw [fresh_linkNext, fresh_linkPrev]
    change r < l.fresh + 1
    have hcases : r = l.fresh ∨ r ∈ refs (xs ++ ys) := by
      simp only [refs_append, refs_cons, List.mem_append, List.mem_cons] at hr ⊢
      tauto
    rcases hcases with rfl | hr
    · exact Nat.lt_succ_self _
    · exact Nat.lt_succ_of_lt (h.fresh r hr)

/-- The second of two neighbours is taken out. -/
theorem unlinkAfter {c d : ℕ × α} (h : l.Holds (xs ++ c :: d :: ys)) :
    (l.unlinkAfter c.1 d.1).Holds (xs ++ c :: ys) := by
  have hsub : (refs (xs ++ c :: ys)).Sublist (refs (xs ++ c :: d :: ys)) := by
    simp only [refs_append, refs_cons]
    exact (List.Sublist.refl _).append ((List.sublist_cons_self _ _).cons_cons _)
  have hsplit : xs ++ c :: d :: ys = (xs ++ [c]) ++ d :: ys := by simp
  have hjoin : xs ++ c :: ys = (xs ++ [c]) ++ ys := by simp
  have hseg := h.seg
  rw [hsplit] at hseg
  obtain ⟨m, q, hleft, rfl, -, -, hright⟩ := (seg_append _ _).mp hseg
  obtain rfl := hleft.last_eq
  have hnodup := h.nodup
  rw [hsplit, refs_append, refs_cons] at hnodup
  have hdisjoint := List.disjoint_of_nodup_append hnodup
  have hc : c.1 ∉ refs xs := by
    intro hmem
    have hleft := hnodup.of_append_left
    rw [refs_append] at hleft
    exact List.disjoint_of_nodup_append hleft hmem List.mem_cons_self
  have hlast : c.1 ∈ refs (xs ++ [c]) := by
    rw [refs_append]
    exact List.mem_append_right _ List.mem_cons_self
  have hne : d.1 ≠ c.1 := fun heq => hdisjoint hlast (heq ▸ List.mem_cons_self)
  have hys : c.1 ∉ refs ys := fun hmem => hdisjoint hlast (List.mem_cons_of_mem _ hmem)
  -- the nodes up to c are followed by those after d
  have hleft₁ := hleft.setNext hc (l.heap d.1).next
  have hright₁ : Seg (setNext l.heap c.1 (l.heap d.1).next) (some d.1)
    (l.heap d.1).next ys l.tail none :=
    hright.update hys _
  have hnext : (setNext l.heap c.1 (l.heap d.1).next d.1).next = (l.heap d.1).next := by
    rw [setNext, Function.update_of_ne hne]
  have hrest : Seg (l.unlinkAfter c.1 d.1).heap none
    (l.unlinkAfter c.1 d.1).head (xs ++ [c] ++ ys)
      (l.unlinkAfter c.1 d.1).tail none := by
    rw [DList.unlinkAfter]
    dsimp only
    rw [hnext]
    cases ys with
    | nil =>
      obtain ⟨hq, -⟩ := hright₁
      rw [hq] at hleft₁ ⊢
      rw [List.append_nil]
      exact hleft₁
    | cons e ys =>
      have hq := hright₁.1
      have hnodup' := (List.nodup_cons.mp hnodup.of_append_right).2
      rw [refs_cons] at hnodup'
      have he : e.1 ∉ refs (xs ++ [c]) := fun hmem =>
        hdisjoint hmem (List.mem_cons_of_mem _ List.mem_cons_self)
      have hright₂ := hright₁.setPrev (List.nodup_cons.mp hnodup').1 (some c.1)
      rw [hq] at hleft₁ hright₂ ⊢
      exact (seg_append _ _).mpr ⟨some c.1, some e.1, hleft₁.update he _, hright₂⟩
  refine ⟨?_, h.nodup.sublist hsub, ?_⟩
  · rw [hjoin]
    exact hrest
  · intro r hr
    have hfresh : (l.unlinkAfter c.1 d.1).fresh = l.fresh := by
      rw [DList.unlinkAfter]
      dsimp only
      split <;> rfl
    rw [hfresh]
    exact h.fresh r (hsub.subset hr)

end Holds

end DList

end Succinct.LinkedLists
