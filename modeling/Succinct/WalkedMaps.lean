import Mathlib.Data.List.AList

/-!
Maps with the order in which their entries are walked. The order means nothing: a map can be
walked in another one at any time, with the same values under the same keys.
-/
namespace Succinct.WalkedMaps

variable {α β : Type} [DecidableEq α]

abbrev WalkedMap (α β : Type) : Type := AList fun _ : α => β

omit [DecidableEq α] in
/-- The keys that are left have the order of before. -/
theorem keys_filterMap_sublist (f : α → β → Option β) (l : List (Σ _ : α, β)) :
    (List.keys (l.filterMap fun e => (f e.1 e.2).map fun b => (⟨e.1, b⟩ : Σ _ : α, β))).Sublist
      l.keys := by
  induction l with
  | nil => exact List.Sublist.refl _
  | cons e rest ih =>
    cases hf : f e.1 e.2 with
    | none =>
      rw [List.filterMap_cons_none (by rw [hf]; rfl)]
      exact ih.cons _
    | some b =>
      rw [List.filterMap_cons_some (b := ⟨e.1, b⟩) (by rw [hf]; rfl)]
      exact ih.cons_cons _

def sift (f : α → β → Option β) (m : WalkedMap α β) : WalkedMap α β where
  entries := m.entries.filterMap fun e => (f e.1 e.2).map fun b => ⟨e.1, b⟩
  nodupKeys := List.Nodup.sublist (keys_filterMap_sublist f m.entries) m.keys_nodup

def modify (a : α) (f : β → β) (m : WalkedMap α β) : WalkedMap α β :=
  match m.lookup a with
  | none => m
  | some b => m.insert a (f b)

theorem mem_entries {m : WalkedMap α β} {a : α} {b : β} : (⟨a, b⟩ : Σ _ : α, β) ∈ m.entries ↔
    m.lookup a = some b :=
  AList.mem_lookup_iff.symm

theorem lookup_sift_eq_some {f : α → β → Option β} {m : WalkedMap α β} {a : α} {b : β} :
    (sift f m).lookup a = some b ↔ ∃ b', m.lookup a = some b' ∧ f a b' = some b := by
  rw [← mem_entries]
  constructor
  · intro h
    obtain ⟨⟨a', b'⟩, hmem, heq⟩ := List.mem_filterMap.mp h
    obtain ⟨b'', hf, heq⟩ := Option.map_eq_some_iff.mp heq
    cases heq
    exact ⟨b', mem_entries.mp hmem, hf⟩
  · rintro ⟨b', hb', hf⟩
    refine List.mem_filterMap.mpr ⟨⟨a, b'⟩, mem_entries.mpr hb', ?_⟩
    dsimp only
    rw [hf]
    rfl

theorem lookup_insert_eq_some {m : WalkedMap α β} {a a' : α} {b b' : β}
    (h : (m.insert a b).lookup a' = some b') :
    a' = a ∧ b' = b ∨ a' ≠ a ∧ m.lookup a' = some b' := by
  by_cases heq : a' = a
  · subst heq
    rw [AList.lookup_insert] at h
    exact Or.inl ⟨rfl, (Option.some.inj h).symm⟩
  · rw [AList.lookup_insert_ne heq] at h
    exact Or.inr ⟨heq, h⟩

theorem lookup_modify_eq_some {m : WalkedMap α β} {a a' : α} {f : β → β} {b' : β}
    (h : (modify a f m).lookup a' = some b') :
    (a' = a ∧ ∃ b, m.lookup a = some b ∧ b' = f b) ∨ a' ≠ a ∧ m.lookup a' = some b' := by
  rw [modify] at h
  split at h
  case h_1 hnone =>
    refine Or.inr ⟨?_, h⟩
    rintro rfl
    rw [hnone] at h
    cases h
  case h_2 b hb =>
    rcases lookup_insert_eq_some h with ⟨rfl, rfl⟩ | hother
    · exact Or.inl ⟨rfl, b, hb, rfl⟩
    · exact Or.inr hother

theorem lookup_modify {m : WalkedMap α β} {a : α} {f : β → β} :
    (modify a f m).lookup a = (m.lookup a).map f := by
  rw [modify]
  split
  case h_1 hnone =>
    rw [hnone]
    rfl
  case h_2 b hb =>
    rw [AList.lookup_insert, hb]
    rfl

theorem lookup_modify_of_ne {m : WalkedMap α β} {a a' : α} {f : β → β} (h : a' ≠ a) :
    (modify a f m).lookup a' = m.lookup a' := by
  rw [modify]
  split
  · rfl
  · exact AList.lookup_insert_ne h

theorem lookup_modify_eq_none {m : WalkedMap α β} {a a' : α} {f : β → β}
    (h : m.lookup a' = none) :
    (modify a f m).lookup a' = none := by
  by_cases heq : a' = a
  · rw [heq, lookup_modify, ← heq, h]
    rfl
  · rw [lookup_modify_of_ne heq, h]

theorem entries_eq_nil_iff {m : WalkedMap α β} : m.entries = [] ↔ ∀ a, m.lookup a = none := by
  constructor
  · intro h a
    cases hb : m.lookup a with
    | none => rfl
    | some b =>
      have hmem := mem_entries.mpr hb
      rw [h] at hmem
      exact absurd hmem List.not_mem_nil
  · intro h
    apply List.eq_nil_iff_forall_not_mem.mpr
    rintro ⟨a, b⟩ hmem
    have hb := mem_entries.mp hmem
    rw [h] at hb
    cases hb

end Succinct.WalkedMaps
