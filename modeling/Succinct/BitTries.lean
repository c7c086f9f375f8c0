import Mathlib.Data.Finset.Fold
import Mathlib.Data.Finset.SymmDiff
import Mathlib.Order.Lattice.Nat

/-!
Path-compressed binary tries over any type of keys with numbered bits. An
inner node at position p splits its keys by their bit p, and all its keys
agree below p. Every node carries a label that the shape does not depend on.

A trie is determined by its keys up to the labels, and deleting a key just
inserted gives back the trie as it was, labels included.
-/
namespace Succinct.BitTries

inductive Trie (σ K : Type) where
  | leaf (label : σ) (key : K)
  | node (label : σ) (p : ℕ) (left right : Trie σ K)
  deriving DecidableEq

section Shape

variable {σ K : Type}

def first : Trie σ K → K
  | .leaf _ k => k
  | .node _ _ l _ => first l

def leaves : Trie σ K → List (σ × K)
  | .leaf s k => [(s, k)]
  | .node _ _ l r => leaves l ++ leaves r

variable [DecidableEq K]

def keys : Trie σ K → Finset K
  | .leaf _ k => {k}
  | .node _ _ l r => keys l ∪ keys r

theorem first_mem (t : Trie σ K) : first t ∈ keys t := by
  induction t with
  | leaf s k => exact Finset.mem_singleton_self k
  | node s p l r ihl _ => exact Finset.mem_union_left _ ihl

theorem mem_keys_iff (t : Trie σ K) (k : K) : k ∈ keys t ↔ ∃ s, (s, k) ∈ leaves t := by
  induction t with
  | leaf s k' => simp [keys, leaves]
  | node s p l r ihl ihr => simp [keys, leaves, ihl, ihr, exists_or]

def relabel {τ : Type} (f : σ → τ) : Trie σ K → Trie τ K
  | .leaf s k => .leaf (f s) k
  | .node s p l r => .node (f s) p (relabel f l) (relabel f r)

omit [DecidableEq K] in
@[simp] theorem first_relabel {τ : Type} (f : σ → τ) (t : Trie σ K) :
    first (relabel f t) = first t := by
  induction t with
  | leaf s k => rfl
  | node s p l r ihl _ => exact ihl

@[simp] theorem keys_relabel {τ : Type} (f : σ → τ) (t : Trie σ K) :
    keys (relabel f t) = keys t := by
  induction t with
  | leaf s k => rfl
  | node s p l r ihl ihr => rw [relabel, keys, keys, ihl, ihr]

end Shape

section Positions

variable {K : Type} (bit : K → ℕ → Bool)

def Agree (n : ℕ) (a b : K) : Prop := ∀ i, i < n → bit a i = bit b i

theorem Agree.symm {bit : K → ℕ → Bool} {n : ℕ} {a b : K} (h : Agree bit n a b) :
    Agree bit n b a := fun i hi => (h i hi).symm

theorem Agree.trans {bit : K → ℕ → Bool} {n : ℕ} {a b c : K} (h : Agree bit n a b)
    (h' : Agree bit n b c) : Agree bit n a c := fun i hi => (h i hi).trans (h' i hi)

theorem Agree.mono {bit : K → ℕ → Bool} {m n : ℕ} {a b : K} (h : Agree bit n a b) (hm : m ≤ n) :
    Agree bit m a b := fun i hi => h i (Nat.lt_of_lt_of_le hi hm)

noncomputable def diff (a b : K) : ℕ := sInf {i | bit a i ≠ bit b i}

theorem diff_ne (a b : K) (h : ∃ i, bit a i ≠ bit b i) :
    bit a (diff bit a b) ≠ bit b (diff bit a b) := Nat.sInf_mem h

theorem diff_agree (a b : K) : Agree bit (diff bit a b) a b := by
  intro i hi
  by_contra hne
  exact absurd (Nat.sInf_le hne) (Nat.not_le.mpr hi)

/-- The first difference is where agreement ends. -/
theorem diff_eq (a b : K) (d : ℕ) (hagree : Agree bit d a b) (hne : bit a d ≠ bit b d) :
    diff bit a b = d := by
  have hle : diff bit a b ≤ d := Nat.sInf_le hne
  by_contra hd
  exact diff_ne bit a b ⟨d, hne⟩ (hagree _ (by omega))

theorem agree_of_diff_ge (a b : K) (n : ℕ) (h : n ≤ diff bit a b) : Agree bit n a b :=
  (diff_agree bit a b).mono h

/-- A key that leaves one of two agreeing keys leaves the other at the same
place. -/
theorem diverges (k a b : K) (p : ℕ) (hab : Agree bit p a b) (hd : diff bit k a < p)
    (hne : ∃ i, bit k i ≠ bit a i) :
    Agree bit (diff bit k a) b k ∧ bit b (diff bit k a) = !bit k (diff bit k a) := by
  refine ⟨(hab.symm.mono (Nat.le_of_lt hd)).trans (diff_agree bit k a).symm, ?_⟩
  rw [← hab _ hd]
  have h := diff_ne bit k a hne
  cases hk : bit k (diff bit k a) <;> cases ha : bit a (diff bit k a) <;> simp_all

end Positions

section Tries

variable {σ K : Type} [DecidableEq K] (bit : K → ℕ → Bool)

/-- A trie whose splits are at position lo or later. -/
def WellFormed : ℕ → Trie σ K → Prop
  | _, .leaf _ _ => True
  | lo, .node _ p l r =>
    lo ≤ p ∧ (∀ k ∈ keys l ∪ keys r, Agree bit p k (first l)) ∧
      (∀ k ∈ keys l, bit k p = false) ∧ (∀ k ∈ keys r, bit k p = true) ∧
      WellFormed (p + 1) l ∧ WellFormed (p + 1) r

theorem WellFormed.weaken {lo lo' : ℕ} {t : Trie σ K} (h : WellFormed bit lo t) (hle : lo' ≤ lo) :
    WellFormed bit lo' t := by
  cases t with
  | leaf s k => trivial
  | node s p l r => exact ⟨hle.trans h.1, h.2⟩

theorem WellFormed.disjoint {lo p : ℕ} {s : σ} {l r : Trie σ K}
    (h : WellFormed bit lo (.node s p l r)) : Disjoint (keys l) (keys r) := by
  obtain ⟨-, -, hl, hr, -, -⟩ := h
  rw [Finset.disjoint_left]
  intro k hk hk'
  have h0 := hl k hk
  rw [hr k hk'] at h0
  exact Bool.noConfusion h0

/-- All keys below a node agree with each other up to its position. -/
theorem WellFormed.agree {lo p : ℕ} {s : σ} {l r : Trie σ K}
    (h : WellFormed bit lo (.node s p l r)) (a b : K) (ha : a ∈ keys l ∪ keys r)
    (hb : b ∈ keys l ∪ keys r) : Agree bit p a b :=
  (h.2.1 a ha).trans (h.2.1 b hb).symm

/-- A node with two keys that differ at p is split at p or before. -/
theorem position_le {lo p : ℕ} {s : σ} {l r : Trie σ K}
    (h : WellFormed bit lo (.node s p l r)) (a b : K) (ha : a ∈ keys l ∪ keys r)
    (hb : b ∈ keys l ∪ keys r) (i : ℕ) (hne : bit a i ≠ bit b i) : p ≤ i := by
  by_contra hlt
  exact hne (h.agree bit a b ha hb i (by omega))

theorem keys_left {lo p : ℕ} {s : σ} {l r : Trie σ K} (h : WellFormed bit lo (.node s p l r)) :
    keys l = (keys l ∪ keys r).filter (fun k => bit k p = false) := by
  ext k
  simp only [Finset.mem_filter, Finset.mem_union]
  constructor
  · intro hk
    exact ⟨Or.inl hk, h.2.2.1 k hk⟩
  · rintro ⟨hk | hk, hbit⟩
    · exact hk
    · rw [h.2.2.2.1 k hk] at hbit
      exact Bool.noConfusion hbit

theorem keys_right {lo p : ℕ} {s : σ} {l r : Trie σ K} (h : WellFormed bit lo (.node s p l r)) :
    keys r = (keys l ∪ keys r).filter (fun k => bit k p = true) := by
  ext k
  simp only [Finset.mem_filter, Finset.mem_union]
  constructor
  · intro hk
    exact ⟨Or.inr hk, h.2.2.2.1 k hk⟩
  · rintro ⟨hk | hk, hbit⟩
    · rw [h.2.2.1 k hk] at hbit
      exact Bool.noConfusion hbit
    · exact hk

theorem not_singleton {lo p : ℕ} {s : σ} {l r : Trie σ K} (h : WellFormed bit lo (.node s p l r))
    (k : K) : keys l ∪ keys r ≠ {k} := by
  intro heq
  have hl : first l = k := Finset.mem_singleton.mp (heq ▸ Finset.mem_union_left _ (first_mem l))
  have hr : first r = k := Finset.mem_singleton.mp (heq ▸ Finset.mem_union_right _ (first_mem r))
  have h0 := h.2.2.1 _ (first_mem l)
  rw [hl, ← hr, h.2.2.2.1 _ (first_mem r)] at h0
  exact Bool.noConfusion h0

/-- The keys determine the trie up to its labels. -/
theorem unique_of_keys {τ : Type} (label : τ) {lo lo' : ℕ} (t t' : Trie σ K)
    (h : WellFormed bit lo t) (h' : WellFormed bit lo' t') (hkeys : keys t = keys t') :
    relabel (fun _ => label) t = relabel (fun _ => label) t' := by
  induction t generalizing lo lo' t' with
  | leaf s k =>
    cases t' with
    | leaf s' k' => rw [relabel, relabel, Finset.singleton_injective hkeys]
    | node s' p' l' r' => exact absurd hkeys.symm (not_singleton bit h' k)
  | node s p l r ihl ihr =>
    cases t' with
    | leaf s' k' => exact absurd hkeys (not_singleton bit h k')
    | node s' p' l' r' =>
      have hunion : keys l ∪ keys r = keys l' ∪ keys r' := hkeys
      have hbits : bit (first l) p ≠ bit (first r) p := by
        rw [h.2.2.1 _ (first_mem l), h.2.2.2.1 _ (first_mem r)]
        exact Bool.false_ne_true
      have hbits' : bit (first l') p' ≠ bit (first r') p' := by
        rw [h'.2.2.1 _ (first_mem l'), h'.2.2.2.1 _ (first_mem r')]
        exact Bool.false_ne_true
      have hle : p' ≤ p := position_le bit h' _ _
        (hunion ▸ Finset.mem_union_left _ (first_mem l))
        (hunion ▸ Finset.mem_union_right _ (first_mem r)) p hbits
      have hge : p ≤ p' := position_le bit h _ _
        (hunion ▸ Finset.mem_union_left _ (first_mem l'))
        (hunion ▸ Finset.mem_union_right _ (first_mem r')) p' hbits'
      have hp : p = p' := Nat.le_antisymm hge hle
      subst p'
      have hleft : keys l = keys l' := by rw [keys_left bit h, keys_left bit h', hunion]
      have hright : keys r = keys r' := by rw [keys_right bit h, keys_right bit h', hunion]
      rw [relabel, relabel, ihl l' h.2.2.2.2.1 h'.2.2.2.2.1 hleft,
        ihr r' h.2.2.2.2.2 h'.2.2.2.2.2 hright]

def branch (s : σ) (d : ℕ) (k : K) (old : Trie σ K) : Trie σ K :=
  if bit k d then .node s d old (.leaf s k) else .node s d (.leaf s k) old

noncomputable def insertKey (s : σ) (k : K) : Trie σ K → Trie σ K
  | .leaf s' k' => branch bit s (diff bit k k') k (.leaf s' k')
  | .node s' p l r =>
    if diff bit k (first l) < p then branch bit s (diff bit k (first l)) k (.node s' p l r)
    else if bit k p then .node s' p l (insertKey s k r)
    else .node s' p (insertKey s k l) r

def deleteKey (k : K) : Trie σ K → Option (Trie σ K)
  | .leaf _ _ => none
  | .node s p l r =>
    if bit k p then
      match deleteKey k r with
      | none => some l
      | some r' => some (.node s p l r')
    else
      match deleteKey k l with
      | none => some r
      | some l' => some (.node s p l' r)

theorem keys_branch (s : σ) (d : ℕ) (k : K) (old : Trie σ K) :
    keys (branch bit s d k old) = Insert.insert k (keys old) := by
  unfold branch
  split
  · rw [keys, keys, Finset.union_comm]
    rfl
  · rw [keys, keys]
    rfl

theorem keys_insert (s : σ) (k : K) (t : Trie σ K) :
    keys (insertKey bit s k t) = Insert.insert k (keys t) := by
  induction t with
  | leaf s' k' =>
    rw [insertKey, keys_branch]
  | node s' p l r ihl ihr =>
    rw [insertKey]
    split
    · rw [keys_branch]
    · split
      · rw [keys, keys, ihr, Finset.union_insert]
      · rw [keys, keys, ihl, Finset.insert_union]

omit [DecidableEq K] in
theorem leaves_branch (s : σ) (d : ℕ) (k : K) (old : Trie σ K) :
    (leaves (branch bit s d k old)).Perm ((s, k) :: leaves old) := by
  unfold branch
  split
  · exact List.perm_append_singleton (s, k) (leaves old)
  · exact List.Perm.refl _

omit [DecidableEq K] in
theorem leaves_insert (s : σ) (k : K) (t : Trie σ K) :
    (leaves (insertKey bit s k t)).Perm ((s, k) :: leaves t) := by
  induction t with
  | leaf s' k' => exact leaves_branch bit s _ k _
  | node s' p l r ihl ihr =>
    rw [insertKey]
    split
    · exact leaves_branch bit s _ k _
    · split
      · exact (ihr.append_left (leaves l)).trans List.perm_middle
      · exact ihl.append_right (leaves r)

/-- All the keys of a trie branch off at the same place from a key that
differs from the first one before the first split. -/
theorem wellFormed_branch {lo : ℕ} (s : σ) (k : K) (old : Trie σ K) (d : ℕ) (hlo : lo ≤ d)
    (hold : WellFormed bit (d + 1) old) (hagree : ∀ k' ∈ keys old, Agree bit d k' k)
    (hne : ∀ k' ∈ keys old, bit k' d = !bit k d) : WellFormed bit lo (branch bit s d k old) := by
  unfold branch
  have hfirst := hagree _ (first_mem old)
  by_cases hbit : bit k d = true
  · rw [if_pos hbit]
    refine ⟨hlo, ?_, ?_, ?_, hold, trivial⟩
    · intro x hx
      rcases Finset.mem_union.mp hx with hx | hx
      · exact (hagree x hx).trans hfirst.symm
      · rw [Finset.mem_singleton.mp hx]
        exact hfirst.symm
    · intro x hx
      rw [hne x hx, hbit]
      rfl
    · intro x hx
      rw [Finset.mem_singleton.mp hx]
      exact hbit
  · rw [if_neg hbit]
    rw [Bool.not_eq_true] at hbit
    refine ⟨hlo, ?_, ?_, ?_, trivial, hold⟩
    · intro x hx
      rcases Finset.mem_union.mp hx with hx | hx
      · rw [Finset.mem_singleton.mp hx]
        exact fun _ _ => rfl
      · exact hagree x hx
    · intro x hx
      rw [Finset.mem_singleton.mp hx]
      exact hbit
    · intro x hx
      rw [hne x hx, hbit]
      rfl

theorem wellFormed_insert {lo : ℕ} (s : σ) (k : K) (t : Trie σ K) (h : WellFormed bit lo t)
    (hlo : Agree bit lo k (first t)) (hne : ∀ k' ∈ keys t, ∃ i, bit k i ≠ bit k' i) :
    WellFormed bit lo (insertKey bit s k t) := by
  induction t generalizing lo with
  | leaf s' k' =>
    have hd := hne k' (Finset.mem_singleton_self k')
    have hge : lo ≤ diff bit k k' := by
      by_contra hlt
      exact diff_ne bit k k' hd (hlo _ (by omega))
    rw [insertKey]
    apply wellFormed_branch bit s k (.leaf s' k') _ hge trivial
    · intro x hx
      rw [Finset.mem_singleton.mp hx]
      exact (diff_agree bit k k').symm
    · intro x hx
      rw [Finset.mem_singleton.mp hx]
      have h := diff_ne bit k k' hd
      cases hk : bit k (diff bit k k') <;> cases ha : bit k' (diff bit k k') <;> simp_all
  | node s' p l r ihl ihr =>
    have hd := hne (first l) (Finset.mem_union_left _ (first_mem l))
    have hge : lo ≤ diff bit k (first l) := by
      by_contra hlt
      exact diff_ne bit k (first l) hd (hlo _ (by omega))
    obtain ⟨hp, hagree, hl, hr, hwl, hwr⟩ := h
    rw [insertKey]
    by_cases hlt : diff bit k (first l) < p
    · rw [if_pos hlt]
      apply wellFormed_branch bit s k (.node s' p l r) _ hge ⟨by omega, hagree, hl, hr, hwl, hwr⟩
      · intro x hx
        exact (diverges bit k (first l) x p (hagree x hx).symm hlt hd).1
      · intro x hx
        exact (diverges bit k (first l) x p (hagree x hx).symm hlt hd).2
    · rw [if_neg hlt]
      have hkp := agree_of_diff_ge bit k (first l) p (by omega)
      by_cases hbit : bit k p = true
      · rw [if_pos hbit]
        refine ⟨hp, ?_, hl, ?_, hwl, ?_⟩
        · intro x hx
          rw [keys_insert] at hx
          rcases Finset.mem_union.mp hx with hx | hx
          · exact hagree x (Finset.mem_union_left _ hx)
          · rcases Finset.mem_insert.mp hx with rfl | hx
            · exact hkp
            · exact hagree x (Finset.mem_union_right _ hx)
        · intro x hx
          rw [keys_insert] at hx
          rcases Finset.mem_insert.mp hx with rfl | hx
          · exact hbit
          · exact hr x hx
        · apply ihr hwr _ (fun x hx => hne x (Finset.mem_union_right _ hx))
          intro i hi
          by_cases hip : i = p
          · rw [hip, hbit, hr _ (first_mem r)]
          · rw [hkp i (by omega)]
            exact (hagree _ (Finset.mem_union_right _ (first_mem r)) i (by omega)).symm
      · rw [if_neg hbit]
        rw [Bool.not_eq_true] at hbit
        have hfirst : Agree bit p (first (insertKey bit s k l)) k := by
          have hmem := first_mem (insertKey bit s k l)
          rw [keys_insert] at hmem
          rcases Finset.mem_insert.mp hmem with heq | hmem
          · rw [heq]
            exact fun _ _ => rfl
          · exact (hagree _ (Finset.mem_union_left _ hmem)).trans hkp.symm
        refine ⟨hp, ?_, ?_, hr, ?_, hwr⟩
        · intro x hx
          rw [keys_insert] at hx
          apply Agree.trans _ hfirst.symm
          rcases Finset.mem_union.mp hx with hx | hx
          · rcases Finset.mem_insert.mp hx with rfl | hx
            · exact fun _ _ => rfl
            · exact (hagree x (Finset.mem_union_left _ hx)).trans hkp.symm
          · exact (hagree x (Finset.mem_union_right _ hx)).trans hkp.symm
        · intro x hx
          rw [keys_insert] at hx
          rcases Finset.mem_insert.mp hx with rfl | hx
          · exact hbit
          · exact hl x hx
        · apply ihl hwl _ (fun x hx => hne x (Finset.mem_union_left _ hx))
          intro i hi
          by_cases hip : i = p
          · rw [hip, hbit, hl _ (first_mem l)]
          · exact hkp i (by omega)

omit [DecidableEq K] in
theorem delete_branch (s : σ) (d : ℕ) (k : K) (old : Trie σ K) :
    deleteKey bit k (branch bit s d k old) = some old := by
  unfold branch
  by_cases hbit : bit k d = true
  · rw [if_pos hbit]
    simp only [deleteKey, hbit, if_true]
  · rw [if_neg hbit]
    simp only [deleteKey, hbit, if_false, Bool.false_eq_true]

omit [DecidableEq K] in
theorem delete_insert (s : σ) (k : K) (t : Trie σ K) :
    deleteKey bit k (insertKey bit s k t) = some t := by
  induction t with
  | leaf s' k' => exact delete_branch bit s _ k _
  | node s' p l r ihl ihr =>
    rw [insertKey]
    split
    · exact delete_branch bit s _ k _
    · split
      case isTrue hbit =>
        simp only [deleteKey, hbit, if_true, ihr]
      case isFalse hbit =>
        simp only [deleteKey, hbit, if_false, ihl, Bool.false_eq_true]

/-- Deleting a key of a well-formed trie. -/
theorem delete_spec {lo : ℕ} (k : K) (t : Trie σ K) (h : WellFormed bit lo t) (hk : k ∈ keys t) :
    (deleteKey bit k t = none ∧ keys t = {k}) ∨
      ∃ t', deleteKey bit k t = some t' ∧ WellFormed bit lo t' ∧ keys t' = (keys t).erase k := by
  induction t generalizing lo with
  | leaf s k' =>
    left
    rw [keys, Finset.mem_singleton] at hk
    exact ⟨rfl, by rw [hk, keys]⟩
  | node s p l r ihl ihr =>
    right
    have hdisj := Finset.disjoint_left.mp (h.disjoint bit)
    obtain ⟨hp, hagree, hl, hr, hwl, hwr⟩ := h
    rcases Finset.mem_union.mp hk with hmem | hmem
    · have hbit := hl k hmem
      have hnot : k ∉ keys r := hdisj hmem
      rcases ihl hwl hmem with ⟨hdel, hkeys⟩ | ⟨l', hdel, hwl', hkeys⟩
      · refine ⟨r, ?_, hwr.weaken bit (by omega), ?_⟩
        · simp only [deleteKey, hbit, hdel, Bool.false_eq_true, if_false]
        · rw [keys, hkeys, Finset.erase_union_distrib, Finset.erase_singleton,
            Finset.empty_union, Finset.erase_eq_of_notMem hnot]
      · have hsub : keys l' ⊆ keys l := by
          rw [hkeys]
          exact Finset.erase_subset k _
        have hfirst := hagree _ (Finset.mem_union_left _ (hsub (first_mem l')))
        refine ⟨.node s p l' r, ?_, ⟨hp, ?_, ?_, hr, hwl', hwr⟩, ?_⟩
        · simp only [deleteKey, hbit, hdel, Bool.false_eq_true, if_false]
        · intro x hx
          exact (hagree x (Finset.union_subset_union_left hsub hx)).trans hfirst.symm
        · exact fun x hx => hl x (hsub hx)
        · rw [keys, keys, hkeys, Finset.erase_union_distrib, Finset.erase_eq_of_notMem hnot]
    · have hbit := hr k hmem
      have hnot : k ∉ keys l := fun hx => hdisj hx hmem
      rcases ihr hwr hmem with ⟨hdel, hkeys⟩ | ⟨r', hdel, hwr', hkeys⟩
      · refine ⟨l, ?_, hwl.weaken bit (by omega), ?_⟩
        · simp only [deleteKey, hbit, hdel, if_true]
        · rw [keys, hkeys, Finset.erase_union_distrib, Finset.erase_singleton,
            Finset.union_empty, Finset.erase_eq_of_notMem hnot]
      · have hsub : keys r' ⊆ keys r := by
          rw [hkeys]
          exact Finset.erase_subset k _
        refine ⟨.node s p l r', ?_, ⟨hp, ?_, hl, ?_, hwl, hwr'⟩, ?_⟩
        · simp only [deleteKey, hbit, hdel, if_true]
        · exact fun x hx => hagree x (Finset.union_subset_union_right hsub hx)
        · exact fun x hx => hr x (hsub hx)
        · rw [keys, keys, hkeys, Finset.erase_union_distrib, Finset.erase_eq_of_notMem hnot]

end Tries

section Parity

variable {K : Type} (f : K → Bool)

instance xorCommutative : Std.Commutative xor := ⟨Bool.xor_comm⟩

instance xorAssociative : Std.Associative xor := ⟨Bool.xor_assoc⟩

/-- The exclusive or of a bit over a set of keys. -/
def parity (S : Finset K) : Bool := S.fold xor false f

@[simp] theorem parity_empty : parity f ∅ = false := rfl

@[simp] theorem parity_singleton (k : K) : parity f {k} = f k := by
  rw [parity, Finset.fold_singleton, Bool.xor_false]

variable [DecidableEq K]

theorem parity_union (S T : Finset K) (h : Disjoint S T) :
    parity f (S ∪ T) = xor (parity f S) (parity f T) := by
  induction S using Finset.induction_on with
  | empty => rw [Finset.empty_union, parity_empty, Bool.false_xor]
  | insert a S ha ih =>
    rw [Finset.disjoint_insert_left] at h
    have hnot : a ∉ S ∪ T := by
      rw [Finset.mem_union]
      exact fun hmem => hmem.elim ha h.1
    rw [Finset.insert_union, parity, Finset.fold_insert hnot, parity, Finset.fold_insert ha,
      Bool.xor_assoc]
    exact congrArg (xor (f a)) (ih h.2)

theorem parity_symmDiff (S T : Finset K) :
    parity f (symmDiff S T) = xor (parity f S) (parity f T) := by
  have hS := parity_union f (S \ T) (S ∩ T) (Finset.disjoint_sdiff_inter S T)
  have hT := parity_union f (T \ S) (T ∩ S) (Finset.disjoint_sdiff_inter T S)
  rw [Finset.sdiff_union_inter] at hS hT
  have hdiff : symmDiff S T = (S \ T) ∪ (T \ S) := rfl
  rw [hdiff, parity_union f _ _ disjoint_sdiff_sdiff, hS, hT, Finset.inter_comm T S]
  cases parity f (S \ T) <;> cases parity f (T \ S) <;> cases parity f (S ∩ T) <;> rfl

end Parity

end Succinct.BitTries
