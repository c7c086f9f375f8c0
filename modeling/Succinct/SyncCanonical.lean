import Succinct.SyncTree

/-!
The key tree is a canonical form of its key set. However a set of keys was
built by additions and removals, the tree is the path-compressed trie of the
set, the same up to the stored flags, and removing a key that was just added
gives back the very tree there was.
-/
namespace Succinct.SyncCanonical

open SyncKeys BitTries SyncBits SyncTree

inductive Op where
  | add (key : SyncKey) (stored : Bool)
  | remove (key : SyncKey)

def Op.apply (root : Node) : Op → Option Node
  | .add key stored => addKey root key stored
  | .remove key => removeKey root key

def runOps : List Op → Node → Option Node
  | [], root => some root
  | op :: rest, root => (op.apply root).bind (runOps rest)

def Op.keysAfter (S : Finset SyncKey) : Op → Finset SyncKey
  | .add key _ => insert key S
  | .remove key => S.erase key

def keysAfter : List Op → Finset SyncKey → Finset SyncKey
  | [], S => S
  | op :: rest, S => keysAfter rest (op.keysAfter S)

def Op.Legal (U : Set SyncKey) (S : Finset SyncKey) : Op → Prop
  | .add key _ => key ∈ U ∧ key ∉ S
  | .remove key => key ∈ S

def Legal (U : Set SyncKey) : List Op → Finset SyncKey → Prop
  | [], _ => True
  | op :: rest, S => op.Legal U S ∧ Legal U rest (op.keysAfter S)

def leafKeys : Node → Finset SyncKey
  | .null => ∅
  | .mk m c0 c1 => if m.prefixLen = KEY_LEN_BITS then {m.key} else leafKeys c0 ∪ leafKeys c1

/-- The canonical tree below a node, whose minPrefixLen is the given one. An
inner node has two children, its key is the common prefix of the leaves
followed by the XOR of their remaining bits. -/
inductive Canonical : ℕ → Node → Prop
  | leaf (lo : ℕ) (key : SyncKey) (stored : Bool) : Canonical lo (leafNode key lo stored)
  | inner (m : KeyMessage) (c0 c1 : Node) (hlo : m.minPrefixLen ≤ m.prefixLen)
      (hlt : m.prefixLen < KEY_LEN_BITS)
      (h0 : Canonical (m.prefixLen + 1) c0) (h1 : Canonical (m.prefixLen + 1) c1)
      (hshared : ∀ k ∈ leafKeys (.mk m c0 c1), ∀ i, i < m.prefixLen → bit k i = bit m.key i)
      (hzero : ∀ k ∈ leafKeys c0, bit k m.prefixLen = false)
      (hone : ∀ k ∈ leafKeys c1, bit k m.prefixLen = true)
      (hxor : ∀ i, m.prefixLen ≤ i → i < KEY_LEN_BITS →
        bit m.key i = parity (fun k => bit k i) (leafKeys (.mk m c0 c1))) :
      Canonical m.minPrefixLen (.mk m c0 c1)

def CanonicalTree (S : Finset SyncKey) (root : Node) : Prop :=
  (S = ∅ ∧ root = .null) ∨ (Canonical 0 root ∧ leafKeys root = S)

def eraseStored : Node → Node
  | .null => .null
  | .mk m c0 c1 => .mk { m with stored := false } (eraseStored c0) (eraseStored c1)

section Canonical

variable {n : ℕ} {U : Set SyncKey} (hU : Spread n U) (hn : n ≤ 63)

include hU hn

theorem leafKeys_embed (lo lo' : ℕ) (t : KeyTrie) (ht : Over U lo' t) :
    leafKeys (embed lo t) = keys t := by
  induction t generalizing lo lo' with
  | leaf s k => rfl
  | node s p l r ihl ihr =>
    have hp := ht.position_lt hU
    have hne : ¬ (message lo (.node s p l r)).prefixLen = KEY_LEN_BITS := by
      change ¬ p = 64
      omega
    rw [embed, leafKeys, if_neg hne, ihl (p + 1) (p + 1) ht.left, ihr (p + 1) (p + 1) ht.right]
    rfl

theorem canonical_embed (lo : ℕ) (t : KeyTrie) (ht : Over U lo t) :
    Canonical lo (embed lo t) := by
  induction t generalizing lo with
  | leaf s k => exact Canonical.leaf lo k s
  | node s p l r ihl ihr =>
    have hp := ht.position_lt hU
    have hw := ht.wellFormed
    have hkeys : leafKeys (.mk (message lo (.node s p l r)) (embed (p + 1) l) (embed (p + 1) r)) =
        keys l ∪ keys r := leafKeys_embed hU hn lo lo (.node s p l r) ht
    apply Canonical.inner (message lo (.node s p l r)) (embed (p + 1) l) (embed (p + 1) r) hw.1
    · change p < 64
      omega
    · exact ihl (p + 1) ht.left
    · exact ihr (p + 1) ht.right
    · intro k hk i hi
      rw [hkeys] at hk
      rw [message_bit lo (.node s p l r) i hi (by change i < p at hi; omega)]
      exact hw.2.1 k hk i hi
    · intro k hk
      rw [leafKeys_embed hU hn _ _ l ht.left] at hk
      exact hw.2.2.1 k hk
    · intro k hk
      rw [leafKeys_embed hU hn _ _ r ht.right] at hk
      exact hw.2.2.2.1 k hk
    · intro i hi hlt
      have hge : ¬ i < p := Nat.not_lt.mpr hi
      rw [hkeys, message, bit_summary _ _ _ _ hlt, if_neg hge]

end Canonical

/-- Every canonical tree is that of a well-formed trie. -/
theorem embed_of_canonical (lo : ℕ) (node : Node) (h : Canonical lo node) :
    ∃ t : KeyTrie, node = embed lo t ∧ WellFormed bit lo t ∧ keys t = leafKeys node := by
  induction h with
  | leaf lo key stored => exact ⟨.leaf stored key, rfl, trivial, rfl⟩
  | inner m c0 c1 hlo hlt _ _ hshared hzero hone hxor ih0 ih1 =>
    obtain ⟨l, hl, hwl, hkl⟩ := ih0
    obtain ⟨r, hr, hwr, hkr⟩ := ih1
    have hkeys : leafKeys (.mk m c0 c1) = keys l ∪ keys r := by
      rw [leafKeys, if_neg (Nat.ne_of_lt hlt), hkl, hkr]
    have hfirst : Agree bit m.prefixLen (first l) m.key := by
      intro i hi
      exact hshared _ (hkeys ▸ Finset.mem_union_left _ (first_mem l)) i hi
    have hkey : m.key = summary m.prefixLen (first l) (keys l ∪ keys r) := by
      apply key_ext
      intro i hi
      rw [bit_summary _ _ _ _ hi]
      by_cases hlt : i < m.prefixLen
      · rw [if_pos hlt]
        exact (hfirst i hlt).symm
      · rw [if_neg hlt]
        rw [hxor i (by omega) hi, hkeys]
    refine ⟨.node m.stored m.prefixLen l r, ?_, ⟨hlo, ?_, ?_, ?_, hwl, hwr⟩, hkeys.symm⟩
    · rw [embed, message, ← hl, ← hr, ← hkey]
    · intro k hk i hi
      rw [hfirst i hi]
      exact hshared k (hkeys ▸ hk) i hi
    · intro k hk
      exact hzero k (hkl ▸ hk)
    · intro k hk
      exact hone k (hkr ▸ hk)

theorem eraseStored_embed (lo : ℕ) (t : KeyTrie) :
    eraseStored (embed lo t) = embed lo (relabel (fun _ => false) t) := by
  induction t generalizing lo with
  | leaf s k => rfl
  | node s p l r ihl ihr =>
    rw [embed, eraseStored, ihl, ihr, relabel, embed]
    simp only [message, first_relabel, keys_relabel]

def Holds (U : Set SyncKey) (S : Finset SyncKey) (root : Node) : Prop :=
  (S = ∅ ∧ root = .null) ∨ ∃ t, root = embed 0 t ∧ Over U 0 t ∧ keys t = S

theorem Holds.unique {U U' : Set SyncKey} {S : Finset SyncKey} {root root' : Node}
    (h : Holds U S root) (h' : Holds U' S root') : eraseStored root = eraseStored root' := by
  rcases h with ⟨hS, rfl⟩ | ⟨t, rfl, ht, hkeys⟩
  · rcases h' with ⟨-, rfl⟩ | ⟨t', rfl, -, hkeys'⟩
    · rfl
    · have hmem := first_mem t'
      rw [hkeys', hS] at hmem
      exact absurd hmem (Finset.notMem_empty _)
  · rcases h' with ⟨hS, rfl⟩ | ⟨t', rfl, ht', hkeys'⟩
    · have hmem := first_mem t
      rw [hkeys, hS] at hmem
      exact absurd hmem (Finset.notMem_empty _)
    · rw [eraseStored_embed, eraseStored_embed,
        unique_of_keys bit false t t' ht.wellFormed ht'.wellFormed (hkeys.trans hkeys'.symm)]

theorem holds_of_canonicalTree {S : Finset SyncKey} {root : Node} (h : CanonicalTree S root) :
    Holds Set.univ S root := by
  rcases h with h | ⟨hcan, hkeys⟩
  · exact Or.inl h
  · obtain ⟨t, rfl, hw, hk⟩ := embed_of_canonical 0 root hcan
    exact Or.inr ⟨t, rfl, ⟨hw, fun _ _ => Set.mem_univ _⟩, hk.trans hkeys⟩

section Operations

variable {n : ℕ} {U : Set SyncKey} (hU : Spread n U) (hn : n ≤ 63)

include hU hn

theorem Holds.canonicalTree {S : Finset SyncKey} {root : Node} (h : Holds U S root) :
    CanonicalTree S root := by
  rcases h with h | ⟨t, rfl, ht, rfl⟩
  · exact Or.inl h
  · exact Or.inr ⟨canonical_embed hU hn 0 t ht, leafKeys_embed hU hn 0 0 t ht⟩

theorem addKey_holds {S : Finset SyncKey} {root : Node} (h : Holds U S root) (k : SyncKey)
    (s : Bool) (hkU : k ∈ U) (hk : k ∉ S) :
    ∃ root', addKey root k s = some root' ∧ Holds U (insert k S) root' := by
  rcases h with ⟨rfl, rfl⟩ | ⟨t, rfl, ht, rfl⟩
  · refine ⟨embed 0 (.leaf s k), rfl, Or.inr ⟨.leaf s k, rfl, ⟨trivial, ?_⟩, rfl⟩⟩
    intro x hx
    rw [Finset.mem_singleton.mp hx]
    exact hkU
  · refine ⟨_, addKey_embed hU hn k hkU s t ht hk, Or.inr ⟨_, rfl, ?_, keys_insert bit s k t⟩⟩
    exact ht.insertKey hU k hkU s hk (fun i hi => absurd hi (Nat.not_lt_zero i))

theorem removeKey_holds {S : Finset SyncKey} {root : Node} (h : Holds U S root) (k : SyncKey)
    (hk : k ∈ S) : ∃ root', removeKey root k = some root' ∧ Holds U (S.erase k) root' := by
  rcases h with ⟨rfl, rfl⟩ | ⟨t, rfl, ht, rfl⟩
  · exact absurd hk (Finset.notMem_empty k)
  · refine ⟨_, removeKey_embed hU hn k t ht hk, ?_⟩
    rcases delete_spec bit k t ht.wellFormed hk with ⟨hdel, hkeys⟩ | ⟨t', hdel, hw, hkeys⟩
    · rw [hdel, hkeys, Finset.erase_singleton]
      exact Or.inl ⟨rfl, rfl⟩
    · rw [hdel]
      refine Or.inr ⟨t', rfl, ⟨hw, ?_⟩, hkeys⟩
      intro x hx
      rw [hkeys] at hx
      exact ht.mem x (Finset.mem_of_mem_erase hx)

theorem runOps_holds (ops : List Op) (S : Finset SyncKey) (root : Node) (h : Holds U S root)
    (hops : Legal U ops S) : ∃ root', runOps ops root = some root' ∧
    Holds U (keysAfter ops S) root' := by
  induction ops generalizing S root with
  | nil => exact ⟨root, rfl, h⟩
  | cons op rest ih =>
    obtain ⟨hop, hrest⟩ := hops
    have hstep : ∃ root', op.apply root = some root' ∧ Holds U (op.keysAfter S) root' := by
      cases op with
      | add key stored => exact addKey_holds hU hn h key stored hop.1 hop.2
      | remove key => exact removeKey_holds hU hn h key hop
    obtain ⟨root', happly, h'⟩ := hstep
    rw [runOps, happly]
    exact ih _ root' h' hrest

theorem removeKey_addKey {S : Finset SyncKey} {root : Node} (h : Holds U S root) (k : SyncKey)
    (s : Bool) (hkU : k ∈ U) (hk : k ∉ S) :
    ∃ root', addKey root k s = some root' ∧ removeKey root' k = some root := by
  rcases h with ⟨rfl, rfl⟩ | ⟨t, rfl, ht, rfl⟩
  · exact ⟨_, rfl, rfl⟩
  · refine ⟨_, addKey_embed hU hn k hkU s t ht hk, ?_⟩
    have hover := ht.insertKey hU k hkU s hk (fun i hi => absurd hi (Nat.not_lt_zero i))
    have hmem : k ∈ keys (insertKey bit s k t) := by
      rw [keys_insert]
      exact Finset.mem_insert_self k _
    rw [removeKey_embed hU hn k _ hover hmem, delete_insert]
    rfl

end Operations

/-- The tree left by any legal operations on keys that pairwise differ in
their first 63 bits is the canonical one of the key set; any other canonical
tree of the set, in particular one built by other operations, differs from
it in stored flags only; and removing a key just added undoes the addition. -/
theorem key_tree_canonical (U : Set SyncKey) (hU : Spread 63 U) (ops : List Op)
    (hops : Legal U ops ∅) :
    ∃ root, runOps ops .null = some root ∧ CanonicalTree (keysAfter ops ∅) root ∧
      (∀ root', CanonicalTree (keysAfter ops ∅) root' → eraseStored root' = eraseStored root) ∧
      (∀ ops', Legal U ops' ∅ → keysAfter ops' ∅ = keysAfter ops ∅ →
        ∃ root', runOps ops' .null = some root' ∧ eraseStored root' = eraseStored root) ∧
      ∀ k ∈ U, k ∉ keysAfter ops ∅ → ∀ stored,
        ∃ root', addKey root k stored = some root' ∧ removeKey root' k = some root := by
  have hempty : Holds U ∅ .null := Or.inl ⟨rfl, rfl⟩
  obtain ⟨root, hrun, hroot⟩ := runOps_holds hU (Nat.le_refl _) ops ∅ .null hempty hops
  refine ⟨root, hrun, hroot.canonicalTree hU (Nat.le_refl _), ?_, ?_, ?_⟩
  · intro root' hroot'
    exact (holds_of_canonicalTree hroot').unique hroot
  · intro ops' hops' hkeys
    obtain ⟨root', hrun', hholds'⟩ := runOps_holds hU (Nat.le_refl _) ops' ∅ .null hempty hops'
    rw [hkeys] at hholds'
    exact ⟨root', hrun', hholds'.unique hroot⟩
  · intro k hkU hk stored
    exact removeKey_addKey hU (Nat.le_refl _) hroot k stored hkU hk

/-- Two keys are added and one of them is removed again. -/
theorem key_tree_canonical_two :
    ∃ root, runOps [.add (fun _ => 0) true, .add (fun _ => 0xff) false,
      .remove (fun _ => 0)] .null =
        some root ∧ CanonicalTree {fun _ => 0xff} root := by
  have hbits : bit (fun _ => 0) 0 ≠ bit (fun _ => 0xff) 0 := by decide
  have hspread : Spread 63 {fun _ => 0, fun _ => 0xff} := by
    intro a ha b hb hne
    refine ⟨0, by omega, ?_⟩
    rcases ha with rfl | rfl <;> rcases hb with rfl | rfl
    · exact absurd rfl hne
    · exact hbits
    · exact hbits.symm
    · exact absurd rfl hne
  have hlegal : Legal {fun _ => 0, fun _ => 0xff}
      [.add (fun _ => 0) true, .add (fun _ => 0xff) false, .remove (fun _ => 0)] ∅ := by
    refine ⟨⟨Or.inl rfl, by decide⟩, ⟨Or.inr rfl, by decide⟩, ?_, trivial⟩
    change (fun _ => 0) ∈ ({fun _ => 0xff, fun _ => 0} : Finset SyncKey)
    decide
  obtain ⟨root, hrun, hroot, -⟩ := key_tree_canonical _ hspread _ hlegal
  have hkeys : keysAfter [.add (fun _ => 0) true, .add (fun _ => 0xff) false,
    .remove (fun _ => 0)] ∅ =
      {fun _ => 0xff} := by decide
  rw [hkeys] at hroot
  exact ⟨root, hrun, hroot⟩

end Succinct.SyncCanonical
