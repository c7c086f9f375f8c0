import Succinct.SyncCompare

/-!
The walks of recv_key and remove_differences through a tree of generic keys,
each along the bits of a message: which subtree they end at, and that they
fail no assertion.
-/
namespace Succinct.SyncWalks

open SyncKeys BitTries SyncBits SyncTree SyncProtocol SyncCompare

def Stored : KeyTrie → Prop
  | .leaf s _ => s = true
  | .node s _ l r => s = true ∧ Stored l ∧ Stored r

/-- A subtree of the tree of a party with the given keys: it has all of them
that agree with it on the bits before its minimum. -/
structure Own (j : ℕ) (U S : Finset SyncKey) (lo : ℕ) (t : KeyTrie) : Prop where
  inside : Over U lo t
  stored : Stored t
  short : lo ≤ 8 * j
  mem_iff : ∀ k, k ∈ keys t ↔ k ∈ S ∧ Agree bit lo k (first t)

theorem Own.side {j : ℕ} {U S : Finset SyncKey} {lo p : ℕ} {s : Bool} {l r : KeyTrie}
    (h : Own j U S lo (.node s p l r)) (hp : p < 8 * j) (b : Bool) :
    Own j U S (p + 1) (side b l r) := by
  have hfirst := (h.inside.mem_side b _).mp (first_mem (SyncTree.side b l r))
  have hw := h.inside.wellFormed
  refine ⟨h.inside.side b, ?_, hp, ?_⟩
  · cases b with
    | false => exact h.stored.2.1
    | true => exact h.stored.2.2
  · intro k
    rw [h.inside.mem_side b k]
    constructor
    · rintro ⟨hk, hbit⟩
      refine ⟨((h.mem_iff k).mp hk).1, ?_⟩
      intro n hn
      by_cases heq : n = p
      · rw [heq, hbit, hfirst.2]
      · exact hw.agree bit k _ hk hfirst.1 n (by omega)
    · rintro ⟨hS, hagree⟩
      refine ⟨(h.mem_iff k).mpr ⟨hS, ?_⟩, ?_⟩
      · exact (hagree.mono (by have := hw.1; omega)).trans ((h.mem_iff _).mp hfirst.1).2
      · rw [hagree p (by omega)]
        exact hfirst.2

/-- Our keys with the first bits of a key are those of the subtree reached
along it. -/
theorem Own.mem_of_agree {j : ℕ} {U S : Finset SyncKey} {lo i : ℕ} {t : KeyTrie}
    (ht : Own j U S lo t)
    {x k : SyncKey} (hlo : lo ≤ i) (hagree : Agree bit i (first t) x) (hS : k ∈ S)
    (hk : Agree bit i k x) : k ∈ keys t :=
  (ht.mem_iff k).mpr ⟨hS, (hk.trans hagree.symm).mono hlo⟩

theorem Own.agree_of_mem {j : ℕ} {U S : Finset SyncKey} {lo i : ℕ} {t : KeyTrie}
    (ht : Own j U S lo t)
    {x k : SyncKey} (hpos : i ≤ position t) (hagree : Agree bit i (first t) x) (hk : k ∈ keys t) :
    Agree bit i k x :=
  ((keys_agree t ht.inside.wellFormed k hk).mono hpos).trans hagree

/-- The peer has no key that leaves its message inside the range of bits the
message speaks for. -/
theorem Own.absent {j : ℕ} {U S : Finset SyncKey} {lo d : ℕ} {M : KeyTrie} (hM : Own j U S lo M)
    (hlo : lo ≤ d) (hd : d < position M) {k : SyncKey} (hagree : Agree bit d k (first M))
    (hne : bit k d ≠ bit (first M) d) : k ∉ S := by
  intro hS
  have hk := (hM.mem_iff k).mpr ⟨hS, hagree.mono hlo⟩
  exact hne (keys_agree M hM.inside.wellFormed k hk d hd)

section Walks

variable {j : ℕ} {U : Finset SyncKey} (hG : Generic U j)

include hG

theorem inner_len (lo : ℕ) {lo' p : ℕ} {s : Bool} {l r : KeyTrie}
    (ht : Over U lo' (.node s p l r)) :
    ¬ (message lo (.node s p l r)).prefixLen = KEY_LEN_BITS := by
  have hp := ht.position_lt hG.spread
  have hle := hG.le
  change ¬ p = 64
  omega

theorem position_le_64 {lo : ℕ} {t : KeyTrie} (ht : Over U lo t) : position t ≤ 64 := by
  cases t with
  | leaf s k => exact Nat.le_refl 64
  | node s p l r =>
    have hp := ht.position_lt hG.spread
    have hle := hG.le
    change p ≤ 64
    omega

/-- A subtree that the difference of two messages points to. -/
theorem testLoop_spec {S : Finset SyncKey} (m : KeyMessage) (fuel lo i : ℕ) (t : KeyTrie)
    (ht : Own j U S lo t) (hpos : i ≤ position t) (hfuel : 65 ≤ fuel + i) :
    testLoop m fuel (embed lo t) i = some .null ∨
      ∃ lo' t', testLoop m fuel (embed lo t) i = some (embed lo' t') ∧ Own j U S lo' t' ∧
        keys t' ⊆ keys t ∧ cmpMessage m (message lo' t') = true := by
  have hle := hG.le
  induction fuel generalizing lo i t with
  | zero =>
    have := position_le_64 hG ht.inside
    omega
  | succ fuel ih =>
    by_cases hcmp : cmpMessage m (message lo t) = true
    · right
      obtain ⟨c0, c1, hembed⟩ := embed_message lo t
      refine ⟨lo, t, ?_, ht, Finset.Subset.refl _, hcmp⟩
      rw [hembed, testLoop, if_pos hcmp]
    · cases t with
      | leaf s k =>
        left
        have hlen : (message lo (.leaf s k)).prefixLen = KEY_LEN_BITS := rfl
        rw [embed, testLoop, if_neg hcmp, if_pos hlen]
      | node s p l r =>
        have hp := ht.inside.position_lt hG.spread
        have hip : i ≤ p := hpos
        rw [embed, testLoop, if_neg hcmp, if_neg (inner_len hG lo ht.inside),
          syncGetBits_eq m.key i (by omega)]
        simp only [Option.bind_eq_bind, Option.bind_some]
        by_cases hlt : i < p
        · have hshort : i < (message lo (.node s p l r)).prefixLen := hlt
          rw [if_pos hshort, syncGetBits_eq _ i (by omega), Option.bind_some]
          split
          · exact Or.inl rfl
          · exact ih lo (i + 1) (.node s p l r) ht hlt (by omega)
        · have heq : i = p := by omega
          subst i
          have hshort : ¬ p < (message lo (.node s p l r)).prefixLen := Nat.lt_irrefl p
          have hchild := embed_child lo p s (bit m.key p) l r
          rw [embed] at hchild
          rw [if_neg hshort, hchild]
          rcases ih (p + 1) (p + 1) _ (ht.side hp (bit m.key p))
            (position_ge (ht.inside.side _).wellFormed (by omega)) (by omega)
            with h | ⟨lo', t', hfound, hown, hsub, hcmp'⟩
          · exact Or.inl h
          · refine Or.inr ⟨lo', t', hfound, hown, ?_, hcmp'⟩
            exact fun k hk => ((ht.inside.mem_side _ k).mp (hsub hk)).1

structure PrefixOf (j : ℕ) (U : Finset SyncKey) (m : KeyMessage) (x : SyncKey) : Prop where
  mem : x ∈ U
  bits : ∀ i, i < m.prefixLen → i < 64 → bit m.key i = bit x i
  len : m.prefixLen = 64 ∨ m.prefixLen < 8 * j

/-- Walking along a message through a subtree stays among the early bits,
unless the subtree is the leaf the message is about. -/
theorem walk_lt {m : KeyMessage} {x : SyncKey} (hm : PrefixOf j U m x) {lo i : ℕ} {t : KeyTrie}
    (ht : Over U lo t) (hne : m.prefixLen = 64 → position t = 64 → first t ≠ x)
    (hagree : Agree bit i (first t) x) (him : i ≤ m.prefixLen) (hpos : i ≤ position t) :
    i < 8 * j := by
  have hlow := hG.low
  rcases hm.len with h64 | hshort
  · cases t with
    | leaf s k =>
      obtain ⟨n, hn, hbit⟩ := hG.spread _ (ht.mem _ (first_mem _)) _ hm.mem (hne h64 rfl)
      by_contra hge
      exact hbit (hagree n (by omega))
    | node s p l r =>
      have hp := ht.position_lt hG.spread
      change i ≤ p at hpos
      omega
  · omega

theorem compareLoop_spec {m : KeyMessage} {x : SyncKey} (hm : PrefixOf j U m x) (fuel lo i : ℕ)
    (t : KeyTrie) (ht : Over U lo t) (hne : m.prefixLen = 64 → position t = 64 → first t ≠ x)
    (hagree : Agree bit i (first t) x) (him : i ≤ m.prefixLen) (hpos : i ≤ position t)
    (hfuel : 65 ≤ fuel + i) :
    (∃ d, compareLoop m (message lo t) fuel i (bit m.key i).toNat = some (.mismatch d) ∧
      d < m.prefixLen ∧ d < position t ∧ i ≤ d ∧ Agree bit d (first t) x ∧
      bit (first t) d ≠ bit x d) ∨
    (∃ q, compareLoop m (message lo t) fuel i (bit m.key i).toNat =
        some (.match q (bit m.key q).toNat) ∧
      q = min m.prefixLen (position t) ∧ Agree bit q (first t) x) := by
  have hle := hG.le
  induction fuel generalizing i with
  | zero =>
    have := walk_lt hG hm ht hne hagree him hpos
    omega
  | succ fuel ih =>
    have hi := walk_lt hG hm ht hne hagree him hpos
    rw [compareLoop, message_prefixLen]
    by_cases hlt : i < position t ∧ i < m.prefixLen
    · rw [if_pos hlt, syncGetBits_eq _ i (by omega), message_bit lo t i hlt.1 (by omega)]
      simp only [Option.bind_eq_bind, Option.bind_some]
      rw [hm.bits i hlt.2 (by omega)]
      by_cases hbit : bit x i = bit (first t) i
      · have hagree' : Agree bit (i + 1) (first t) x := by
          intro n hn
          by_cases heq : n = i
          · rw [heq, hbit]
          · exact hagree n (by omega)
        have hi' := walk_lt hG hm ht hne hagree' hlt.2 hlt.1
        have hnext : syncGetBits (i + PREFIX_STEP_BITS) PREFIX_STEP_BITS m.key =
            some (bit m.key (i + 1)).toNat := syncGetBits_eq m.key (i + 1) (by omega)
        rw [hbit, if_neg (by simp), hnext, Option.bind_some]
        rcases ih (i + 1) hagree' hlt.2 hlt.1 (by omega) with ⟨d, h1, h2, h3, h4, h5⟩ | h
        · exact Or.inl ⟨d, h1, h2, h3, by omega, h5⟩
        · exact Or.inr h
      · left
        rw [if_pos (bool_toNat_ne hbit)]
        exact ⟨i, rfl, hlt.2, hlt.1, Nat.le_refl i, hagree, fun h => hbit h.symm⟩
    · right
      rw [if_neg hlt]
      exact ⟨i, rfl, by omega, hagree⟩

/-- What remove_differences finds for a message about one key. -/
theorem differencesLoop_leaf {m : KeyMessage} (hm : LeafLike j m) (hk : m.key ∈ U)
    (fuel lo i : ℕ) (t : KeyTrie) (ht : Over U lo t) (hlo : lo ≤ 8 * j) (hpos : i ≤ position t)
    (hi : i ≤ 8 * j) (hfuel : 65 ≤ fuel + i) :
    differencesLoop m fuel (embed lo t) i = some .null ∨
      ∃ lo' s, differencesLoop m fuel (embed lo t) i = some (embed lo' (.leaf s m.key)) ∧
        (s, m.key) ∈ leaves t := by
  have hle := hG.le
  have h64 : m.prefixLen = 64 := hm.isLeaf
  induction fuel generalizing lo i t with
  | zero => omega
  | succ fuel ih =>
    cases t with
    | leaf s k =>
      have hlen : (message lo (.leaf s k)).prefixLen = KEY_LEN_BITS := rfl
      rw [embed, differencesLoop, if_pos (by omega)]
      by_cases hcmp : cmpMessage m (message lo (.leaf s k)) = true
      · right
        have heq := eq_of_cmpMessage hG m _ _ _ hm.standsFor (standsFor_message hG _ ht hlo)
          (Finset.singleton_subset_iff.mpr hk) ht.mem hcmp
        have hkey : m.key = k := Finset.singleton_injective heq
        rw [if_pos ⟨hlen, hcmp⟩, hkey]
        exact ⟨lo, s, rfl, List.mem_singleton_self _⟩
      · left
        rw [if_neg (fun h => hcmp h.2), if_pos ⟨hlen, hm.isLeaf⟩]
    | node s p l r =>
      have hp := ht.position_lt hG.spread
      have hip : i ≤ p := hpos
      have hinner := inner_len hG lo ht
      rw [embed, differencesLoop, if_pos (by omega), if_neg (fun h => hinner h.1),
        if_neg (fun h => hinner h.1), syncGetBits_eq m.key i (by omega)]
      simp only [Option.bind_eq_bind, Option.bind_some]
      by_cases hlt : i < p
      · have hshort : i < (message lo (.node s p l r)).prefixLen := hlt
        rw [if_pos hshort, syncGetBits_eq _ i (by omega), Option.bind_some]
        split
        · exact Or.inl rfl
        · exact ih lo (i + 1) (.node s p l r) ht hlo hlt (by omega) (by omega)
      · have heq : i = p := by omega
        subst i
        have hshort : ¬ p < (message lo (.node s p l r)).prefixLen := Nat.lt_irrefl p
        have hchild := embed_child lo p s (bit m.key p) l r
        rw [embed] at hchild
        rw [if_neg hshort, hchild]
        rcases ih (p + 1) (p + 1) _ (ht.side (bit m.key p)) (by omega)
          (position_ge (ht.side _).wellFormed (by omega)) (by omega) (by omega)
          with h | ⟨lo', s', h, hmem⟩
        · exact Or.inl h
        · exact Or.inr ⟨lo', s', h, leaves_side p s _ l r _ hmem⟩

/-- What remove_differences finds for a summary: the subtree of all keys
that have the prefix of the summary. -/
theorem differencesLoop_inner {m : KeyMessage} {x : SyncKey} {X : Finset SyncKey}
    (hm : PrefixOf j U m x) (hstands : StandsFor j m X) (hX : X ⊆ U) (hmany : ∀ k, X ≠ {k})
    (hinner : m.prefixLen < 8 * j) (fuel lo i : ℕ) (t : KeyTrie) (ht : Over U lo t)
    (hlo : lo ≤ 8 * j) (him : i ≤ m.prefixLen) (hpos : i ≤ position t)
    (hagree : Agree bit i (first t) x) (hfuel : 65 ≤ fuel + i) :
    (differencesLoop m fuel (embed lo t) i = some .null ∧
      ∀ k ∈ keys t, ¬ Agree bit m.prefixLen k x) ∨
    ∃ lo' t', differencesLoop m fuel (embed lo t) i = some (embed lo' t') ∧ Over U lo' t' ∧
      m.prefixLen ≤ position t' ∧ (∀ k, k ∈ keys t' ↔ k ∈ keys t ∧ Agree bit m.prefixLen k x) ∧
      ∀ e ∈ leaves t', e ∈ leaves t := by
  have hle := hG.le
  induction fuel generalizing lo i t with
  | zero => omega
  | succ fuel ih =>
    by_cases hend : i < m.prefixLen
    · have hnleaf : ¬ m.prefixLen = KEY_LEN_BITS := by
        change ¬ m.prefixLen = 64
        omega
      have hcmp : ¬ ((message lo t).prefixLen = KEY_LEN_BITS ∧
        cmpMessage m (message lo t) = true) := by
        rintro ⟨hlen, hcmp⟩
        have heq :=
          eq_of_cmpMessage hG m _ _ _ hstands (standsFor_message hG t ht hlo) hX ht.mem hcmp
        cases t with
        | leaf s k => exact hmany k heq
        | node s p l r => exact inner_len hG lo ht hlen
      obtain ⟨c0, c1, hembed⟩ := embed_message lo t
      have hunfold : differencesLoop m (fuel + 1) (embed lo t) i =
          if i < position t then
            if (bit (message lo t).key i).toNat ≠ (bit x i).toNat then some .null
            else differencesLoop m fuel (embed lo t) (i + 1)
          else differencesLoop m fuel ((embed lo t).child (bit x i).toNat) (i + 1) := by
        rw [hembed, differencesLoop, if_pos hend, if_neg hcmp, if_neg (fun h => hnleaf h.2),
          syncGetBits_eq m.key i (by omega), hm.bits i hend (by omega)]
        simp only [Option.bind_eq_bind, Option.bind_some, message_prefixLen]
        rw [syncGetBits_eq _ i (by omega), Option.bind_some]
        rfl
      rw [hunfold]
      by_cases hlt : i < position t
      · rw [if_pos hlt, message_bit lo t i hlt (by omega)]
        by_cases hbit : bit (first t) i = bit x i
        · rw [hbit, if_neg (by simp)]
          apply ih lo (i + 1) t ht hlo hend hlt _ (by omega)
          intro n hn
          by_cases heq : n = i
          · rw [heq, hbit]
          · exact hagree n (by omega)
        · left
          rw [if_pos (bool_toNat_ne hbit)]
          refine ⟨rfl, ?_⟩
          intro k hk hkx
          apply hbit
          rw [← keys_agree t ht.wellFormed k hk i hlt]
          exact hkx i hend
      · rw [if_neg hlt]
        cases t with
        | leaf s k =>
          change ¬ i < 64 at hlt
          omega
        | node s p l r =>
          have hp := ht.position_lt hG.spread
          have hw := ht.wellFormed
          have heq : i = p := by
            change i ≤ p at hpos
            change ¬ i < p at hlt
            omega
          subst i
          rw [embed_child]
          have hside := ht.mem_side (bit x p)
          have hkeys : ∀ k ∈ keys l ∪ keys r, Agree bit m.prefixLen k x →
              k ∈ keys (side (bit x p) l r) :=
            fun k hk hkx => (hside k).mpr ⟨hk, hkx p hend⟩
          have hfirst := (hside _).mp (first_mem (side (bit x p) l r))
          have hagree' : Agree bit (p + 1) (first (side (bit x p) l r)) x := by
            intro n hn
            by_cases heq : n = p
            · rw [heq]
              exact hfirst.2
            · rw [hw.2.1 _ hfirst.1 n (by omega)]
              exact hagree n (by omega)
          rcases ih (p + 1) (p + 1) _ (ht.side (bit x p)) (by omega) hend
            (position_ge (ht.side _).wellFormed (by omega)) hagree' (by omega)
            with ⟨hnull, hnone⟩ | ⟨lo', t', hfound, hover, hge, hmem, hleaves⟩
          · exact Or.inl ⟨hnull, fun k hk hkx => hnone k (hkeys k hk hkx) hkx⟩
          · right
            refine ⟨lo', t', hfound, hover, hge, ?_, fun e he =>
              leaves_side p s _ l r e (hleaves e he)⟩
            intro k
            rw [hmem k]
            refine ⟨fun h => ⟨((hside k).mp h.1).1, h.2⟩, fun h => ⟨hkeys k h.1 h.2, h.2⟩⟩
    · right
      have heq : i = m.prefixLen := by omega
      subst i
      obtain ⟨c0, c1, hembed⟩ := embed_message lo t
      refine ⟨lo, t, ?_, ht, hpos, ?_, fun e he => he⟩
      · rw [hembed, differencesLoop, if_neg hend]
      · intro k
        refine ⟨fun hk => ⟨hk, ?_⟩, fun h => h.1⟩
        exact ((keys_agree t ht.wellFormed k hk).mono hpos).trans hagree

theorem removeDifferences_leaf {m : KeyMessage} (hm : LeafLike j m) (hk : m.key ∈ U)
    (D : Option KeyTrie) (hD : OverOption U D) :
    ∃ node, removeDifferences (embedOption 0 D) m = some (node, m) ∧
      (node = .null ∨ ∃ lo s, node = embed lo (.leaf s m.key) ∧ (s, m.key) ∈ leavesOf D) := by
  cases D with
  | none =>
    exact ⟨.null, by rw [embedOption, removeDifferences, if_pos (Or.inl rfl)], Or.inl rfl⟩
  | some t =>
    by_cases hstored : m.stored = true
    · obtain ⟨c0, c1, hembed⟩ := embed_message 0 t
      have hcond : ¬ (embed 0 t = .null ∨ (!m.stored) = true) := by
        rw [hembed, hstored]
        simp
      have hlen : ¬ m.prefixLen < KEY_LEN_BITS := by
        rw [hm.isLeaf]
        exact Nat.lt_irrefl _
      rw [embedOption, removeDifferences, if_neg hcond]
      rcases differencesLoop_leaf hG hm hk (KEY_LEN_BITS + 2) 0 0 t (hD t rfl) (Nat.zero_le _)
        (Nat.zero_le _) (Nat.zero_le _) (by decide) with hnull | ⟨lo, s, hfound, hmem⟩
      · rw [hnull]
        exact ⟨.null, rfl, Or.inl rfl⟩
      · refine ⟨embed lo (.leaf s m.key), ?_, Or.inr ⟨lo, s, rfl, hmem⟩⟩
        rw [hfound]
        simp only [Option.bind_eq_bind, Option.bind_some, embed, if_neg hlen]
    · refine ⟨.null, ?_, Or.inl rfl⟩
      rw [removeDifferences, if_pos]
      right
      simp [hstored]

/-- The message of an inner node, without the known differences that have
its prefix. -/
theorem removeDifferences_inner {lo p : ℕ} {l r : KeyTrie} (hM : Over U lo (.node true p l r))
    (D : Option KeyTrie) (hD : OverOption U D) :
    ∃ E node, removeDifferences (embedOption 0 D) (message lo (.node true p l r)) =
        some (node, { message lo (.node true p l r) with
          key := summary p (first l) (symmDiff (keys l ∪ keys r) E) }) ∧
      (∀ k, k ∈ E ↔ k ∈ keysOf D ∧ Agree bit p k (first l)) ∧
      (node = .null ∨ ∃ lo' t', node = embed lo' t' ∧ keys t' = E ∧ Over U lo' t' ∧
        ∀ e ∈ leaves t', e ∈ leavesOf D) := by
  have hle := hG.le
  have hp := hM.position_lt hG.spread
  cases D with
  | none =>
    refine ⟨∅, .null, ?_, ?_, Or.inl rfl⟩
    · rw [embedOption, removeDifferences, if_pos (Or.inl rfl), ← Finset.bot_eq_empty,
        symmDiff_bot]
      rfl
    · intro k
      simp [keysOf]
  | some t =>
    have ht := hD t rfl
    obtain ⟨c0, c1, hembed⟩ := embed_message 0 t
    have hcond : ¬ (embed 0 t = .null ∨ (!(message lo (.node true p l r)).stored) = true) := by
      rw [hembed]
      simp [message]
    have hshared : PrefixOf j U (message lo (.node true p l r)) (first l) := by
      refine ⟨hM.mem _ (Finset.mem_union_left _ (first_mem l)), ?_, Or.inr hp⟩
      intro i hi hlt
      exact message_bit lo (.node true p l r) i hi hlt
    have hlo : lo ≤ p := hM.wellFormed.1
    have hstands := standsFor_message hG (.node true p l r) hM (show lo ≤ 8 * j by omega)
    rw [embedOption, removeDifferences, if_neg hcond]
    rcases differencesLoop_inner hG hshared hstands hM.mem (not_singleton bit hM.wellFormed) hp
      (KEY_LEN_BITS + 2) 0 0 t ht (Nat.zero_le _) (Nat.zero_le _) (Nat.zero_le _)
      (fun i hi => absurd hi (Nat.not_lt_zero i)) (by decide)
      with ⟨hnull, hnone⟩ | ⟨lo', t', hfound, hover, hge, hmem, hleaves⟩
    · refine ⟨∅, .null, ?_, ?_, Or.inl rfl⟩
      · rw [hnull, ← Finset.bot_eq_empty, symmDiff_bot]
        rfl
      · intro k
        simp only [Finset.notMem_empty, false_iff, not_and]
        exact hnone k
    · refine ⟨keys t', embed lo' t', ?_, hmem, Or.inr ⟨lo', t', rfl, rfl, hover, hleaves⟩⟩
      have hagree : ∀ k ∈ keys t', Agree bit p k (first l) := fun k hk => ((hmem k).mp hk).2
      have hcarry : Carries p (first l) (keys l ∪ keys r) (message lo (.node true p l r)).key :=
        carries_summary p _ _
      have hlt : (message lo (.node true p l r)).prefixLen < KEY_LEN_BITS := by
        change p < 64
        omega
      obtain ⟨d0, d1, hembed'⟩ := embed_message lo' t'
      rw [hfound]
      simp only [Option.bind_eq_bind, Option.bind_some, hembed', if_pos hlt]
      rw [message_prefixLen]
      by_cases hshort : position t' = (message lo (Trie.node true p l r)).prefixLen ∨
        position t' = KEY_LEN_BITS
      · rw [if_pos hshort]
        have hkey : (message lo' t').key = summary p (first l) (keys t') := by
          cases t' with
          | leaf s k =>
            have hk := hagree k (Finset.mem_singleton_self k)
            rw [← summary_congr p k (first l) _ hk]
            exact (summary_singleton p k).symm
          | node s q l' r' =>
            have hq := hover.position_lt hG.spread
            have heq : q = p := by
              rcases hshort with h | h
              · exact h
              · change q = 64 at h
                omega
            subst q
            exact summary_congr p _ _ _ (hagree _ (Finset.mem_union_left _ (first_mem l')))
        rw [hkey, syncXor_summary p (first l) (keys l ∪ keys r) (keys t') _ rfl (by omega) hcarry]
        rfl
      · rw [if_neg hshort]
        rw [← hembed', xorChildren_embed hG.spread hG.le lo' lo' p (first l)
          (keys l ∪ keys r) t' hover _
          rfl (by omega) hcarry hagree]
        rfl

end Walks

end Succinct.SyncWalks
