import Succinct.SyncLastBits

/-!
Which calls fail no assertion of sync_keys.cpp. A sync state has one tree of
its own and a tree for each of its peers; keys are added to the former, and
buffers of any bytes are received from the latter. Two things go wrong: the
last bit of a key cannot be read, and a key that is to be removed may have
been found by a summary that happens to compare equal to it.

Left out: the context pointers, and the peers that are freed.
-/
namespace Succinct.SyncAssertions

open SyncKeys BitTries SyncBits SyncTree SyncProtocol SyncCompare SyncCanonical SyncParty
  SyncLastBits

structure Tree (root : Node) (D : Option KeyTrie) : Prop where
  embedded : root = embedOption 0 D
  inside : ∀ t ∈ D, Over (keysOf D) 0 t
  spread : Spread 63 (keysOf D)

/-- No two or more of the keys have a summary that compares equal to the
message. -/
def Unmistakable (K : Finset SyncKey) (m : KeyMessage) : Prop :=
  ∀ T ∈ K.powerset, ∀ a ∈ T, ∀ b ∈ T, ∀ p, p < 63 → bit a p ≠ bit b p →
    (∀ x ∈ T, ∀ i, i < p → bit x i = bit a i) →
      cmpMessage { minPrefixLen := 0, stored := true, prefixLen := p, key := summary p a T }
        m = false

section Trees

variable {root : Node} {D : Option KeyTrie}

theorem tree_null : Tree .null none :=
  ⟨rfl, fun _ h => absurd h (by simp), fun _ ha => absurd ha (Finset.notMem_empty _)⟩

theorem Tree.leafKeys (h : Tree root D) : leafKeys root = keysOf D := by
  rw [h.embedded]
  cases D with
  | none => rfl
  | some t => exact leafKeys_embed h.spread (Nat.le_refl _) 0 0 t (h.inside t rfl)

theorem Tree.not_twins (h : Tree root D) {a b : SyncKey} (ha : a ∈ keysOf D) (hb : b ∈ keysOf D) :
    ¬ Twins a b := (spread_iff _).mp h.spread a ha b hb

/-- add_key takes a key without a twin in the tree. -/
theorem Tree.add (h : Tree root D) (s : Bool) {k : SyncKey} (hnot : k ∉ keysOf D)
    (hk : ∀ d ∈ keysOf D, ¬ Twins d k) :
    ∃ root', addKey root k s = some root' ∧ Tree root' (some (insertOption s k D)) := by
  have hkeys : keysOf (some (insertOption s k D)) = insert k (keysOf D) := keys_insertOption s k D
  have hspread : Spread 63 ((insert k (keysOf D) : Finset SyncKey) : Set SyncKey) := by
    rw [spread_iff]
    intro a ha b hb htwins
    rcases Finset.mem_insert.mp ha with rfl | hmem
    · rcases Finset.mem_insert.mp hb with rfl | hb
      · exact htwins.1 rfl
      · exact hk b hb htwins.symm
    · rcases Finset.mem_insert.mp hb with rfl | hb
      · exact hk a hmem htwins
      · exact h.not_twins hmem hb htwins
  rw [h.embedded]
  cases D with
  | none =>
    refine ⟨_, rfl, rfl, ?_, ?_⟩
    · intro t ht
      rw [← Option.some.inj ht]
      exact ⟨trivial, fun x hx => hx⟩
    · rw [hkeys]
      exact hspread
  | some t =>
    have ht : Over (insert k (keysOf (some t)) : Finset SyncKey) 0 t :=
      ⟨(h.inside t rfl).wellFormed, fun x hx => Finset.mem_insert_of_mem hx⟩
    have hmem : k ∈ ((insert k (keysOf (some t)) : Finset SyncKey) : Set SyncKey) :=
      Finset.mem_insert_self _ _
    refine ⟨_, addKey_embed hspread (Nat.le_refl _) k hmem s t ht hnot, rfl, ?_, ?_⟩
    · intro t' ht'
      rw [← Option.some.inj ht', hkeys]
      exact ht.insertKey hspread k hmem s hnot (fun i hi => absurd hi (Nat.not_lt_zero i))
    · rw [hkeys]
      exact hspread

/-- remove_key takes a key of the tree. -/
theorem Tree.remove (h : Tree root D) {k : SyncKey} (hk : k ∈ keysOf D) :
    ∃ root' D', removeKey root k = some root' ∧ Tree root' D' ∧
    keysOf D' = (keysOf D).erase k := by
  have hsub : Spread 63 (((keysOf D).erase k : Finset SyncKey) : Set SyncKey) := fun a ha b hb =>
    h.spread a (Finset.mem_of_mem_erase ha) b (Finset.mem_of_mem_erase hb)
  cases D with
  | none => exact absurd hk (Finset.notMem_empty _)
  | some t =>
    have ht := h.inside t rfl
    have hrun := removeKey_embed h.spread (Nat.le_refl _) k t ht hk
    rw [h.embedded]
    rcases delete_spec bit k t ht.wellFormed hk with ⟨hdel, hkeys⟩ | ⟨t', hdel, hwell, hkeys⟩
    · rw [hdel] at hrun
      refine ⟨_, none, hrun, tree_null, ?_⟩
      rw [keysOf, keysOf, hkeys, Finset.erase_singleton]
    · rw [hdel] at hrun
      refine ⟨_, some t', hrun, ⟨rfl, ?_, ?_⟩, hkeys⟩
      · intro t'' ht''
        rw [← Option.some.inj ht'']
        exact ⟨hwell, fun x hx => hx⟩
      · rw [keysOf, hkeys]
        exact hsub

/-- What find_message finds. -/
theorem Tree.find (h : Tree root D) (m : KeyMessage) :
    (findMessage root m = some .null ∧ m.key ∉ keysOf D) ∨
      ∃ t ∈ D, ∃ lo' t', findMessage root m = some (embed lo' t') ∧ Below 0 t lo' t' ∧
        cmpMessage (message lo' t') m = true := by
  rw [h.embedded]
  cases D with
  | none => exact Or.inl ⟨rfl, Finset.notMem_empty _⟩
  | some t =>
    obtain ⟨c0, c1, hembed⟩ := embed_message 0 t
    have hstart : findMessage (embedOption 0 (some t)) m =
      findLoop m 65 (embed 0 t) (position t) := by
      rw [embedOption, hembed, findMessage, message_prefixLen]
      rfl
    rw [hstart]
    rcases findLoop_total h.spread m 65 0 (position t) t (h.inside t rfl)
      (Nat.le_refl _) (by omega)
      with hnull | ⟨lo', t', hfound⟩
    · exact Or.inl hnull
    · exact Or.inr ⟨t, rfl, lo', t', hfound⟩

end Trees

/-- A subtree that compares equal to a leaf that nothing is mistaken for has
the key of this leaf. -/
theorem Unmistakable.mem {U : Set SyncKey} (hU : Spread 63 U)
    {K : Finset SyncKey} {m : KeyMessage}
    (h : Unmistakable K m) (hleaf : m.prefixLen = 64) (hmin : m.minPrefixLen ≤ 64)
    {lo : ℕ} {t : KeyTrie}
    (ht : Over U lo t) (hlo : lo ≤ 63) (hsub : keys t ⊆ K)
    (hcmp : cmpMessage (message lo t) m = true) :
    m.key ∈ keys t := by
  cases t with
  | leaf s k =>
    have hkey := key_of_cmpMessage (message lo (.leaf s k)) m (by
      rw [xorBegin, xorBegin, hleaf]
      change max lo m.minPrefixLen ≤ min 64 64
      omega) hcmp
    rw [← hkey]
    exact Finset.mem_singleton_self _
  | node s p l r =>
    have hp := ht.position_lt hU
    have hw := ht.wellFormed
    have hfirst : first l ∈ keys l ∪ keys r := Finset.mem_union_left _ (first_mem l)
    have hlast : first r ∈ keys l ∪ keys r := Finset.mem_union_right _ (first_mem r)
    have hsplit : bit (first l) p ≠ bit (first r) p := by
      rw [hw.2.2.1 _ (first_mem l), hw.2.2.2.1 _ (first_mem r)]
      exact Bool.false_ne_true
    have hnot := h _ (Finset.mem_powerset.mpr hsub) (first l) hfirst (first r) hlast p hp hsplit
      (fun x hx => hw.2.1 x hx)
    have hne : ¬ p = KEY_LEN_BITS := not_leaf hU lo ht
    have hsame : cmpMessage (message lo (.node s p l r)) m = cmpMessage
        { minPrefixLen := 0, stored := true, prefixLen := p,
          key := summary p (first l) (keys l ∪ keys r) } m := by
      unfold cmpMessage
      simp only [message, hne, if_false]
    rw [hsame] at hcmp
    exact absurd (hcmp.symm.trans hnot) (by simp)

structure Hears (K : Finset SyncKey) (root : Node) (D : Option KeyTrie) (p : Party) : Prop where
  root_eq : p.root = root
  tree : Tree p.peer.root D
  known : keysOf D ⊆ K

def Ends (root : Node) (r : Option Party) : Prop :=
  ∃ p D, r = some p ∧ p.root = root ∧ Tree p.peer.root D

section Peers

variable {K : Finset SyncKey} {root : Node} {D : Option KeyTrie} {p : Party}

theorem Hears.ends (h : Hears K root D p) : Ends root (some p) := ⟨p, D, rfl, h.root_eq, h.tree⟩

theorem Hears.queue (h : Hears K root D p) (m : KeyMessage) : Hears K root D (p.queue m) :=
  ⟨h.root_eq, h.tree, h.known⟩

theorem peerIsMissing_total (htree : Tree p.peer.root D) (m : KeyMessage) (allowRemove : Bool)
    (hkey : ∀ d ∈ keysOf D, ¬ Twins d m.key)
    (hallow : allowRemove = true →
      m.prefixLen = 64 ∧ m.minPrefixLen ≤ 64 ∧ Unmistakable K m ∧ keysOf D ⊆ K) :
    ∃ b p' D', peerIsMissing p m allowRemove = some (b, p') ∧ p'.root = p.root ∧
      Tree p'.peer.root D' ∧ keysOf D' ⊆ insert m.key (keysOf D) ∧
      (allowRemove = false → keysOf D ⊆ keysOf D') := by
  rcases htree.find m with ⟨hnull, hnot⟩ | ⟨t, ht, lo, t', hfound, hbelow, hcmp⟩
  · obtain ⟨root', hadd, htree'⟩ := htree.add true hnot hkey
    have hkeys : keysOf (some (insertOption true m.key D)) = insert m.key (keysOf D) :=
      keys_insertOption true m.key D
    refine ⟨true, Party.call { p
      with peer := { p.peer with root := root', sendCount := p.peer.sendCount + 1 } }
      (.hasNot m.key), _, ?_, rfl, htree', hkeys.subset, fun _ => ?_⟩
    · rw [peerIsMissing, hnull]
      simp only [Option.bind_eq_bind, Option.bind_some, hadd]
    · rw [hkeys]
      exact Finset.subset_insert _ _
  · obtain ⟨c0, c1, hembed⟩ := embed_message lo t'
    rw [peerIsMissing, hfound, hembed]
    simp only [Option.bind_eq_bind, Option.bind_some]
    by_cases hremove : ((message lo t').stored && allowRemove) = true
    · have hyes : allowRemove = true := (Bool.and_eq_true_iff.mp hremove).2
      obtain ⟨hleaf, hmin, hclear, hsub⟩ := hallow hyes
      have hover := htree.inside t ht
      have hdown : keys t' ⊆ keysOf D := by
        rw [Option.mem_def.mp ht]
        exact hbelow.keys_subset hover
      have hmem := hclear.mem htree.spread hleaf hmin (hbelow.over hover)
        (hbelow.short htree.spread hover (Nat.zero_le _)) (hdown.trans hsub) hcmp
      obtain ⟨root', D', hrun, htree', hkeys⟩ := htree.remove (hdown hmem)
      refine ⟨true, { p.call (.nowHas m.key) with
        peer := { p.peer with root := root', sendCount := p.peer.sendCount - 1 } }, D',
          ?_, rfl, htree', ?_,
        fun hno => absurd hyes (by rw [hno]; simp)⟩
      · rw [if_pos hremove]
        change (removeKey p.peer.root m.key).bind _ = _
        rw [hrun]
        rfl
      · rw [hkeys]
        exact (Finset.erase_subset _ _).trans (Finset.subset_insert _ _)
    · refine ⟨_, p, D, if_neg hremove, rfl, htree, Finset.subset_insert _ _,
        fun _ => Finset.Subset.refl _⟩

/-- All leaves of a subtree of our own can be told. -/
theorem peerMissingLeafNodes_total (hK : Spread 63 K) (allowRemove : Bool)
    (lo except : ℕ) (t : KeyTrie) (ht : Over K lo t) (hlo : lo ≤ 63)
    (hclear : allowRemove = true → ∀ m ∈ leafMessages (embed lo t), Unmistakable K m)
    (h : Hears K root D p) :
    ∃ p' D', peerMissingLeafNodes allowRemove (embed lo t) except p = some p' ∧
    Hears K root D' p' ∧
      (allowRemove = false → keysOf D ⊆ keysOf D') := by
  induction t generalizing lo except D p with
  | leaf s k =>
    have hlen : (message lo (.leaf s k)).prefixLen = KEY_LEN_BITS := rfl
    have hk : k ∈ K := ht.mem k (Finset.mem_singleton_self k)
    obtain ⟨b, p', D', hrun, hroot, htree, hsub, hkept⟩ := peerIsMissing_total h.tree
      (message lo (.leaf s k)) allowRemove
      (fun d hd => (spread_iff _).mp hK d (h.known hd) k hk)
      (fun hyes => ⟨rfl, by change lo ≤ 64; omega, hclear hyes _ (by
        rw [embed, leafMessages, if_pos hlen]
        exact List.mem_singleton_self _), h.known⟩)
    have hhears : Hears K root D' p' :=
      ⟨hroot.trans h.root_eq, htree, hsub.trans (Finset.insert_subset hk h.known)⟩
    rw [embed, peerMissingLeafNodes, if_pos hlen, hrun]
    simp only [Option.bind_eq_bind, Option.bind_some]
    cases b with
    | true => exact ⟨_, D', rfl, hhears.queue _, hkept⟩
    | false => exact ⟨_, D', rfl, hhears, hkept⟩
  | node s q l r ihl ihr =>
    have hq := ht.position_lt hK
    have hinner := not_leaf hK lo ht
    have hleft : allowRemove = true → ∀ m ∈ leafMessages (embed (q + 1) l), Unmistakable K m := by
      intro hyes m hm
      apply hclear hyes
      rw [embed, leafMessages, if_neg hinner]
      exact List.mem_append_left _ hm
    have hright : allowRemove = true → ∀ m ∈ leafMessages (embed (q + 1) r),
      Unmistakable K m := by
      intro hyes m hm
      apply hclear hyes
      rw [embed, leafMessages, if_neg hinner]
      exact List.mem_append_right _ hm
    rw [embed, peerMissingLeafNodes, if_neg hinner]
    obtain ⟨p1, D1, hrun1, h1, hkept1⟩ : ∃ p' D', (if 0 ≠ except ∧ embed (q + 1) l ≠ .null then
        peerMissingLeafNodes allowRemove (embed (q + 1) l) NODE_CHILDREN p
          else some p) = some p' ∧
        Hears K root D' p' ∧ (allowRemove = false → keysOf D ⊆ keysOf D') := by
      split
      · exact ihl (q + 1) _ ht.left (by omega) hleft h
      · exact ⟨p, D, rfl, h, fun _ => Finset.Subset.refl _⟩
    obtain ⟨p2, D2, hrun2, h2, hkept2⟩ : ∃ p' D', (if 1 ≠ except ∧ embed (q + 1) r ≠ .null then
        peerMissingLeafNodes allowRemove (embed (q + 1) r) NODE_CHILDREN p1
          else some p1) = some p' ∧
        Hears K root D' p' ∧ (allowRemove = false → keysOf D1 ⊆ keysOf D') := by
      split
      · exact ihr (q + 1) _ ht.right (by omega) hright h1
      · exact ⟨p1, D1, rfl, h1, fun _ => Finset.Subset.refl _⟩
    refine ⟨p2, D2, ?_, h2, fun hno => (hkept1 hno).trans (hkept2 hno)⟩
    by_cases hchild : 0 ≠ except ∧ embed (q + 1) l ≠ .null
    · rw [if_pos hchild] at hrun1
      rw [if_pos hchild, hrun1]
      exact hrun2
    · rw [if_neg hchild] at hrun1
      rw [if_neg hchild, hrun1]
      exact hrun2

theorem addedLeaf_total {U : Set SyncKey} (hU : Spread 63 U) (lo : ℕ)
    (t : KeyTrie) (ht : Over U lo t)
    {k : SyncKey} (hk : k ∈ keys t) : ∃ m, addedLeaf k (embed lo t) = some m := by
  induction t generalizing lo with
  | leaf s k' =>
    have hlen : (message lo (.leaf s k')).prefixLen = KEY_LEN_BITS := rfl
    have hkey : (message lo (.leaf s k')).key = k := (Finset.mem_singleton.mp hk).symm
    exact ⟨_, by rw [embed, addedLeaf, if_pos hlen, if_pos hkey]⟩
  | node s q l r ihl ihr =>
    rw [embed, addedLeaf, if_neg (not_leaf hU lo ht)]
    rcases Finset.mem_union.mp hk with hk | hk
    · obtain ⟨m, hm⟩ := ihl (q + 1) ht.left hk
      exact ⟨m, by rw [hm, Option.some_or]⟩
    · obtain ⟨m, hm⟩ := ihr (q + 1) ht.right hk
      cases hl : addedLeaf k (embed (q + 1) l) with
      | some m' => exact ⟨m', by rw [Option.some_or]⟩
      | none => exact ⟨m, by rw [Option.none_or, hm]⟩

theorem peerAddKey_total (htree : Tree p.peer.root D) (m : KeyMessage)
    (hkey : m.prefixLen = 64 → m.stored = true → ∀ d ∈ keysOf D, ¬ Twins d m.key) :
    Ends p.root (peerAddKey p m) := by
  by_cases hcond : m.prefixLen ≠ KEY_LEN_BITS ∨ (!m.stored) = true
  · refine ⟨p, D, ?_, rfl, htree⟩
    rw [peerAddKey, if_pos hcond]
  · have hlen : m.prefixLen = 64 := by
      by_contra hne
      exact hcond (Or.inl hne)
    have hstored : m.stored = true := by
      by_contra hno
      exact hcond (Or.inr (by simp [hno]))
    rw [peerAddKey, if_neg hcond]
    rcases htree.find m with ⟨hnull, hnot⟩ | ⟨t, ht, lo, t', hfound, -, -⟩
    · obtain ⟨root', hadd, htree'⟩ := htree.add false hnot (hkey hlen hstored)
      have hmem : m.key ∈ keys (insertOption false m.key D) := by
        rw [keys_insertOption]
        exact Finset.mem_insert_self _ _
      obtain ⟨leaf, hleaf⟩ := addedLeaf_total htree'.spread 0 _ (htree'.inside _ rfl) hmem
      have hroot : root' = embed 0 (insertOption false m.key D) := htree'.embedded
      rw [← hroot] at hleaf
      refine ⟨Party.queue (Party.call { p with
        peer := { p.peer with root := root', recvCount := p.peer.recvCount + 1 } }
          (.has m.key)) leaf, _, ?_,
        rfl, htree'⟩
      rw [hnull]
      simp only [Option.bind_eq_bind, Option.bind_some, hadd, hleaf]
    · obtain ⟨c0, c1, hembed⟩ := embed_message lo t'
      refine ⟨p, D, ?_, rfl, htree⟩
      rw [hfound, hembed]
      rfl

/-- The keys below a peer node are in the peer tree when they are removed. -/
theorem peerHasReceivedAll_total {U : Set SyncKey} (hU : Spread 63 U) (lo : ℕ) (t : KeyTrie)
    (ht : Over U lo t) (htree : Tree p.peer.root D) (hsub : keys t ⊆ keysOf D) :
    ∃ n p' D', peerHasReceivedAll (embed lo t) p = some (n, p') ∧ p'.root = p.root ∧
      Tree p'.peer.root D' ∧ ∀ k ∈ keysOf D, k ∉ keys t → k ∈ keysOf D' := by
  induction t generalizing lo D p with
  | leaf s k =>
    have hlen : (message lo (.leaf s k)).prefixLen = KEY_LEN_BITS := rfl
    rw [embed, peerHasReceivedAll, if_pos hlen]
    by_cases hs : (message lo (.leaf s k)).stored = true
    · obtain ⟨root', D', hrun, htree', hkeys⟩ := htree.remove (hsub (Finset.mem_singleton_self k))
      refine ⟨1, { p.call (.nowHas k) with
        peer := { p.peer with root := root', sendCount := p.peer.sendCount - 1 } }, D',
          ?_, rfl, htree', ?_⟩
      · rw [if_pos hs]
        change (removeKey p.peer.root k).bind _ = _
        rw [hrun]
        rfl
      · intro x hx hne
        rw [hkeys]
        exact Finset.mem_erase.mpr ⟨fun heq => hne (heq ▸ Finset.mem_singleton_self _), hx⟩
    · exact ⟨0, p, D, if_neg hs, rfl, htree, fun x hx _ => hx⟩
  | node s q l r ihl ihr =>
    have hdisj := Finset.disjoint_left.mp (ht.wellFormed.disjoint bit)
    obtain ⟨n1, p1, D1, hrun1, hroot1, htree1, hkept1⟩ := ihl (q + 1) ht.left htree
      (Finset.subset_union_left.trans hsub)
    obtain ⟨n2, p2, D2, hrun2, hroot2, htree2, hkept2⟩ := ihr (q + 1) ht.right htree1 (fun k hk =>
      hkept1 k (hsub (Finset.mem_union_right _ hk)) (fun hl => hdisj hl hk))
    refine ⟨n1 + n2, p2, D2, ?_, hroot2.trans hroot1, htree2, ?_⟩
    · rw [embed, peerHasReceivedAll, if_neg (not_leaf hU lo ht), hrun1]
      simp only [Option.bind_eq_bind, Option.bind_some, hrun2]
    · intro k hk hnot
      exact hkept2 k (hkept1 k hk (fun hl => hnot (Finset.mem_union_left _ hl)))
        (fun hr => hnot (Finset.mem_union_right _ hr))

end Peers

/-- What may be received: no twins come together, neither of an own key and
one known of the peer, nor of these and the message; and where the message is
a summary, so that keys may be removed again, no summary of keys at hand is
mistaken for an own leaf. -/
structure Receivable (root peerRoot : Node) (m : KeyMessage) : Prop where
  apart : ∀ k ∈ leafKeys root, ∀ d ∈ leafKeys peerRoot, ¬ Twins k d
  mine : m.prefixLen = 63 ∨ m.prefixLen = 64 → ∀ k ∈ leafKeys root, ¬ Twins k m.key
  theirs : m.prefixLen = 64 → m.stored = true → ∀ d ∈ leafKeys peerRoot, ¬ Twins d m.key
  acked : m.stored = false → ∀ n ∈ nodeMessages root, cmpMessage m n = true →
    ∀ d ∈ leafKeys peerRoot, ¬ Twins d n.key
  clear : m.prefixLen < 63 → ∀ n ∈ leafMessages root,
    Unmistakable (leafKeys root ∪ leafKeys peerRoot) n

section Receive

variable {root peerRoot : Node} {t₀ : KeyTrie} {D₀ : Option KeyTrie} {m : KeyMessage}
  (hown : Tree root (some t₀)) (hpeer : Tree peerRoot D₀) (hr : Receivable root peerRoot m)

include hown hpeer hr

theorem Receivable.spread : Spread 63 (leafKeys root ∪ leafKeys peerRoot : Finset SyncKey) := by
  rw [spread_iff]
  intro a ha b hb htwins
  rcases Finset.mem_union.mp ha with ha | ha <;> rcases Finset.mem_union.mp hb with hb | hb
  · rw [hown.leafKeys] at ha hb
    exact hown.not_twins ha hb htwins
  · exact hr.apart a ha b hb htwins
  · exact hr.apart b hb a ha htwins.symm
  · rw [hpeer.leafKeys] at ha hb
    exact hpeer.not_twins ha hb htwins

omit hpeer hr in
theorem Tree.over_union (K : Finset SyncKey) :
    Over (SyncCanonical.leafKeys root ∪ K : Finset SyncKey) 0 t₀ := by
  have ht := hown.inside t₀ rfl
  refine ⟨ht.wellFormed, fun k hk => Finset.mem_union_left _ ?_⟩
  rw [hown.leafKeys]
  exact hk

variable {lo : ℕ} {t : KeyTrie} (hbelow : Below 0 t₀ lo t) {D : Option KeyTrie} {p : Party}

include hbelow

/-- Our leaves below a node are told, and taken back if they were told
before and nothing is mistaken for them. -/
theorem tells (h : Hears (leafKeys root ∪ leafKeys peerRoot) root D p)
    (allowRemove : Bool) (except : ℕ) (hallow : allowRemove = true → m.prefixLen < 63) :
    ∃ p' D', peerMissingLeafNodes allowRemove (embed lo t) except p = some p' ∧
      Hears (leafKeys root ∪ leafKeys peerRoot) root D' p' ∧
      (allowRemove = false → keysOf D ⊆ keysOf D') := by
  have hK := hr.spread hown hpeer
  have hover := hown.over_union (leafKeys peerRoot)
  refine peerMissingLeafNodes_total hK allowRemove lo except t (hbelow.over hover)
    (hbelow.short hK hover (Nat.zero_le _)) (fun hyes n hn => hr.clear (hallow hyes) n ?_) h
  rw [hown.embedded]
  exact hbelow.leafMessages_subset hK hover n hn

theorem answerNode_total (h : Hears (leafKeys root ∪ leafKeys peerRoot) root D p) (key : SyncKey)
    (blank : Bool) (hshort : m.prefixLen < 63) (hpos : m.prefixLen ≤ position t) {c0 c1 : Node}
    (hembed : embed lo t = .mk (message lo t) c0 c1) :
    Ends root (answerNode p { m with key := key } blank (message lo t) c0 c1 m.prefixLen) := by
  have hK := hr.spread hown hpeer
  have hover := hbelow.over (hown.over_union (leafKeys peerRoot))
  rw [answerNode, ← hembed, message_prefixLen]
  split
  · obtain ⟨p', D', hrun, hears, -⟩ :=
      tells hown hpeer hr hbelow h true NODE_CHILDREN (fun _ => hshort)
    rw [hrun]
    exact hears.ends
  · split
    · exact (h.queue _).ends
    · obtain ⟨key', hxor⟩ := syncXor_total (message lo t).key { m with key := key }
        (show m.prefixLen < 64 by omega)
      rw [hxor, Option.bind_eq_bind, Option.bind_some]
      rcases testLoop_total hK { m with key := key' }
        (KEY_LEN_BITS + 2) lo m.prefixLen t hover hpos
        (by change 65 ≤ 64 + 2 + _; omega) with hnull | ⟨lo', t', hfound, hdown⟩
      · rw [hnull]
        cases c0 with
        | null =>
          cases c1 with
          | null => exact h.ends
          | mk m1 d0 d1 => exact (h.queue m1).ends
        | mk m0 d0 d1 =>
          cases c1 with
          | null => exact (h.queue m0).ends
          | mk m1 e0 e1 => exact ((h.queue m0).queue m1).ends
      · obtain ⟨d0, d1, hembed'⟩ := embed_message lo' t'
        obtain ⟨p', D', hrun, hears, -⟩ :=
          tells hown hpeer hr (hbelow.trans hdown) h true NODE_CHILDREN
          (fun _ => hshort)
        rw [hfound, hembed']
        rw [hembed'] at hrun
        simp only [Option.bind_eq_bind, Option.bind_some, hrun]
        exact hears.ends

theorem answerMismatch_total
    (h : Hears (leafKeys root ∪ leafKeys peerRoot) root D p) {key : SyncKey}
    (hkey : m.prefixLen = 64 → key = m.key) {c0 c1 : Node}
    (hembed : embed lo t = .mk (message lo t) c0 c1)
    (d : ℕ) : Ends root (answerMismatch p { m with key := key } (message lo t) c0 c1 d) := by
  have hadd : ∀ {D p}, Hears (leafKeys root ∪ leafKeys peerRoot) root D p →
      Ends root (if m.prefixLen = KEY_LEN_BITS
        then peerAddKey p { m with key := key } else some p) := by
    intro D p h
    split
    · have hends := peerAddKey_total h.tree { m with key := key } (by
        intro hlen hstored x hx
        rw [hkey hlen]
        rcases Finset.mem_union.mp (h.known hx) with hx | hx
        · exact hr.mine (Or.inr hlen) x hx
        · exact hr.theirs hlen hstored x hx)
      rwa [h.root_eq] at hends
    · exact h.ends
  rw [answerMismatch, ← hembed]
  by_cases htell : d ≥ m.minPrefixLen ∧ m.stored = true
  · obtain ⟨p', D', hrun, hears, -⟩ :=
      tells hown hpeer hr hbelow h false NODE_CHILDREN (fun hno => by cases hno)
    have hqueued : Hears (leafKeys root ∪ leafKeys peerRoot) root D'
        (if m.prefixLen ≠ KEY_LEN_BITS then p'.queue (message lo t) else p') := by
      split
      · exact hears.queue _
      · exact hears
    rw [if_pos htell, hrun]
    exact hadd hqueued
  · rw [if_neg htell]
    exact hadd h

end Receive

section Loop

variable {root peerRoot : Node} {t₀ : KeyTrie} {D₀ : Option KeyTrie} {m : KeyMessage}
  (hown : Tree root (some t₀)) (hpeer : Tree peerRoot D₀) (hr : Receivable root peerRoot m)

include hown hpeer hr

/-- A message that compares equal to one of our nodes. -/
theorem recvSame_total {peerNode : Node}
    (hnode : peerNode = .null ∨ ∃ t ∈ D₀, ∃ lo' t', peerNode = embed lo' t' ∧ Below 0 t lo' t')
    {lo : ℕ} {t : KeyTrie} (hbelow : Below 0 t₀ lo t) (hcmp : cmpMessage m (message lo t) = true)
    {D : Option KeyTrie} {p : Party} (h : Hears (leafKeys root ∪ leafKeys peerRoot) root D p)
    (hmore : keysOf D₀ ⊆ keysOf D) (hsame : m.stored = false → keysOf D = keysOf D₀) :
    Ends root (if m.stored then (peerHasReceivedAll peerNode p).map Prod.snd
      else (peerIsMissing p (message lo t) false).map Prod.snd) := by
  by_cases hstored : m.stored = true
  · rw [if_pos hstored]
    rcases hnode with rfl | ⟨t₁, ht₁, lo', t', rfl, hdown⟩
    · exact h.ends
    · have hover := hpeer.inside t₁ ht₁
      have hsub : keys t' ⊆ keysOf D := by
        rw [Option.mem_def.mp ht₁] at hmore
        exact (hdown.keys_subset hover).trans hmore
      obtain ⟨n, p', D', hrun, hroot, htree, -⟩ :=
        peerHasReceivedAll_total hpeer.spread lo' t' (hdown.over hover) h.tree hsub
      exact ⟨p', D', by rw [hrun]; rfl, hroot.trans h.root_eq, htree⟩
  · have hno : m.stored = false := Bool.eq_false_iff.mpr hstored
    rw [if_neg hstored]
    obtain ⟨b, p', D', hrun, hroot, htree, -⟩ :=
      peerIsMissing_total (K := ∅) h.tree (message lo t) false (by
      intro d hd
      rw [hsame hno, ← hpeer.leafKeys] at hd
      refine hr.acked hno (message lo t) ?_ hcmp d hd
      rw [hown.embedded]
      exact hbelow.message_mem) (fun hyes => by cases hyes)
    exact ⟨p', D', by rw [hrun]; rfl, hroot.trans h.root_eq, htree⟩

/-- The loop of recv_key returns, from every node that the message leads to. -/
theorem recvLoop_total {key : SyncKey} (hlen : m.prefixLen ≤ 64)
    (hkey : 63 ≤ m.prefixLen → Agree bit 63 key m.key) (hwhole : m.prefixLen = 64 → key = m.key)
    {peerNode : Node}
    (hnode : peerNode = .null ∨ ∃ t ∈ D₀, ∃ lo' t', peerNode = embed lo' t' ∧ Below 0 t lo' t')
    (blank : Bool) (fuel lo i : ℕ) (t : KeyTrie) (hbelow : Below 0 t₀ lo t)
    (him : i ≤ m.prefixLen)
    (hpos : i ≤ position t) (hagree : Agree bit i (first t) key) (hfuel : 66 ≤ fuel + i)
    {D : Option KeyTrie} {p : Party} (h : Hears (leafKeys root ∪ leafKeys peerRoot) root D p)
    (hmore : keysOf D₀ ⊆ keysOf D) (hsame : m.stored = false → keysOf D = keysOf D₀) :
    Ends root (recvLoop m { m with key := key } peerNode blank fuel p (embed lo t) i) := by
  have hK := hr.spread hown hpeer
  induction fuel generalizing lo i t D p with
  | zero => omega
  | succ fuel ih =>
    obtain ⟨c0, c1, hembed⟩ := embed_message lo t
    have hover := hbelow.over (hown.over_union (leafKeys peerRoot))
    rw [hembed, recvLoop]
    by_cases hcmp : cmpMessage m (message lo t) = true
    · rw [if_pos hcmp]
      exact recvSame_total hown hpeer hr hnode hbelow hcmp h hmore hsame
    · rw [if_neg hcmp]
      split
      · exact h.ends
      · -- a leaf that agrees up to its last bit has the key of the message
        have hfar : 63 ≤ m.prefixLen → position t = 64 → ¬ Agree bit 63 (first t) key := by
          intro hlong hleaf htwin
          have hmem : first t ∈ leafKeys root := by
            rw [hown.leafKeys]
            exact hbelow.keys_subset (hown.inside t₀ rfl) (first_mem t)
          have heq := eq_of_agree (hr.mine (by omega) _ hmem) (htwin.trans (hkey hlong))
          apply hcmp
          apply cmpMessage_of_key
          cases t with
          | leaf s k => exact heq.symm
          | node s q l r =>
            have hq := hover.position_lt hK
            change q = 64 at hleaf
            omega
        have hi : i < 63 :=
          walk_short (m := { m with key := key }) hK hlen hover hfar him hpos hagree
        by_cases hstop : m.prefixLen ≤ i
        · obtain rfl : i = m.prefixLen := by omega
          rw [if_pos hstop]
          exact answerNode_total hown hpeer hr hbelow h key blank hi hpos hembed
        · rw [if_neg hstop, syncGetBits_eq key i hi]
          simp only [Option.bind_eq_bind, Option.bind_some]
          rcases compareLoop_total hK { m with key := key } hlen
            (KEY_LEN_BITS + 1) lo i t hover hfar him hpos
            hagree (by change 65 ≤ 65 + i; omega) with ⟨d, hrun⟩ | ⟨q, hrun, hq, hagree'⟩
          · rw [hrun]
            exact answerMismatch_total hown hpeer hr hbelow h hwhole hembed d
          · rw [hrun, Option.bind_some]
            change q = min m.prefixLen _ at hq
            by_cases hend : m.prefixLen ≤ q
            · simp only [if_pos hend, ← hembed]
              exact ih lo q t hbelow (by omega) (by omega) hagree' (by omega) h hmore hsame
            · simp only [if_neg hend]
              cases t with
              | leaf s k =>
                change q = min _ 64 at hq
                omega
              | node s q' l r =>
                obtain rfl : q = q' := by
                  change q = min _ q' at hq
                  omega
                have hshort := hover.position_lt hK
                obtain ⟨d0, d1, hside⟩ := embed_message (q + 1) (side (bit key q) l r)
                have hchild := embed_child lo q s (bit key q) l r
                rw [hembed, hside] at hchild
                have hguard : q = (message lo (.node s q l r)).prefixLen := rfl
                have hnext : ∀ {D' p'}, Hears (leafKeys root ∪ leafKeys peerRoot) root D' p' →
                    keysOf D₀ ⊆ keysOf D' → (m.stored = false → keysOf D' = keysOf D₀) →
                    Ends root (recvLoop m { m with key := key } peerNode blank fuel p'
                      (.mk (message (q + 1) (side (bit key q) l r)) d0 d1) (q + 1)) := by
                  intro D' p' h' hmore' hsame'
                  rw [← hside]
                  exact ih (q + 1) (q + 1) _ (hbelow.side _) (by omega)
                    (position_ge (hover.side _).wellFormed (by omega))
                      (hover.agree_side hagree') (by omega)
                    h' hmore' hsame'
                rw [hchild, guard, if_pos hguard]
                rw [Option.pure_def, Option.bind_some]
                by_cases htell : m.minPrefixLen ≤
                  (message lo (.node s q l r)).prefixLen ∧ m.stored = true
                · obtain ⟨p', D', hrun', hears, hkept⟩ :=
                    tells hown hpeer hr hbelow h false (bit key q).toNat
                    (fun hno => by cases hno)
                  rw [hembed] at hrun'
                  rw [if_pos htell, hrun', Option.bind_some]
                  exact hnext hears (hmore.trans (hkept rfl)) (fun hno => by
                    rw [htell.2] at hno
                    cases hno)
                · rw [if_neg htell]
                  exact hnext h hmore hsame

end Loop

theorem recvKey_total {own D : Option KeyTrie} {p : Party} {m : KeyMessage}
    (hown : Tree p.root own) (hpeer : Tree p.peer.root D) (hr : Receivable p.root p.peer.root m) :
    ∃ ret p' D', recvKey p m = some (ret, p') ∧ p'.root = p.root ∧ Tree p'.peer.root D' := by
  have hears : Hears (leafKeys p.root ∪ leafKeys p.peer.root) p.root D p := by
    refine ⟨rfl, hpeer, ?_⟩
    rw [hpeer.leafKeys]
    exact Finset.subset_union_right
  have hended : ∀ {r : Option Party}, Ends p.root r →
    ∃ (ret : ℤ) (p' : Party) (D' : Option KeyTrie),
      (r.bind fun p' => some ((0 : ℤ), p')) = some (ret, p') ∧ p'.root = p.root ∧
        Tree p'.peer.root D' := by
    rintro r ⟨p', D', rfl, hroot, htree⟩
    exact ⟨0, p', D', rfl, hroot, htree⟩
  rw [recvKey]
  by_cases hformed : m.minPrefixLen > m.prefixLen ∨ m.prefixLen > KEY_LEN_BITS + 1
  · rw [if_pos hformed]
    exact ⟨-1, p, D, rfl, rfl, hpeer⟩
  · rw [if_neg hformed]
    cases own with
    | none =>
      have hnull : p.root = .null := hown.embedded
      rw [if_pos hnull]
      refine hended (peerAddKey_total hpeer m fun hlen hstored d hd => ?_)
      rw [← hpeer.leafKeys] at hd
      exact hr.theirs hlen hstored d hd
    | some t₀ =>
      have hroot : p.root = embed 0 t₀ := hown.embedded
      have hnull : ¬ p.root = .null := by
        obtain ⟨c0, c1, hembed⟩ := embed_message 0 t₀
        rw [hroot, hembed]
        simp
      rw [if_neg hnull]
      by_cases hnonempty : m.prefixLen = KEY_LEN_BITS + 1
      · rw [if_pos hnonempty]
        obtain ⟨p', D', hrun, hears', -⟩ := tells hown hpeer hr .refl hears false NODE_CHILDREN
          (fun hno => by cases hno)
        rw [hroot, hrun, ← hroot]
        exact hended hears'.ends
      · rw [if_neg hnonempty]
        have hlen : m.prefixLen ≤ 64 := by
          have hmax : ¬ m.prefixLen > 64 + 1 := fun h => hformed (Or.inr h)
          have hne : ¬ m.prefixLen = 64 + 1 := hnonempty
          omega
        obtain ⟨node, key, hdiff, hnode, hkey, hwhole⟩ :=
          removeDifferences_total hpeer.spread m hlen D
          hpeer.inside
        rw [hpeer.embedded, hdiff, Option.bind_eq_bind, Option.bind_some]
        have hends :=
          recvLoop_total hown hpeer hr hlen hkey hwhole hnode (isBlank { m with key := key })
          (2 * KEY_LEN_BITS) 0 0 t₀ .refl (Nat.zero_le _) (Nat.zero_le _)
          (fun i hi => absurd hi (Nat.not_lt_zero i)) (by decide) hears
            (Finset.Subset.refl _) (fun _ => rfl)
        rw [← hroot] at hends
        exact hended hends

def Readable : ℕ → List UInt8 → Party → Prop
  | 0, _, _ => True
  | n + 1, buff, p =>
    Receivable p.root p.peer.root (parseMessage buff) ∧
      ∀ r ∈ recvKey p (parseMessage buff), r.1 ≠ -1 → Readable n (buff.drop MESSAGE_BYTES) r.2

theorem recvMessages_total {own : Option KeyTrie} (n : ℕ) (buff : List UInt8)
    {D : Option KeyTrie} {p : Party}
    (hown : Tree p.root own) (hpeer : Tree p.peer.root D) (hr : Readable n buff p) :
    ∃ ret p' D', recvMessages n buff p = some (ret, p') ∧ p'.root = p.root ∧
    Tree p'.peer.root D' := by
  induction n generalizing buff D p with
  | zero => exact ⟨0, p, D, rfl, rfl, hpeer⟩
  | succ n ih =>
    obtain ⟨hreceivable, hlater⟩ := hr
    obtain ⟨ret, p₁, D₁, hrun, hroot, htree⟩ := recvKey_total hown hpeer hreceivable
    rw [recvMessages, hrun, Option.bind_eq_bind, Option.bind_some]
    by_cases hret : ret = -1
    · refine ⟨-1, p₁, D₁, ?_, hroot, htree⟩
      simp only [if_pos hret]
    · obtain ⟨ret', p', D', hrun', hroot', htree'⟩ :=
        ih (buff.drop MESSAGE_BYTES) (hroot ▸ hown) htree
        (hlater (ret, p₁) hrun hret)
      refine ⟨ret', p', D', ?_, hroot'.trans hroot, htree'⟩
      simp only [if_neg hret]
      exact hrun'

structure State where
  root : Node
  peers : List PeerState
  log : List Callback

def State.party (s : State) (peer : PeerState) : Party :=
  { root := s.root, peer := peer, log := s.log }

def addedPeer (key : SyncKey) (peer : PeerState) : Option PeerState := do
  match ← findMessage peer.root (leafMessage key) with
  | .null => some peer
  | .mk _ _ _ =>
    let root ← removeKey peer.root key
    some { peer with root := root, recvCount := peer.recvCount - 1 }

def State.syncAddKey (s : State) (key : SyncKey) : Option State := do
  match ← findMessage s.root (leafMessage key) with
  | .mk m _ _ => some { s with root := markStored m s.root }
  | .null =>
    let root ← addKey s.root key true
    let peers ← s.peers.mapM (addedPeer key)
    some { s with root := root, peers := peers }

def State.syncRecvMessage (s : State) (i : ℕ) (buff : List UInt8) : Option State :=
  match s.peers[i]? with
  | none => some s
  | some peer => do
    let (_, p) ← SyncProtocol.syncRecvMessage (s.party peer) buff
    some { s with peers := s.peers.set i p.peer, log := p.log }

inductive Event where
  | add (key : SyncKey)
  | receive (i : ℕ) (buff : List UInt8)

def State.step (s : State) : Event → Option State
  | .add key => s.syncAddKey key
  | .receive i buff => s.syncRecvMessage i buff

def State.run (s : State) (events : List Event) : Option State := events.foldlM State.step s

def start (peers : ℕ) : State :=
  { root := .null, peers :=
    List.replicate peers { sendCount := 0, recvCount := 0, root := .null }, log := [] }

/-- A key that is new to the own tree has no twin there, and is found in a
peer tree only if it is one of its keys. -/
def Addable (s : State) (key : SyncKey) : Prop :=
  findMessage s.root (leafMessage key) = some .null →
    (∀ k ∈ leafKeys s.root, ¬ Twins k key) ∧
      ∀ peer ∈ s.peers, findMessage peer.root (leafMessage key) = some .null ∨
        key ∈ leafKeys peer.root

def State.Allows (s : State) : Event → Prop
  | .add key => Addable s key
  | .receive i buff => ∀ peer ∈ s.peers[i]?, buff.length % MESSAGE_BYTES = 0 →
      Readable (buff.length / MESSAGE_BYTES) buff (s.party peer)

def Allowed : List Event → State → Prop
  | [], _ => True
  | event :: events, s => s.Allows event ∧ ∀ s' ∈ s.step event, Allowed events s'

def Full : Node → Prop
  | .null => True
  | .mk m c0 c1 => m.prefixLen = KEY_LEN_BITS ∨ (c0 ≠ .null ∧ c1 ≠ .null ∧ Full c0 ∧ Full c1)

theorem full_embed (lo : ℕ) (t : KeyTrie) : Full (embed lo t) := by
  induction t generalizing lo with
  | leaf s k => exact Or.inl rfl
  | node s p l r ihl ihr =>
    obtain ⟨c0, c1, hl⟩ := embed_message (p + 1) l
    obtain ⟨d0, d1, hr⟩ := embed_message (p + 1) r
    refine Or.inr ⟨?_, ?_, ihl (p + 1), ihr (p + 1)⟩
    · rw [hl]
      simp
    · rw [hr]
      simp

theorem Tree.full {root : Node} {D : Option KeyTrie} (h : Tree root D) : Full root := by
  rw [h.embedded]
  cases D with
  | none => trivial
  | some t => exact full_embed 0 t

/-- A flag that is set changes no key. -/
theorem markStored_embed (m : KeyMessage) (lo : ℕ) (t : KeyTrie) :
    ∃ t', markStored m (embed lo t) = embed lo t' ∧ keys t' = keys t ∧ first t' = first t ∧
      ∀ lo', WellFormed bit lo' t → WellFormed bit lo' t' := by
  induction t generalizing lo with
  | leaf s k =>
    rw [embed, markStored]
    split
    · exact ⟨.leaf true k, rfl, rfl, rfl, fun _ h => h⟩
    · exact ⟨.leaf s k, rfl, rfl, rfl, fun _ h => h⟩
  | node s p l r ihl ihr =>
    rw [embed, markStored]
    split
    · exact ⟨.node true p l r, rfl, rfl, rfl, fun _ h => h⟩
    · obtain ⟨l', hl, hkl, hfl, hwl⟩ := ihl (p + 1)
      obtain ⟨r', hr, hkr, hfr, hwr⟩ := ihr (p + 1)
      refine ⟨.node s p l' r', ?_, ?_, hfl, ?_⟩
      · rw [hl, hr, embed, message, message, hkl, hkr, hfl]
      · rw [keys, keys, hkl, hkr]
      · rintro lo' ⟨hlo, hagree, hzero, hone, hleft, hright⟩
        refine ⟨hlo, ?_, ?_, ?_, hwl _ hleft, hwr _ hright⟩
        · rw [hkl, hkr, hfl]
          exact hagree
        · rw [hkl]
          exact hzero
        · rw [hkr]
          exact hone

theorem Tree.mark {root : Node} {D : Option KeyTrie} (h : Tree root D) (m : KeyMessage) :
    ∃ D', Tree (markStored m root) D' := by
  rw [h.embedded]
  cases D with
  | none => exact ⟨none, tree_null⟩
  | some t =>
    obtain ⟨t', hmark, hkeys, -, hwell⟩ := markStored_embed m 0 t
    have hsame : keysOf (some t') = keysOf (some t) := hkeys
    refine ⟨some t', hmark, ?_, ?_⟩
    · intro t'' ht''
      rw [← Option.some.inj ht'']
      exact ⟨hwell 0 (h.inside t rfl).wellFormed, fun x hx => hx⟩
    · rw [hsame]
      exact h.spread

structure Sound (s : State) : Prop where
  own : ∃ D, Tree s.root D
  peers : ∀ peer ∈ s.peers, ∃ D, Tree peer.root D

theorem addedPeer_total {key : SyncKey} {peer : PeerState} {D : Option KeyTrie}
    (h : Tree peer.root D)
    (hkey : findMessage peer.root (leafMessage key) = some .null ∨ key ∈ leafKeys peer.root) :
    ∃ peer' D', addedPeer key peer = some peer' ∧ Tree peer'.root D' := by
  rw [addedPeer]
  rcases h.find (leafMessage key) with ⟨hnull, -⟩ | ⟨t, -, lo, t', hfound, -, -⟩
  · rw [hnull]
    exact ⟨peer, D, rfl, h⟩
  · obtain ⟨c0, c1, hembed⟩ := embed_message lo t'
    rw [hembed] at hfound
    have hmem : key ∈ keysOf D := by
      rw [← h.leafKeys]
      refine hkey.resolve_left fun hnull => ?_
      rw [hfound] at hnull
      simp at hnull
    obtain ⟨root, D', hrun, htree, -⟩ := h.remove hmem
    refine ⟨{ peer with root := root, recvCount := peer.recvCount - 1 }, D', ?_, htree⟩
    rw [hfound]
    simp only [Option.bind_eq_bind, Option.bind_some, hrun]

theorem addedPeers_total {key : SyncKey} (peers : List PeerState)
    (h : ∀ peer ∈ peers, ∃ peer' D', addedPeer key peer = some peer' ∧ Tree peer'.root D') :
    ∃ peers', peers.mapM (addedPeer key) = some peers' ∧ ∀ peer ∈ peers', ∃ D,
    Tree peer.root D := by
  induction peers with
  | nil => exact ⟨[], rfl, fun _ hp => absurd hp List.not_mem_nil⟩
  | cons peer peers ih =>
    obtain ⟨peer', D', hrun, htree⟩ := h peer List.mem_cons_self
    obtain ⟨peers', hruns, htrees⟩ := ih fun p hp => h p (List.mem_cons_of_mem _ hp)
    refine ⟨peer' :: peers', ?_, ?_⟩
    · rw [List.mapM_cons, hrun, hruns]
      rfl
    · intro p hp
      rcases List.mem_cons.mp hp with rfl | hp
      · exact ⟨D', htree⟩
      · exact htrees p hp

theorem Sound.add {s : State} (h : Sound s) {key : SyncKey} (hkey : Addable s key) :
    ∃ s', s.syncAddKey key = some s' ∧ Sound s' := by
  obtain ⟨D, htree⟩ := h.own
  rw [State.syncAddKey]
  rcases htree.find (leafMessage key) with ⟨hnull, hnot⟩ | ⟨t, -, lo, t', hfound, -, -⟩
  · obtain ⟨htwins, hpeers⟩ := hkey hnull
    rw [htree.leafKeys] at htwins
    have hnew : key ∉ keysOf D := hnot
    obtain ⟨root, hadd, htree'⟩ := htree.add true hnew htwins
    have hadded : ∀ peer ∈ s.peers, ∃ peer' D', addedPeer key peer = some peer' ∧
      Tree peer'.root D' := by
      intro peer hpeer
      obtain ⟨D, hD⟩ := h.peers peer hpeer
      exact addedPeer_total hD (hpeers peer hpeer)
    obtain ⟨peers, hruns, htrees⟩ := addedPeers_total s.peers hadded
    refine ⟨{ s with root := root, peers := peers }, ?_, ⟨_, htree'⟩, htrees⟩
    rw [hnull]
    simp only [Option.bind_eq_bind, Option.bind_some, hadd, hruns]
  · obtain ⟨c0, c1, hembed⟩ := embed_message lo t'
    refine ⟨{ s with root := markStored (message lo t') s.root }, ?_, htree.mark _, h.peers⟩
    rw [hfound, hembed]
    rfl

theorem Sound.receive {s : State} (h : Sound s) {i : ℕ} {buff : List UInt8}
    (hr : s.Allows (.receive i buff)) : ∃ s', s.syncRecvMessage i buff = some s' ∧ Sound s' := by
  obtain ⟨own, hown⟩ := h.own
  rw [State.syncRecvMessage]
  cases hget : s.peers[i]? with
  | none => exact ⟨s, rfl, h⟩
  | some peer =>
    obtain ⟨D, hD⟩ := h.peers peer (List.mem_of_getElem? hget)
    have hput : ∀ {p : Party} {D' : Option KeyTrie}, Tree p.peer.root D' →
        Sound { s with peers := s.peers.set i p.peer, log := p.log } := by
      intro p D' htree
      refine ⟨⟨own, hown⟩, fun q hq => ?_⟩
      rcases List.mem_or_eq_of_mem_set hq with hq | rfl
      · exact h.peers q hq
      · exact ⟨D', htree⟩
    dsimp only
    rw [SyncProtocol.syncRecvMessage]
    by_cases hwhole : buff.length % MESSAGE_BYTES = 0
    · obtain ⟨ret, p, D', hrun, -, htree⟩ := recvMessages_total (p := s.party peer) _ buff hown hD
        (hr peer hget hwhole)
      refine ⟨_, ?_, hput htree⟩
      rw [if_neg (by simpa using hwhole), hrun]
      rfl
    · refine ⟨_, ?_, hput (p := s.party peer) hD⟩
      rw [if_pos hwhole]
      rfl

theorem Sound.step {s : State} (h : Sound s) {event : Event} (hallows : s.Allows event) :
    ∃ s', s.step event = some s' ∧ Sound s' := by
  cases event with
  | add key => exact h.add hallows
  | receive i buff => exact h.receive hallows

theorem Sound.run (events : List Event) {s : State} (h : Sound s) (hallowed : Allowed events s) :
    ∃ s', s.run events = some s' ∧ Sound s' := by
  induction events generalizing s with
  | nil => exact ⟨s, rfl, h⟩
  | cons event events ih =>
    obtain ⟨s₁, hstep, hsound⟩ := h.step hallowed.1
    obtain ⟨s', hrun, hend⟩ := ih hsound (hallowed.2 s₁ hstep)
    refine ⟨s', ?_, hend⟩
    rw [State.run, List.foldlM_cons, hstep]
    exact hrun

theorem sound_start (peers : ℕ) : Sound (start peers) := by
  refine ⟨⟨none, tree_null⟩, fun peer hpeer => ⟨none, ?_⟩⟩
  rw [List.eq_of_mem_replicate hpeer]
  exact tree_null

/-- A run of any added keys and any received bytes fails no assertion, as long
as each of them meets its condition in the state in which it happens; and no
inner node of the own tree is without a child. -/
theorem no_assertion_fails (peers : ℕ) (events : List Event) (h : Allowed events (start peers)) :
    ∃ s, (start peers).run events = some s ∧ Full s.root := by
  obtain ⟨s, hrun, hsound⟩ := (sound_start peers).run events h
  obtain ⟨D, htree⟩ := hsound.own
  exact ⟨s, hrun, htree.full⟩

-- A set of keys is gone through by its elements; there are too many keys to go through them all.

instance decidableAgreeing (T : Finset SyncKey) (a : SyncKey) (p : ℕ) :
    Decidable (∀ x ∈ T, ∀ i, i < p → bit x i = bit a i) :=
  Finset.decidableDforallFinset

instance decidableDistinct (T : Finset SyncKey) (m : KeyMessage) (a b : SyncKey) :
    Decidable (∀ p, p < 63 → bit a p ≠ bit b p → (∀ x ∈ T, ∀ i, i < p → bit x i = bit a i) →
      cmpMessage { minPrefixLen := 0, stored := true, prefixLen := p, key := summary p a T } m =
        false) :=
  Nat.decidableBallLT 63 _

instance decidableUnmistakable (K : Finset SyncKey) (m : KeyMessage) :
    Decidable (Unmistakable K m) :=
  @Finset.decidableDforallFinset _ K.powerset _ fun T _ =>
    @Finset.decidableDforallFinset _ T _ fun a _ =>
      @Finset.decidableDforallFinset _ T _ fun b _ => decidableDistinct T m a b

instance decidableApart (K : Finset SyncKey) (key : SyncKey) :
    Decidable (∀ k ∈ K, ¬ Twins k key) :=
  Finset.decidableDforallFinset

instance decidableApartFrom (key : SyncKey) (K : Finset SyncKey) :
    Decidable (∀ k ∈ K, ¬ Twins key k) :=
  Finset.decidableDforallFinset

instance decidableReceivable (root peerRoot : Node) (m : KeyMessage) :
    Decidable (Receivable root peerRoot m) :=
  have : Decidable (∀ k ∈ leafKeys root, ∀ d ∈ leafKeys peerRoot, ¬ Twins k d) :=
    @Finset.decidableDforallFinset _ (leafKeys root) _ fun k _ =>
      decidableApartFrom k (leafKeys peerRoot)
  decidable_of_iff
    ((∀ k ∈ leafKeys root, ∀ d ∈ leafKeys peerRoot, ¬ Twins k d) ∧
      (m.prefixLen = 63 ∨ m.prefixLen = 64 → ∀ k ∈ leafKeys root, ¬ Twins k m.key) ∧
      (m.prefixLen = 64 → m.stored = true → ∀ d ∈ leafKeys peerRoot, ¬ Twins d m.key) ∧
      (m.stored = false → ∀ n ∈ nodeMessages root, cmpMessage m n = true →
        ∀ d ∈ leafKeys peerRoot, ¬ Twins d n.key) ∧
      (m.prefixLen < 63 → ∀ n ∈ leafMessages root,
        Unmistakable (leafKeys root ∪ leafKeys peerRoot) n))
    ⟨fun h => ⟨h.1, h.2.1, h.2.2.1, h.2.2.2.1, h.2.2.2.2⟩,
      fun h => ⟨h.apart, h.mine, h.theirs, h.acked, h.clear⟩⟩

instance decidableReadable : (n : ℕ) → (buff : List UInt8) → (p : Party) →
    Decidable (Readable n buff p)
  | 0, _, _ => inferInstanceAs (Decidable True)
  | n + 1, buff, p =>
    have : ∀ r : ℤ × Party, Decidable (Readable n (buff.drop MESSAGE_BYTES) r.2) := fun r =>
      decidableReadable n _ r.2
    inferInstanceAs (Decidable (Receivable p.root p.peer.root (parseMessage buff) ∧
      ∀ r ∈ recvKey p (parseMessage buff), r.1 ≠ -1 → Readable n (buff.drop MESSAGE_BYTES) r.2))

instance decidableAllows (s : State) : (event : Event) → Decidable (s.Allows event)
  | .add key => inferInstanceAs (Decidable (findMessage s.root (leafMessage key) = some .null →
      (∀ k ∈ leafKeys s.root, ¬ Twins k key) ∧
        ∀ peer ∈ s.peers, findMessage peer.root (leafMessage key) = some .null ∨
        key ∈ leafKeys peer.root))
  | .receive i buff =>
    inferInstanceAs (Decidable (∀ peer ∈ s.peers[i]?, buff.length % MESSAGE_BYTES = 0 →
      Readable (buff.length / MESSAGE_BYTES) buff (s.party peer)))

instance decidableAllowed : (events : List Event) → (s : State) → Decidable (Allowed events s)
  | [], _ => inferInstanceAs (Decidable True)
  | event :: events, s =>
    have : ∀ s', Decidable (Allowed events s') := decidableAllowed events
    inferInstanceAs (Decidable (s.Allows event ∧ ∀ s' ∈ s.step event, Allowed events s'))

def zeroKey : SyncKey := fun _ => 0

def otherKey : SyncKey := fun i => if i.val = 0 then 0x80 else if i.val = 7 then 2 else 0

def exchange : List Event :=
  [.add zeroKey, .receive 0 (messageBytes (leafMessage otherKey)),
    .receive 0 (0x80 :: 64 :: List.ofFn otherKey),
      .receive 0 (0x80 :: 0 :: List.ofFn otherKey), .add otherKey]

theorem no_assertion_fails_exchange :
    Allowed exchange (start 1) ∧ ∃ s, (start 1).run exchange = some s ∧ Full s.root := by
  have hallowed : Allowed exchange (start 1) := by decide +kernel
  exact ⟨hallowed, no_assertion_fails 1 exchange hallowed⟩

def lastBit : List Event := [.add zeroKey, .receive 0 [0x80, 63, 0, 0, 0, 0, 0, 0, 0, 1]]

/-- The comparison reads on behind the 63 bits, and the last bit of a key is
refused. -/
theorem last_bit_refused : ¬ ∃ s, (start 1).run lastBit = some s := by
  have hnone : ((start 1).run lastBit).isNone = true := by decide +kernel
  rw [Option.isNone_iff_eq_none.mp hnone]
  rintro ⟨s, hs⟩
  cases hs

end Succinct.SyncAssertions
