import Succinct.SyncSoundness

/-!
When reconciliation has nothing to say. Parties with the same keys have the
same tree and answer each other's root with silence, and a party that answers
the root of its peer with silence knows the whole difference.
-/
namespace Succinct.SyncAgreement

open SyncKeys BitTries SyncBits SyncTree SyncProtocol SyncCompare SyncWalks SyncParty SyncReceive
  SyncSoundness

theorem relabel_stored (t : KeyTrie) (h : Stored t) : relabel (fun _ => true) t = t := by
  induction t with
  | leaf s k =>
    have hs : s = true := h
    rw [relabel, hs]
  | node s p l r ihl ihr =>
    rw [relabel, ihl h.2.1, ihr h.2.2, h.1]

/-- The keys of a party determine its tree. -/
theorem rooted_unique {j : ℕ} {U S : Finset SyncKey} {own own' : Option KeyTrie}
    (h : Rooted j U S own) (h' : Rooted j U S own') : own = own' := by
  have hkeys : ∀ {t : KeyTrie}, Own j U S 0 t → keys t = S := by
    intro t ht
    ext k
    exact (ht.mem_iff k).trans
      ⟨fun hk => hk.1, fun hk => ⟨hk, fun i hi => absurd hi (Nat.not_lt_zero i)⟩⟩
  rcases h with ⟨rfl, hS⟩ | ⟨t, rfl, ht⟩ <;> rcases h' with ⟨rfl, hS'⟩ | ⟨t', rfl, ht'⟩
  · rfl
  · have hmem := first_mem t'
    rw [hkeys ht', hS] at hmem
    exact absurd hmem (Finset.notMem_empty _)
  · have hmem := first_mem t
    rw [hkeys ht, hS'] at hmem
    exact absurd hmem (Finset.notMem_empty _)
  · have hsame := unique_of_keys bit true t t' ht.inside.wellFormed ht'.inside.wellFormed
      ((hkeys ht).trans (hkeys ht').symm)
    rw [relabel_stored t ht.stored, relabel_stored t' ht'.stored] at hsame
    rw [hsame]

theorem cmpMessage_self (m : KeyMessage) : cmpMessage m m = true := by
  unfold cmpMessage
  simp [sameBytes_self]

/-- The own root is answered with silence. -/
theorem recvKey_own {j : ℕ} {U S : Finset SyncKey} (hG : Generic U j) {t : KeyTrie}
    (ht : Own j U S 0 t) :
    recvKey { freshParty with root := embed 0 t } (message 0 t) =
      some (0, { freshParty with root := embed 0 t }) := by
  have h64 := position_le_64 hG ht.inside
  obtain ⟨c0, c1, hembed⟩ := embed_message 0 t
  have hmin : (message 0 t).minPrefixLen = 0 := by
    cases t <;> rfl
  have hstored : (message 0 t).stored = true := by
    cases t with
    | leaf s k => exact ht.stored
    | node s p l r => exact ht.stored.1
  have hvalid : ¬ ((message 0 t).minPrefixLen > (message 0 t).prefixLen ∨
      (message 0 t).prefixLen > KEY_LEN_BITS + 1) := by
    rw [hmin, message_prefixLen]
    change ¬ (0 > position t ∨ position t > 65)
    omega
  have hone : ¬ (message 0 t).prefixLen = KEY_LEN_BITS + 1 := by
    rw [message_prefixLen]
    change ¬ position t = 65
    omega
  have hnull : ¬ ({ freshParty with root := embed 0 t } : Party).root = .null := by
    rw [hembed]
    simp
  have hrest : removeDifferences freshParty.peer.root (message 0 t) =
    some (.null, message 0 t) := by
    have hfresh : freshParty.peer.root = .null := rfl
    rw [removeDifferences, if_pos (Or.inl hfresh)]
  rw [recvKey, if_neg hvalid, if_neg hnull, if_neg hone, hrest]
  simp only [Option.bind_eq_bind, Option.bind_some]
  have hloop : recvLoop (message 0 t) (message 0 t) .null
    (isBlank (message 0 t)) (2 * KEY_LEN_BITS)
      { freshParty with root := embed 0 t } (embed 0 t) 0 =
        some { freshParty with root := embed 0 t } := by
    have hfuel : 2 * KEY_LEN_BITS = 127 + 1 := rfl
    rw [hfuel, hembed, recvLoop, if_pos (cmpMessage_self _), if_pos hstored]
    rfl
  rw [hloop, Option.bind_some]

/-- Parties that have added the same keys, in whatever order, send the same
root, and receiving it changes nothing and calls nothing. -/
theorem equal_sets_silent (j : ℕ) (ks ks' : List SyncKey) (hsame : ks.toFinset = ks'.toFinset)
    (hG : Generic ks.toFinset j) :
    ∃ p p', syncAddKeys ks freshParty = some p ∧ syncAddKeys ks' freshParty = some p' ∧
      syncRootMsg p = syncRootMsg p' ∧ (syncRootMsg p).length = 10 ∧
      syncRecvMessage p (syncRootMsg p') = some (0, p) ∧
      syncRecvMessage p' (syncRootMsg p) = some (0, p') := by
  obtain ⟨own, hadd, hown⟩ := syncAddKeys_spec hG ks (S := ∅) (Or.inl ⟨rfl, rfl⟩)
    (fun k hk => List.mem_toFinset.mpr hk)
  obtain ⟨own', hadd', hown'⟩ := syncAddKeys_spec hG ks' (S := ∅) (Or.inl ⟨rfl, rfl⟩)
    (fun k hk => hsame ▸ List.mem_toFinset.mpr hk)
  rw [← hsame] at hown'
  obtain rfl := rooted_unique hown hown'
  have hsilent : syncRecvMessage { freshParty with root := embedOption 0 own }
      (syncRootMsg { freshParty with root := embedOption 0 own }) =
        some (0, { freshParty with root := embedOption 0 own }) ∧
      (syncRootMsg { freshParty with root := embedOption 0 own }).length = 10 := by
    rcases hown with ⟨rfl, -⟩ | ⟨t, rfl, ht⟩
    · exact ⟨rfl, rfl⟩
    · obtain ⟨c0, c1, hembed⟩ := embed_message 0 t
      have hroot : syncRootMsg { freshParty with root := embedOption 0 (some t) } =
          messageBytes (message 0 t) := by
        rw [syncRootMsg, embedOption, hembed]
      have h64 := position_le_64 hG ht.inside
      have hread : parseMessage (messageBytes (message 0 t)) = message 0 t := by
        apply parseMessage_messageBytes
        · cases t <;> exact Nat.succ_pos 127
        · rw [message_prefixLen]
          omega
      rw [hroot]
      refine ⟨syncRecvMessage_one ?_ ?_, ?_⟩
      · simp [messageBytes, MESSAGE_BYTES, KEY_LEN]
      · rw [hread]
        exact recvKey_own hG ht
      · simp [messageBytes]
  exact ⟨_, _, hadd, hadd', rfl, hsilent.2, hsilent.1, hsilent.1⟩

/-- Two keys are added in either order. -/
theorem equal_sets_silent_two :
    ∃ p p', syncAddKeys [keyOf [0, 1], keyOf [1, 2]] freshParty = some p ∧
      syncAddKeys [keyOf [1, 2], keyOf [0, 1]] freshParty = some p' ∧
      syncRootMsg p = syncRootMsg p' ∧ syncRecvMessage p (syncRootMsg p') = some (0, p) := by
  obtain ⟨p, p', hp, hp', hroot, -, hrecv, -⟩ := equal_sets_silent 1 [keyOf [0, 1], keyOf [1, 2]]
    [keyOf [1, 2], keyOf [0, 1]] (by decide +kernel)
    (generic_of_own_bits [keyOf [0, 1], keyOf [1, 2]] _ 1 (by decide) (by decide) (by simp)
      (by decide +kernel) (by decide +kernel))
  exact ⟨p, p', hp, hp', hroot, hrecv⟩

structure Grows (p p' : Party) : Prop where
  keeps : p.log.length ≤ p'.log.length
  quiet : p'.log.length = p.log.length → p' = p

theorem Grows.refl (p : Party) : Grows p p := ⟨Nat.le_refl _, fun _ => rfl⟩

theorem Grows.trans {p q r : Party} (h : Grows p q) (h' : Grows q r) : Grows p r := by
  have hpq := h.keeps
  have hqr := h'.keeps
  refine ⟨hpq.trans hqr, ?_⟩
  intro hlen
  rw [h'.quiet (by omega)]
  exact h.quiet (by omega)

theorem Grows.eq {p q : Party} (h : Grows p q) (h' : Grows q p) : q = p :=
  h.quiet (Nat.le_antisymm h'.keeps h.keeps)

theorem grows_of_log {p p' : Party} {e : Callback} (h : p'.log = p.log ++ [e]) : Grows p p' := by
  have hlen : p'.log.length = p.log.length + 1 := by
    rw [h, List.length_append, List.length_singleton]
  exact ⟨by omega, fun hsame => by omega⟩

theorem grows_queue (p : Party) (m : KeyMessage) : Grows p (p.queue m) := grows_of_log rfl

theorem queue_ne {p q : Party} (h : Grows p q) (m : KeyMessage) : q.queue m ≠ p := by
  intro heq
  have hlen := congrArg (fun p : Party => p.log.length) heq
  have hkeeps := h.keeps
  simp only [Party.queue, Party.call, List.length_append, List.length_singleton] at hlen
  omega

theorem peerIsMissing_grows {p p' : Party} {m : KeyMessage} {allowRemove missing : Bool}
    (h : peerIsMissing p m allowRemove = some (missing, p')) : Grows p p' := by
  obtain ⟨node, -, h⟩ := Option.bind_eq_some_iff.mp h
  cases node with
  | null =>
    obtain ⟨root, -, h⟩ := Option.bind_eq_some_iff.mp h
    rw [← (Prod.mk.inj (Option.some.inj h)).2]
    exact grows_of_log rfl
  | mk m' c0 c1 =>
    simp only at h
    split at h
    · obtain ⟨root, -, h⟩ := Option.bind_eq_some_iff.mp h
      rw [← (Prod.mk.inj (Option.some.inj h)).2]
      exact grows_of_log rfl
    · rw [← (Prod.mk.inj (Option.some.inj h)).2]
      exact Grows.refl p

theorem peerMissingLeafNodes_grows {allowRemove : Bool} (node : Node) {except : ℕ} {p p' : Party}
    (h : peerMissingLeafNodes allowRemove node except p = some p') : Grows p p' := by
  induction node generalizing except p p' with
  | null => exact absurd h (by simp [peerMissingLeafNodes])
  | mk m c0 c1 ih0 ih1 =>
    rw [peerMissingLeafNodes] at h
    split at h
    · obtain ⟨⟨missing, q⟩, hmissing, h⟩ := Option.bind_eq_some_iff.mp h
      have hq := peerIsMissing_grows hmissing
      rw [← Option.some.inj h]
      split
      · exact hq.trans (grows_queue q m)
      · exact hq
    · have hsecond : ∀ q, (if 1 ≠ except ∧ c1 ≠ .null
          then peerMissingLeafNodes allowRemove c1 NODE_CHILDREN q else some q) = some p' →
          Grows q p' := by
        intro q hq
        split at hq
        · exact ih1 hq
        · rw [Option.some.inj hq]
          exact Grows.refl p'
      by_cases h0 : 0 ≠ except ∧ c0 ≠ .null
      · rw [if_pos h0] at h
        obtain ⟨q, hq, h⟩ := Option.bind_eq_some_iff.mp h
        exact (ih0 hq).trans (hsecond q h)
      · rw [if_neg h0] at h
        exact hsecond p h

theorem peerAddKey_grows {p p' : Party} {m : KeyMessage} (h : peerAddKey p m = some p') :
    Grows p p' := by
  rw [peerAddKey] at h
  split at h
  · rw [Option.some.inj h]
    exact Grows.refl p'
  · obtain ⟨node, -, h⟩ := Option.bind_eq_some_iff.mp h
    cases node with
    | mk m' c0 c1 =>
      rw [Option.some.inj h]
      exact Grows.refl p'
    | null =>
      obtain ⟨root, -, h⟩ := Option.bind_eq_some_iff.mp h
      obtain ⟨leaf, -, h⟩ := Option.bind_eq_some_iff.mp h
      rw [← Option.some.inj h]
      exact Grows.trans (q := Party.call { p with peer := { p.peer with
        root := root, recvCount := p.peer.recvCount + 1 } } (.has m.key)) (grows_of_log rfl)
        (grows_queue _ leaf)

theorem peerHasReceivedAll_grows (node : Node) {p p' : Party} {n : ℕ}
    (h : peerHasReceivedAll node p = some (n, p')) : Grows p p' := by
  induction node generalizing p p' n with
  | null =>
    rw [← (Prod.mk.inj (Option.some.inj h)).2]
    exact Grows.refl p
  | mk m c0 c1 ih0 ih1 =>
    rw [peerHasReceivedAll] at h
    split at h
    · split at h
      · obtain ⟨root, -, h⟩ := Option.bind_eq_some_iff.mp h
        rw [← (Prod.mk.inj (Option.some.inj h)).2]
        exact grows_of_log rfl
      · rw [← (Prod.mk.inj (Option.some.inj h)).2]
        exact Grows.refl p
    · obtain ⟨⟨n0, q⟩, hq, h⟩ := Option.bind_eq_some_iff.mp h
      obtain ⟨⟨n1, r⟩, hr, h⟩ := Option.bind_eq_some_iff.mp h
      rw [← (Prod.mk.inj (Option.some.inj h)).2]
      exact (ih0 hq).trans (ih1 hr)

theorem queueChild_grows (p : Party) (c : Node) : Grows p (queueChild p c) := by
  cases c with
  | null => exact Grows.refl p
  | mk m c0 c1 => exact grows_queue p m

theorem answerNode_grows {p p' : Party} {m m' : KeyMessage} {blank : Bool} {c0 c1 : Node} {i : ℕ}
    (h : answerNode p m blank m' c0 c1 i = some p') : Grows p p' := by
  rw [answerNode] at h
  split at h
  · exact peerMissingLeafNodes_grows _ h
  · split at h
    · rw [← Option.some.inj h]
      exact grows_queue p m'
    · obtain ⟨test, -, h⟩ := Option.bind_eq_some_iff.mp h
      obtain ⟨node, -, h⟩ := Option.bind_eq_some_iff.mp h
      cases node with
      | mk tm t0 t1 => exact peerMissingLeafNodes_grows _ h
      | null =>
        rw [← Option.some.inj h]
        exact (queueChild_grows p c0).trans (queueChild_grows _ c1)

theorem answerMismatch_grows {p p' : Party} {m m' : KeyMessage} {c0 c1 : Node} {i : ℕ}
    (h : answerMismatch p m m' c0 c1 i = some p') : Grows p p' := by
  have hlast : ∀ q, (if m.prefixLen = KEY_LEN_BITS then peerAddKey q m else some q) = some p' →
      Grows q p' := by
    intro q hq
    split at hq
    · exact peerAddKey_grows hq
    · rw [Option.some.inj hq]
      exact Grows.refl p'
  rw [answerMismatch] at h
  by_cases hrange : i ≥ m.minPrefixLen ∧ m.stored = true
  · rw [if_pos hrange] at h
    obtain ⟨q, hq, h⟩ := Option.bind_eq_some_iff.mp h
    have hmissing := peerMissingLeafNodes_grows _ hq
    by_cases hinner : m.prefixLen ≠ KEY_LEN_BITS
    · rw [if_pos hinner] at h
      exact hmissing.trans ((grows_queue q m').trans (hlast _ h))
    · rw [if_neg hinner] at h
      exact hmissing.trans (hlast _ h)
  · rw [if_neg hrange] at h
    exact hlast p h

theorem recvLoop_grows {message peerMessage : KeyMessage} {peerNode : Node} {blank : Bool}
    (fuel : ℕ) {p p' : Party} (node : Node) {i : ℕ}
    (h : recvLoop message peerMessage peerNode blank fuel p node i = some p') : Grows p p' := by
  induction fuel generalizing p node i with
  | zero => exact absurd h (by simp [recvLoop])
  | succ fuel ih =>
    cases node with
    | null => exact absurd h (by simp [recvLoop])
    | mk m c0 c1 =>
      rw [recvLoop] at h
      by_cases hsame : cmpMessage message m = true
      · rw [if_pos hsame] at h
        split at h
        · obtain ⟨⟨n, q⟩, hq, heq⟩ := Option.map_eq_some_iff.mp h
          rw [← heq]
          exact peerHasReceivedAll_grows peerNode hq
        · obtain ⟨⟨missing, q⟩, hq, heq⟩ := Option.map_eq_some_iff.mp h
          rw [← heq]
          exact peerIsMissing_grows hq
      · rw [if_neg hsame] at h
        by_cases hrest : cmpMessage peerMessage m = true
        · rw [if_pos hrest] at h
          rw [Option.some.inj h]
          exact Grows.refl p'
        · rw [if_neg hrest] at h
          by_cases hstop : peerMessage.prefixLen ≤ i
          · rw [if_pos hstop] at h
            exact answerNode_grows h
          · rw [if_neg hstop] at h
            obtain ⟨keyIndex, -, h⟩ := Option.bind_eq_some_iff.mp h
            obtain ⟨compared, -, h⟩ := Option.bind_eq_some_iff.mp h
            cases compared with
            | mismatch d => exact answerMismatch_grows h
            | «match» q keyIndex =>
              simp only at h
              by_cases hfar : message.prefixLen ≤ q
              · rw [if_pos hfar] at h
                exact ih _ h
              · rw [if_neg hfar] at h
                obtain ⟨-, -, h⟩ := Option.bind_eq_some_iff.mp h
                cases hkey : (Node.mk m c0 c1).child keyIndex with
                | null =>
                  simp only [hkey] at h
                  split at h
                  · obtain ⟨r, hr, h⟩ := Option.bind_eq_some_iff.mp h
                    split at h
                    · exact (peerMissingLeafNodes_grows _ hr).trans (peerAddKey_grows h)
                    · exact absurd h (by simp)
                  · obtain ⟨r, hr, h⟩ := Option.bind_eq_some_iff.mp h
                    rw [Option.some.inj hr]
                    split at h
                    · exact peerAddKey_grows h
                    · exact absurd h (by simp)
                | mk cm d0 d1 =>
                  simp only [hkey] at h
                  split at h
                  · obtain ⟨r, hr, h⟩ := Option.bind_eq_some_iff.mp h
                    exact (peerMissingLeafNodes_grows _ hr).trans (ih _ h)
                  · obtain ⟨r, hr, h⟩ := Option.bind_eq_some_iff.mp h
                    rw [Option.some.inj hr]
                    exact ih _ h

theorem recvKey_grows {p p' : Party} {m : KeyMessage} {ret : ℤ}
    (h : recvKey p m = some (ret, p')) : Grows p p' := by
  rw [recvKey] at h
  split at h
  · rw [← (Prod.mk.inj (Option.some.inj h)).2]
    exact Grows.refl p
  · split at h
    · obtain ⟨q, hq, h⟩ := Option.bind_eq_some_iff.mp h
      rw [← (Prod.mk.inj (Option.some.inj h)).2]
      exact peerAddKey_grows hq
    · split at h
      · obtain ⟨q, hq, h⟩ := Option.bind_eq_some_iff.mp h
        rw [← (Prod.mk.inj (Option.some.inj h)).2]
        exact peerMissingLeafNodes_grows _ hq
      · obtain ⟨⟨peerNode, peerMessage⟩, -, h⟩ := Option.bind_eq_some_iff.mp h
        obtain ⟨q, hq, h⟩ := Option.bind_eq_some_iff.mp h
        rw [← (Prod.mk.inj (Option.some.inj h)).2]
        exact recvLoop_grows _ _ hq

/-- A buffer of ten bytes is one message. -/
theorem recvKey_of_syncRecvMessage {p p' : Party} {buff : List UInt8} {ret : ℤ}
    (hlen : buff.length = MESSAGE_BYTES) (h : syncRecvMessage p buff = some (ret, p')) :
    ∃ ret', recvKey p (parseMessage buff) = some (ret', p') := by
  have hmod : ¬ buff.length % MESSAGE_BYTES ≠ 0 := by
    rw [hlen]
    decide
  have hcount : buff.length / MESSAGE_BYTES = 1 := by
    rw [hlen]
    decide
  rw [syncRecvMessage, if_neg hmod, hcount, recvMessages] at h
  obtain ⟨⟨ret', q⟩, hq, h⟩ := Option.bind_eq_some_iff.mp h
  refine ⟨ret', ?_⟩
  rw [hq]
  simp only at h
  split at h
  · rw [(Prod.mk.inj (Option.some.inj h)).2]
  · rw [recvMessages] at h
    rw [(Prod.mk.inj (Option.some.inj h)).2]

section Complete

variable {j : ℕ} {U R P : Finset SyncKey} {own : Option KeyTrie} (hG : Generic U j)

include hG

theorem knows_unique {D D' : Option KeyTrie} {p : Party} (h : Knows j U R P own D p)
    (h' : Knows j U R P own D' p) : keysOf D' = keysOf D := by
  ext k
  rw [mem_keysOf_iff, mem_keysOf_iff, ← leafEntries_knows hG h, ← leafEntries_knows hG h']

/-- What a party has added without a change was there. -/
theorem known_before {D D' : Option KeyTrie} {p : Party} (h : Knows j U R P own D p)
    (h' : Knows j U R P own D' p) {X : Finset SyncKey} (hkeys : keysOf D' = keysOf D ∪ X) :
    ∀ k ∈ X, k ∈ keysOf D := by
  intro k hk
  rw [← knows_unique hG h h', hkeys]
  exact Finset.mem_union_right _ hk

/-- When our node has all the prefix bits of the summary, something is said. -/
theorem answerNode_loud {lo lo' : ℕ} {t M : KeyTrie} {E : Finset SyncKey} {m : KeyMessage}
    (hm : Heard j U P lo' M E m) (hp : position M < 8 * j) (ht : Own j U R lo t)
    (hpos : position M ≤ position t) (hagree : Agree bit (position M) (first t) (first M))
    {D : Option KeyTrie} {p : Party} (h : Knows j U R P own D p) (hE : Taken D M E) (c0 c1 : Node)
    (hembed : embed lo t = .mk (message lo t) c0 c1) :
    answerNode p m (isBlank m) (message lo t) c0 c1 (position M) ≠ some p := by
  have hle := hG.le
  have hours : ∀ k ∈ keys t, k ∈ R ∧ Agree bit (position M) k (first M) := fun k hk =>
    ⟨((ht.mem_iff k).mp hk).1, ht.agree_of_mem hpos hagree hk⟩
  have htheirs : ∀ k, k ∈ P → Agree bit (position M) k (first M) → k ∈ keys M := fun k hk hx =>
    (hm.own.mem_iff k).mpr ⟨hk, hx.mono (position_ge hm.own.inside.wellFormed (by
      have := hm.own.short
      omega))⟩
  have hone : ∀ k ∈ E, ¬ (k ∈ R ∧ k ∈ P) := fun k hk => h.not_both ((hE k).mp hk).1
  have hloud : ∀ lo T, Own j U R lo T → (∀ k ∈ keys T, k ∉ P ∧ k ∉ keysOf D) →
      peerMissingLeafNodes true (embed lo T) NODE_CHILDREN p ≠ some p := by
    intro lo T hT hunknown hquiet
    obtain ⟨p', D', hrun, hk, hkeys, -⟩ := peerMissingLeafNodes_spec hG true lo T hT
      (fun k hk => (hunknown k hk).1) h (fun _ k hk => (hunknown k hk).2)
    obtain rfl : p' = p := Option.some.inj (hrun.symm.trans hquiet)
    exact (hunknown _ (first_mem T)).2 (known_before hG h hk hkeys _ (first_mem T))
  rw [answerNode]
  by_cases hblank : isBlank m = true
  · rw [if_pos hblank, ← hembed]
    exact hloud lo t ht (blank_unknown hG hm hp hours htheirs h hE hblank)
  · rw [if_neg hblank]
    by_cases hlonger : (message lo t).prefixLen > m.prefixLen
    · rw [if_pos hlonger]
      exact fun heq => queue_ne (Grows.refl p) _ (Option.some.inj heq)
    · rw [if_neg hlonger]
      intro hquiet
      obtain ⟨test, htest, hquiet⟩ := Option.bind_eq_some_iff.mp hquiet
      obtain ⟨node, hnode, hquiet⟩ := Option.bind_eq_some_iff.mp hquiet
      rw [message_prefixLen, hm.len] at hlonger
      cases t with
      | leaf s k =>
        change ¬ 64 > position M at hlonger
        omega
      | node s q l r =>
        have hq : q = position M := by
          change position M ≤ q at hpos
          change ¬ q > position M at hlonger
          omega
        have hs : s = true := ht.stored.1
        subst s q
        have htest' := testMessage_eq (l := l) lo r hm hp hle hagree
        rw [htest, Option.some.injEq] at htest'
        subst test
        rcases testLoop_spec hG _ (KEY_LEN_BITS + 2) lo (position M) _ ht (Nat.le_refl _)
          (by change 65 ≤ 66 + position M; omega) with hnull | ⟨lo'', T, hfound, hT, hTsub, hcmp⟩
        · rw [hembed] at hnull
          rw [hnull, Option.some.injEq] at hnode
          subst node
          have hchildren : c0 = embed (position M + 1) l ∧ c1 = embed (position M + 1) r := by
            rw [embed] at hembed
            injection hembed with _ h0 h1
            exact ⟨h0.symm, h1.symm⟩
          obtain ⟨b0, b1, hr0⟩ := embed_message (position M + 1) r
          rw [hchildren.2, hr0] at hquiet
          exact queue_ne (queueChild_grows p c0) _ (Option.some.inj hquiet)
        · rw [hembed] at hfound
          rw [hfound, Option.some.injEq] at hnode
          subst node
          obtain ⟨d0, d1, hT0⟩ := embed_message lo'' T
          have hunknown := found_unknown hG hm hp rfl ht hours htheirs h hE hone hT hTsub hcmp
          rw [hT0] at hquiet
          simp only at hquiet
          rw [← hT0] at hquiet
          exact hloud lo'' T hT hunknown hquiet

/-- Nothing is said at a mismatch only when the message is about one key. -/
theorem answerMismatch_silent {lo d : ℕ} {t M : KeyTrie} {E : Finset SyncKey} {m : KeyMessage}
    (hm : Heard j U P 0 M E m) (ht : Own j U R lo t) (hlo : lo ≤ d) (hd : d < position t)
    (hd' : d < position M) (hagree : Agree bit d (first t) (first M))
    (hne : bit (first t) d ≠ bit (first M) d) {D : Option KeyTrie} {p : Party}
    (h : Knows j U R P own D p) (c0 c1 : Node) (hembed : embed lo t = .mk (message lo t) c0 c1)
    (hquiet : answerMismatch p m (message lo t) c0 c1 d = some p) :
    (∀ k ∈ keys t, k ∈ keysOf D) ∧ ∀ k ∈ keys M, k ∈ keysOf D := by
  have hlater : ∀ k ∈ keys t, Agree bit d k (first M) ∧ bit k d ≠ bit (first M) d := by
    intro k hk
    have hkd := keys_agree t ht.inside.wellFormed k hk
    refine ⟨(hkd.mono (Nat.le_of_lt hd)).trans hagree, ?_⟩
    rw [hkd d hd]
    exact hne
  have hnotP : ∀ k ∈ keys t, k ∉ P := fun k hk =>
    hm.own.absent (Nat.zero_le d) hd' (hlater k hk).1 (hlater k hk).2
  have hnotR : first M ∉ R := by
    intro hR
    exact (hlater _ (ht.mem_of_agree hlo hagree hR (fun _ _ => rfl))).2 rfl
  have hrange : d ≥ m.minPrefixLen ∧ m.stored = true := by
    rw [hm.minLen]
    exact ⟨Nat.zero_le d, hm.stored⟩
  rw [answerMismatch, if_pos hrange] at hquiet
  obtain ⟨q, hq, hquiet⟩ := Option.bind_eq_some_iff.mp hquiet
  have hgrows := peerMissingLeafNodes_grows _ hq
  by_cases hinner : m.prefixLen ≠ KEY_LEN_BITS
  · rw [if_pos hinner, Option.bind_eq_bind, Option.bind_some] at hquiet
    beta_reduce at hquiet
    rw [if_neg hinner] at hquiet
    exact absurd (Option.some.inj hquiet) (queue_ne hgrows _)
  · have hleaf : m.prefixLen = KEY_LEN_BITS := not_not.mp hinner
    rw [if_neg hinner, Option.bind_eq_bind, Option.bind_some] at hquiet
    beta_reduce at hquiet
    rw [if_pos hleaf] at hquiet
    obtain rfl : q = p := hgrows.eq (peerAddKey_grows hquiet)
    rw [← hembed] at hq
    refine ⟨?_, ?_⟩
    · obtain ⟨p', D', hrun, hk, hkeys, -⟩ := peerMissingLeafNodes_spec hG false lo t ht hnotP h
        (fun hno => Bool.noConfusion hno)
      obtain rfl : p' = q := Option.some.inj (hrun.symm.trans hq)
      exact known_before hG h hk hkeys
    · have hmsg := hm.leaf (hm.len ▸ hleaf)
      obtain ⟨s, k, rfl⟩ := eq_leaf hG hm.own.inside (hm.len ▸ hleaf)
      obtain rfl : s = true := hm.own.stored
      subst m
      have hP : k ∈ P := ((hm.own.mem_iff _).mp (first_mem (.leaf true k))).1
      obtain ⟨q', D', hrun, hk, hkey, -⟩ := peerAddKey_spec hG h (message 0 (.leaf true k))
        ⟨rfl, hm.own.short⟩ hm.bits.mem hP hnotR
      obtain rfl : q' = q := Option.some.inj (hrun.symm.trans hquiet)
      intro x hx
      obtain rfl : x = k := Finset.mem_singleton.mp hx
      rw [← knows_unique hG h hk]
      exact hkey rfl

/-- An inner node of ours is passed in silence only when its other side is
known. -/
theorem recvStep_silent {lo q : ℕ} {s : Bool} {l r M : KeyTrie} {E : Finset SyncKey}
    {m : KeyMessage} (hm : Heard j U P 0 M E m) (ht : Own j U R lo (.node s q l r))
    (hlt : q < position M) (hagree : Agree bit q (first l) (first M)) {D : Option KeyTrie}
    {p : Party} (h : Knows j U R P own D p) (next : Party → Node → ℕ → Option Party)
    (hnext : ∀ r n {i p'}, next r n i = some p' → Grows r p')
    (hquiet : (do
      guard (q = q)
      let p ← if m.minPrefixLen ≤ q ∧ m.stored then
          peerMissingLeafNodes false (embed lo (.node s q l r)) (bit (first M) q).toNat p
        else some p
      match (embed lo (.node s q l r)).child (bit (first M) q).toNat with
      | .null => if m.prefixLen = KEY_LEN_BITS then peerAddKey p m else none
      | .mk cm d0 d1 => next p (.mk cm d0 d1) (q + PREFIX_STEP_BITS)) = some p) :
    (∀ k ∈ keys (side (!bit (first M) q) l r), k ∈ keysOf D) ∧
      next p (embed (q + 1) (side (bit (first M) q) l r)) (q + 1) = some p := by
  obtain ⟨d0, d1, hside⟩ := embed_message (q + 1) (side (bit (first M) q) l r)
  have hrange : m.minPrefixLen ≤ q ∧ m.stored = true := by
    rw [hm.minLen]
    exact ⟨Nat.zero_le q, hm.stored⟩
  rw [embed_child, hside, if_pos hrange] at hquiet
  rw [hside]
  simp only [guard_true, Option.bind_eq_bind, Option.pure_def, Option.bind_some] at hquiet
  obtain ⟨r', hr', hquiet⟩ := Option.bind_eq_some_iff.mp hquiet
  obtain rfl : r' = p := (peerMissingLeafNodes_grows _ hr').eq (hnext _ _ hquiet)
  refine ⟨?_, hquiet⟩
  obtain ⟨p', D', hrun, hk, hkeys, -⟩ :=
    peerMissingSiblings_spec hG lo q s (bit (first M) q) l r ht
    (fun k hk => by
      have hmem := (ht.inside.mem_side _ k).mp hk
      apply hm.own.absent (Nat.zero_le q) hlt (ht.agree_of_mem (Nat.le_refl q) hagree hmem.1)
      rw [hmem.2]
      simp) h
  obtain rfl : p' = r' := Option.some.inj (hrun.symm.trans hr')
  exact known_before hG h hk hkeys

omit hG in
/-- What our node stands for is theirs, less what is known of the difference. -/
theorem known_of_difference {E T K : Finset SyncKey} (hT : symmDiff P E = T)
    (hours : ∀ k ∈ T, k ∈ R)
    (hE : ∀ k ∈ E, k ∈ K) (hpassed : ∀ k ∈ R, k ∉ T → k ∈ K) : ∀ k ∈ symmDiff R P, k ∈ K := by
  intro k hk
  rcases Finset.mem_symmDiff.mp hk with ⟨hR, hP⟩ | ⟨hP, hR⟩
  · by_cases hkt : k ∈ T
    · rw [← hT, Finset.mem_symmDiff] at hkt
      rcases hkt with ⟨hkP, -⟩ | ⟨hkE, -⟩
      · exact absurd hkP hP
      · exact hE k hkE
    · exact hpassed k hR hkt
  · by_contra hno
    have hkE : k ∉ E := fun hkE => hno (hE k hkE)
    exact hR (hours k (hT ▸ Finset.mem_symmDiff.mpr (Or.inl ⟨hP, hkE⟩)))

/-- Our node is left without a word only when all the difference is known. -/
theorem recvLoop_complete {M : KeyTrie} {E : Finset SyncKey} {m : KeyMessage} {node : Node}
    (hm : Heard j U P 0 M E m) (hall : keys M = P) (fuel lo i : ℕ) (t : KeyTrie)
    (ht : Own j U R lo t) (hlo : lo ≤ i) (him : i ≤ position M) (hpos : i ≤ position t)
    (hagree : Agree bit i (first t) (first M)) {D : Option KeyTrie} {p : Party}
    (h : Knows j U R P own D p) (hE : position M ≠ 64 → Taken D M E)
    (hpassed : ∀ k ∈ R, k ∉ keys t → k ∈ keysOf D)
    (hquiet : recvLoop (message 0 M) m node (isBlank m) fuel p (embed lo t) i = some p) :
    ∀ k ∈ symmDiff R P, k ∈ keysOf D := by
  have hle := hG.le
  have hours : ∀ k ∈ keys t, k ∈ R := fun k hk => ((ht.mem_iff k).mp hk).1
  induction fuel generalizing lo i t with
  | zero => exact absurd hquiet (by simp [recvLoop])
  | succ fuel ih =>
    obtain ⟨c0, c1, hembed⟩ := embed_message lo t
    rw [hembed, recvLoop] at hquiet
    by_cases hsame : cmpMessage (message 0 M) (message lo t) = true
    · have hkeys :=
        eq_of_cmpMessage hG _ _ _ _ (standsFor_message hG M hm.own.inside hm.own.short)
        (standsFor_message hG t ht.inside ht.short) hm.own.inside.mem ht.inside.mem hsame
      have hT : symmDiff P ∅ = keys t := by
        rw [← hkeys, hall]
        exact symmDiff_bot P
      exact known_of_difference hT hours (fun k hk => absurd hk (Finset.notMem_empty k)) hpassed
    · rw [if_neg hsame] at hquiet
      have hnleaf : m.prefixLen = 64 → position t = 64 → first t ≠ first M := by
        intro hm64 ht64 heq
        exact hsame (cmpMessage_of_first hG ht.inside hm.own.inside ht.short hm.own.short ht64
          (hm.len ▸ hm64) heq)
      by_cases hrest : cmpMessage m (message lo t) = true
      · have hinner : position M ≠ 64 := by
          intro h64
          rw [hm.leaf h64] at hrest
          exact hsame hrest
        have hp : position M < 8 * j := by
          cases M with
          | leaf s k => exact absurd rfl hinner
          | node s q l r => exact hm.own.inside.position_lt hG.spread
        have hsub : symmDiff (keys M) E ⊆ U := by
          intro k hk
          rcases Finset.mem_symmDiff.mp hk with ⟨hk, -⟩ | ⟨hk, -⟩
          · exact hm.own.inside.mem k hk
          · exact taken_subset h (hE hinner) hk
        have hkeys := eq_of_cmpMessage hG _ _ _ _ (hm.standsFor hG hp)
          (standsFor_message hG t ht.inside ht.short) hsub ht.inside.mem hrest
        rw [hall] at hkeys
        exact known_of_difference hkeys hours (fun k hk => ((hE hinner k).mp hk).1) hpassed
      · have hi := walk_lt hG hm.bits ht.inside hnleaf hagree (hm.len ▸ him) hpos
        rw [if_neg hrest] at hquiet
        by_cases hstop : m.prefixLen ≤ i
        · have hiM : i = position M := by
            rw [hm.len] at hstop
            omega
          subst i
          rw [if_pos hstop] at hquiet
          exact absurd hquiet
            (answerNode_loud hG hm hi ht hpos hagree h (hE (by omega)) c0 c1 hembed)
        · rw [if_neg hstop, syncGetBits_eq m.key i (by omega)] at hquiet
          simp only [Option.bind_eq_bind, Option.bind_some] at hquiet
          rcases compareLoop_spec hG hm.bits (KEY_LEN_BITS + 1) lo i t ht.inside hnleaf hagree
            (hm.len ▸ him) hpos (by change 65 ≤ 65 + i; omega) with
            ⟨d, hrun, hdm, hdt, hid, hagree', hne⟩ | ⟨q, hrun, hq, hagree'⟩
          · rw [hrun] at hquiet
            rw [hm.len] at hdm
            obtain ⟨hknown, hknown'⟩ := answerMismatch_silent hG hm ht (by omega) hdt hdm hagree'
              hne h c0 c1 hembed hquiet
            intro k hk
            rcases Finset.mem_symmDiff.mp hk with ⟨hR, -⟩ | ⟨hP, -⟩
            · by_cases hkt : k ∈ keys t
              · exact hknown k hkt
              · exact hpassed k hR hkt
            · exact hknown' k (by rwa [hall])
          · rw [hrun, Option.bind_some] at hquiet
            rw [hm.len] at hq hstop
            simp only [message_prefixLen] at hquiet
            by_cases hfar : position M ≤ q
            · rw [if_pos hfar, ← hembed] at hquiet
              exact ih lo q t ht (by omega) (by omega) (by omega) hagree' hpassed hquiet hours
            · rw [if_neg hfar] at hquiet
              cases t with
              | leaf s k =>
                have := position_le_64 hG hm.own.inside
                change q = min _ 64 at hq
                omega
              | node s q' l r =>
                obtain rfl : q = q' := by
                  change q = min _ q' at hq
                  omega
                have hlt : q < position M := by omega
                have hshort := ht.inside.position_lt hG.spread
                have hbit : bit m.key q = bit (first M) q :=
                  hm.bits.bits q (by rw [hm.len]; exact hlt) (by omega)
                rw [hbit, ← hembed] at hquiet
                have hside := ht.side hshort (bit (first M) q)
                obtain ⟨hknown, hquiet⟩ := recvStep_silent hG hm ht hlt hagree' h _
                  (fun r n => recvLoop_grows fuel n) hquiet
                apply ih (q + 1) (q + 1) _ hside (Nat.le_refl _) hlt
                  (position_ge (ht.inside.side _).wellFormed (by omega))
                  (ht.inside.agree_side hagree') _ hquiet
                  (fun k hk => ((hside.mem_iff k).mp hk).1)
                intro k hR hk
                by_cases hkt : k ∈ keys (.node s q l r : KeyTrie)
                · exact hknown k ((ht.inside.mem_side _ k).mpr ⟨hkt, by
                    by_contra hb
                    exact hk ((ht.inside.mem_side _ k).mpr ⟨hkt, by simpa using hb⟩)⟩)
                · exact hpassed k hR hkt

/-- The root of the peer is met with silence only when all the difference is
known. -/
theorem recvKey_complete {D : Option KeyTrie} {p : Party} {t M : KeyTrie}
    (h : Knows j U R P (some t) D p) (ht : Own j U R 0 t) (hM : Own j U P 0 M) {ret : ℤ}
    (hquiet : recvKey p (message 0 M) = some (ret, p)) : ∀ k ∈ symmDiff R P, k ∈ keysOf D := by
  have h64 := position_le_64 hG hM.inside
  obtain ⟨E, m, node, hrest, hm, -, hE⟩ := removeDifferences_heard hG h hM
  obtain ⟨c0, c1, hembed⟩ := embed_message 0 t
  have hroot : p.root = embed 0 t := h.root
  have hmin : (message 0 M).minPrefixLen = 0 := by
    cases M <;> rfl
  have hvalid : ¬ ((message 0 M).minPrefixLen > (message 0 M).prefixLen ∨
      (message 0 M).prefixLen > KEY_LEN_BITS + 1) := by
    rw [hmin, message_prefixLen]
    change ¬ (0 > position M ∨ position M > 65)
    omega
  have hnull : ¬ p.root = .null := by
    rw [hroot, hembed]
    simp
  have hone : ¬ (message 0 M).prefixLen = KEY_LEN_BITS + 1 := by
    rw [message_prefixLen]
    change ¬ position M = 65
    omega
  rw [recvKey, if_neg hvalid, if_neg hnull, if_neg hone, hrest, hroot, Option.bind_eq_bind,
    Option.bind_some] at hquiet
  obtain ⟨q, hq, hquiet⟩ := Option.bind_eq_some_iff.mp hquiet
  obtain rfl : q = p := (Prod.mk.inj (Option.some.inj hquiet)).2
  have hwhole : ∀ {S : Finset SyncKey} {t : KeyTrie}, Own j U S 0 t → ∀ k ∈ S, k ∈ keys t :=
    fun hS k hk => (hS.mem_iff k).mpr ⟨hk, fun i hi => absurd hi (Nat.not_lt_zero i)⟩
  refine recvLoop_complete hG hm ?_ _ 0 0 t ht (Nat.le_refl 0) (Nat.zero_le _) (Nat.zero_le _)
    (fun i hi => absurd hi (Nat.not_lt_zero i)) h hE ?_ hq
  · ext k
    exact ⟨fun hk => ((hM.mem_iff k).mp hk).1, hwhole hM k⟩
  · exact fun k hR hk => absurd (hwhole ht k hR) hk

/-- An empty peer is met with silence only when all own keys are known to be
missing there. -/
theorem recvKey_empty_complete {D : Option KeyTrie} {p : Party} {t : KeyTrie}
    (h : Knows j U R ∅ (some t) D p) (ht : Own j U R 0 t) {m : KeyMessage}
    (hmin : m.minPrefixLen = 0) (hlen : m.prefixLen = KEY_LEN_BITS + 1) {ret : ℤ}
    (hquiet : recvKey p m = some (ret, p)) : ∀ k ∈ R, k ∈ keysOf D := by
  obtain ⟨c0, c1, hembed⟩ := embed_message 0 t
  have hroot : p.root = embed 0 t := h.root
  have hvalid : ¬ (m.minPrefixLen > m.prefixLen ∨ m.prefixLen > KEY_LEN_BITS + 1) := by
    rw [hmin, hlen]
    decide
  have hnull : ¬ p.root = .null := by
    rw [hroot, hembed]
    simp
  rw [recvKey, if_neg hvalid, if_neg hnull, if_pos hlen, hroot] at hquiet
  obtain ⟨q, hq, hquiet⟩ := Option.bind_eq_some_iff.mp hquiet
  obtain rfl : q = p := (Prod.mk.inj (Option.some.inj hquiet)).2
  obtain ⟨p', D', hrun, hk, hkeys, -⟩ := peerMissingLeafNodes_spec hG false 0 t ht
    (fun k _ => Finset.notMem_empty k) h (fun hno => Bool.noConfusion hno)
  obtain rfl : p' = q := Option.some.inj (hrun.symm.trans hq)
  intro k hR
  exact known_before hG h hk hkeys k
    ((ht.mem_iff k).mpr ⟨hR, fun i hi => absurd hi (Nat.not_lt_zero i)⟩)

/-- The root message of a peer, received in silence. -/
theorem root_complete {D D' : Option KeyTrie} {own' : Option KeyTrie} {p q : Party}
    (hown : Rooted j U R own) (hown' : Rooted j U P own') (h : Knows j U R P own D p)
    (h' : Knows j U P R own' D' q) (hR : R.Nonempty) {ret : ℤ}
    (hquiet : syncRecvMessage p (syncRootMsg q) = some (ret, p)) :
    ∀ k ∈ symmDiff R P, k ∈ keysOf D := by
  rcases hown with ⟨-, hempty⟩ | ⟨t, rfl, ht⟩
  · exact absurd hempty hR.ne_empty
  · rcases hown' with ⟨rfl, rfl⟩ | ⟨M, rfl, hM⟩
    · have hroot : q.root = .null := h'.root
      rw [syncRootMsg, hroot] at hquiet
      obtain ⟨ret', hquiet⟩ := recvKey_of_syncRecvMessage rfl hquiet
      intro k hk
      rcases Finset.mem_symmDiff.mp hk with ⟨hR, -⟩ | ⟨hno, -⟩
      · exact recvKey_empty_complete hG h ht rfl rfl hquiet k hR
      · exact absurd hno (Finset.notMem_empty k)
    · have hroot : q.root = embed 0 M := h'.root
      have h64 := position_le_64 hG hM.inside
      obtain ⟨c0, c1, hembed⟩ := embed_message 0 M
      rw [syncRootMsg, hroot, hembed] at hquiet
      obtain ⟨ret', hquiet⟩ := recvKey_of_syncRecvMessage (by simp [messageBytes, MESSAGE_BYTES,
        KEY_LEN]) hquiet
      rw [parseMessage_messageBytes _ (by cases M <;> exact Nat.succ_pos 127)
        (by rw [message_prefixLen]; omega)] at hquiet
      exact recvKey_complete hG h ht hM hquiet

end Complete

/-- A party that answers the root of its peer with silence knows the whole
difference between their keys. -/
theorem silence_complete (j : ℕ) (ks : Bool → List SyncKey)
    (hG : Generic ((ks false).toFinset ∪ (ks true).toFinset) j) :
    ∃ p : Bool → Party, (∀ x, syncAddKeys (ks x) freshParty = some (p x)) ∧
      ∀ s, Relation.ReflTransGen Step ⟨p, fun _ => []⟩ s → ∀ x, ks x ≠ [] →
        ∃ p', syncRecvMessage (s.party x) (syncRootMsg (s.party !x)) = some (0, p') ∧
          ((∀ e ∈ p'.log.drop (s.party x).log.length, ∃ k, e = .nowHas k) →
            ∀ k, ((true, k) ∈ leafEntries p'.peer.root ↔ k ∈ ks x ∧ k ∉ ks !x) ∧
              ((false, k) ∈ leafEntries p'.peer.root ↔ k ∈ ks !x ∧ k ∉ ks x)) := by
  obtain ⟨own, hbuild, hown⟩ := rooted_start hG rfl
  refine ⟨fun x => { freshParty with root := embedOption 0 (own x) }, hbuild, ?_⟩
  intro s hreach x hx
  have hsound := (sound_start (fun x => (ks x).toFinset) own).run hG hown hreach
  obtain ⟨D, hD⟩ := hsound.knows x
  obtain ⟨D', hD'⟩ := hsound.knows !x
  rw [Bool.not_not] at hD'
  have hsent := sent_root (hown !x) hD'
  obtain ⟨p', hrun, q, D'', -, heq, hknows, -⟩ := syncRecvMessage_spec hG (hown x) hD hsent
  obtain rfl : p' = q := Option.some.inj heq
  refine ⟨p', hrun, ?_⟩
  intro hsilent
  have hnothing : p'.log.drop (s.party x).log.length = [] := by
    rw [List.eq_nil_iff_forall_not_mem]
    intro e he
    obtain ⟨k, rfl⟩ := hsilent e he
    exact hknows.log _ (List.mem_of_mem_drop he)
  have hten : (syncRootMsg (s.party !x)).length = MESSAGE_BYTES := by
    rw [syncRootMsg]
    split <;> simp [messageBytes, MESSAGE_BYTES, KEY_LEN]
  obtain ⟨ret, hrecv⟩ := recvKey_of_syncRecvMessage hten hrun
  have hgrows := recvKey_grows hrecv
  have hlen := List.drop_eq_nil_iff.mp hnothing
  have hsame : p' = s.party x := hgrows.quiet (Nat.le_antisymm hlen hgrows.keeps)
  have hcomplete := root_complete hG (hown x) (hown !x) hD hD'
    (List.toFinset_nonempty_iff _ |>.mpr hx) (hsame ▸ hrun)
  rw [hsame]
  have htrue := truthful_of_knows hG hD
  have hknown : ∀ k ∈ symmDiff (ks x).toFinset (ks !x).toFinset,
      ∃ b, (b, k) ∈ leafEntries (s.party x).peer.root := by
    intro k hk
    rw [leafEntries_knows hG hD]
    exact (mem_keysOf_iff D k).mp (hcomplete k hk)
  intro k
  refine ⟨⟨fun hk => by simpa using htrue.missing k hk, ?_⟩,
    ⟨fun hk => by simpa using htrue.offered k hk, ?_⟩⟩
  · rintro ⟨hin, hout⟩
    obtain ⟨b, hb⟩ := hknown k (Finset.mem_symmDiff.mpr (Or.inl (by simpa using ⟨hin, hout⟩)))
    cases b with
    | true => exact hb
    | false => exact absurd (List.mem_toFinset.mp (htrue.offered k hb).1) hout
  · rintro ⟨hin, hout⟩
    obtain ⟨b, hb⟩ := hknown k (Finset.mem_symmDiff.mpr (Or.inr (by simpa using ⟨hin, hout⟩)))
    cases b with
    | false => exact hb
    | true => exact absurd (List.mem_toFinset.mp (htrue.missing k hb).1) hout

def deliverFirst (s : System) (x : Bool) : Option System :=
  match s.toward x with
  | [] => none
  | buff :: rest => (syncRecvMessage (s.party x) buff).map fun r => s.receive x rest r.2

theorem deliverFirst_step {s s' : System} {x : Bool}
    (h : deliverFirst s x = some s') : Step s s' := by
  rw [deliverFirst] at h
  cases hflight : s.toward x with
  | nil =>
    rw [hflight] at h
    cases h
  | cons buff rest =>
    rw [hflight] at h
    obtain ⟨⟨ret, p'⟩, hrecv, rfl⟩ := Option.map_eq_some_iff.mp h
    exact Step.deliver s _ (Deliver.mk s x [] rest buff ret p' hflight hrecv)

theorem deliveries_reach {xs : List Bool} {s s' : System}
    (h : xs.foldlM deliverFirst s = some s') :
    Relation.ReflTransGen Step s s' := by
  induction xs generalizing s with
  | nil =>
    obtain rfl := Option.some.inj h
    exact .refl
  | cons x xs ih =>
    rw [List.foldlM_cons] at h
    obtain ⟨s₁, hfirst, hrest⟩ := Option.bind_eq_some_iff.mp h
    exact .head (deliverFirst_step hfirst) (ih hrest)

def sharingKeys (x : Bool) : List SyncKey :=
  if x then [keyOf [0, 1], keyOf [0x80, 2]] else [keyOf [0, 1], keyOf [0x81, 4]]

def sharingParty (x : Bool) : Party := (syncAddKeys (sharingKeys x) freshParty).getD freshParty

def sharingRoot : System :=
  ⟨sharingParty, fun x => if x then [syncRootMsg (sharingParty false)] else []⟩

/-- The messages that it leads to are all delivered, and the root is heard again. -/
theorem sharing_ends :
    (([true, false, false, true, true, false, false].foldlM deliverFirst sharingRoot).bind
      fun s =>
    (syncRecvMessage (s.party true) (syncRootMsg (s.party false))).map fun r =>
      (r.2.log.drop (s.party true).log.length).length) = some 0 := by
  decide +kernel

theorem silence_complete_sharing :
    ∃ (p : Bool → Party) (s : System) (p' : Party),
      (∀ x, syncAddKeys (sharingKeys x) freshParty = some (p x)) ∧
      Relation.ReflTransGen Step ⟨p, fun _ => []⟩ s ∧
      syncRecvMessage (s.party true) (syncRootMsg (s.party false)) = some (0, p') ∧
      ∀ k, ((true, k) ∈ leafEntries p'.peer.root ↔ k = keyOf [0x80, 2]) ∧
        ((false, k) ∈ leafEntries p'.peer.root ↔ k = keyOf [0x81, 4]) := by
  obtain ⟨p, hstart, hsilent⟩ := silence_complete 1 sharingKeys
    (generic_of_own_bits (sharingKeys false ++ sharingKeys true) _ 1 (by decide)
      (by decide) (by simp) (by decide +kernel) (by decide +kernel))
  have hp : p = sharingParty := by
    funext x
    rw [sharingParty, hstart x]
    rfl
  subst hp
  obtain ⟨s, hrun, hquiet⟩ := Option.bind_eq_some_iff.mp sharing_ends
  have hsent : Step ⟨sharingParty, fun _ => []⟩ sharingRoot := by
    have hroot := Step.root ⟨sharingParty, fun _ => []⟩ false
    have heq : System.send ⟨sharingParty, fun _ => []⟩ true
      [syncRootMsg (sharingParty false)] = sharingRoot := by
      rw [System.send, sharingRoot]
      congr
      funext x
      cases x <;> rfl
    exact heq ▸ hroot
  have hreach := Relation.ReflTransGen.head hsent (deliveries_reach hrun)
  obtain ⟨p', hrecv, hknown⟩ := hsilent s hreach true (by simp [sharingKeys])
  refine ⟨sharingParty, s, p', hstart, hreach, hrecv, ?_⟩
  obtain ⟨r, hr, hlength⟩ := Option.map_eq_some_iff.mp hquiet
  obtain rfl := Option.some.inj (hrecv.symm.trans hr)
  intro k
  have hshared : keyOf [0x80, 2] ≠ keyOf [0, 1] ∧ keyOf [0x81, 4] ≠ keyOf [0, 1] ∧
      keyOf [0x80, 2] ≠ keyOf [0x81, 4] := by
    decide +kernel
  obtain ⟨hmissing, hoffered⟩ := hknown (by simp [List.eq_nil_of_length_eq_zero hlength]) k
  rw [hmissing, hoffered]
  simp only [sharingKeys, Bool.not_true, if_true, Bool.false_eq_true, if_false,
    List.mem_cons, List.not_mem_nil, or_false]
  refine ⟨⟨?_, ?_⟩, ⟨?_, ?_⟩⟩
  · rintro ⟨rfl | rfl, hnot⟩
    · exact absurd (Or.inl rfl) hnot
    · rfl
  · rintro rfl
    exact ⟨Or.inr rfl, fun h => h.elim hshared.1 hshared.2.2⟩
  · rintro ⟨rfl | rfl, hnot⟩
    · exact absurd (Or.inl rfl) hnot
    · rfl
  · rintro rfl
    exact ⟨Or.inr rfl, fun h => h.elim hshared.2.1 (Ne.symm hshared.2.2)⟩

end Succinct.SyncAgreement
