import Succinct.SyncWalks

/-!
What a party knows of its peer. Fix the keys R of the party and the keys P
of the peer. The peer tree holds keys of R that P lacks, stored, and keys of
P that R lacks, not stored. Every function that changes the peer tree keeps
this, reports only such keys, and pays for the messages it queues with what
it has learnt.
-/
namespace Succinct.SyncParty

open SyncKeys BitTries SyncBits SyncTree SyncProtocol SyncCompare SyncWalks

/-- A message that a party with keys S may have sent to one with keys T. -/
inductive Sent (j : ℕ) (U S T : Finset SyncKey) : List UInt8 → Prop
  | node (lo : ℕ) (t : KeyTrie) (h : Own j U S lo t) : Sent j U S T (messageBytes (message lo t))
  | ack (lo : ℕ) (k : SyncKey) (hlo : lo ≤ 8 * j) (hT : k ∈ T) (hS : k ∉ S) :
      Sent j U S T (messageBytes (message lo (.leaf false k)))
  | empty (h : S = ∅) : Sent j U S T
    (0x80 :: UInt8.ofNat (KEY_LEN_BITS + 1) :: List.replicate KEY_LEN 0)

def CallbackOk (j : ℕ) (U R P : Finset SyncKey) : Callback → Prop
  | .has k => k ∈ P ∧ k ∉ R
  | .hasNot k => k ∈ R ∧ k ∉ P
  | .nowHas _ => False
  | .queueMessage buff => Sent j U R P buff

def LabelOk (R P : Finset SyncKey) (e : Bool × SyncKey) : Prop :=
  if e.1 then e.2 ∈ R ∧ e.2 ∉ P else e.2 ∈ P ∧ e.2 ∉ R

structure Knows (j : ℕ) (U R P : Finset SyncKey) (own D : Option KeyTrie) (p : Party) : Prop where
  root : p.root = embedOption 0 own
  peerRoot : p.peer.root = embedOption 0 D
  inside : OverOption U D
  labels : ∀ e ∈ leavesOf D, LabelOk R P e
  sendCount : p.peer.sendCount = (leavesOf D).countP (fun e => e.1)
  recvCount : p.peer.recvCount = (leavesOf D).countP (fun e => !e.1)
  log : ∀ e ∈ p.log, CallbackOk j U R P e

/-- The price of a message: the shorter its prefix, the more answers it can
start. -/
def weight (buff : List UInt8) : ℕ := 3 ^ (64 - (buff.getD 1 0).toNat)

def cost (log : List Callback) : ℕ :=
  (log.map fun e => match e with
    | .queueMessage buff => weight buff
    | _ => 0).sum

def known (p : Party) : ℕ := p.peer.sendCount + p.peer.recvCount

/-- The second party is the first one after callbacks that cost no more than
what was learnt and the extra given. -/
structure Pays (p p' : Party) (extra : ℕ) : Prop where
  learns : known p ≤ known p'
  log : ∃ new, p'.log = p.log ++ new ∧ known p + cost new ≤ known p' + extra

theorem Pays.refl (p : Party) : Pays p p 0 :=
  ⟨Nat.le_refl _, [], (List.append_nil _).symm, Nat.le_refl _⟩

theorem cost_append (a b : List Callback) : cost (a ++ b) = cost a + cost b := by
  simp [cost]

theorem Pays.trans {p q r : Party} {a b : ℕ} (h : Pays p q a) (h' : Pays q r b) :
    Pays p r (a + b) := by
  obtain ⟨hlearn, new, hlog, hcost⟩ := h
  obtain ⟨hlearn', new', hlog', hcost'⟩ := h'
  refine ⟨hlearn.trans hlearn', new ++ new', ?_, ?_⟩
  · rw [hlog', hlog, List.append_assoc]
  · rw [cost_append]
    omega

theorem weight_message (lo : ℕ) (t : KeyTrie) (h : position t ≤ 64) :
    weight (messageBytes (message lo t)) = 3 ^ (64 - position t) := by
  have hmod : position t % 256 = position t := Nat.mod_eq_of_lt (by omega)
  simp [weight, messageBytes, message_prefixLen, hmod]

/-- Queueing a message costs its weight. -/
theorem pays_queue (p : Party) (m : KeyMessage) :
    Pays p (p.queue m) (weight (messageBytes m)) := by
  refine ⟨Nat.le_refl _, [.queueMessage (messageBytes m)], rfl, ?_⟩
  simp [cost, known, Party.queue, Party.call]

theorem mem_keysOf_iff (D : Option KeyTrie) (k : SyncKey) :
    k ∈ keysOf D ↔ ∃ s, (s, k) ∈ leavesOf D := by
  cases D with
  | none => simp [keysOf, leavesOf]
  | some t => exact mem_keys_iff t k

noncomputable def insertOption (s : Bool) (k : SyncKey) : Option KeyTrie → KeyTrie
  | none => .leaf s k
  | some t => insertKey bit s k t

theorem leaves_insertOption (s : Bool) (k : SyncKey) (D : Option KeyTrie) :
    (leaves (insertOption s k D)).Perm ((s, k) :: leavesOf D) := by
  cases D with
  | none => exact List.Perm.refl _
  | some t => exact leaves_insert bit s k t

theorem keys_insertOption (s : Bool) (k : SyncKey) (D : Option KeyTrie) :
    keys (insertOption s k D) = insert k (keysOf D) := by
  cases D with
  | none => rfl
  | some t => exact keys_insert bit s k t

section Party

variable {j : ℕ} {U R P : Finset SyncKey} {own : Option KeyTrie} (hG : Generic U j)

theorem Knows.queue {D : Option KeyTrie} {p : Party} (h : Knows j U R P own D p) (m : KeyMessage)
    (hm : Sent j U R P (messageBytes m)) : Knows j U R P own D (p.queue m) := by
  refine ⟨h.root, h.peerRoot, h.inside, h.labels, h.sendCount, h.recvCount, ?_⟩
  intro e he
  rcases List.mem_append.mp he with he | he
  · exact h.log e he
  · rw [List.mem_singleton.mp he]
    exact hm

/-- A key known of the peer belongs to one party only. -/
theorem Knows.not_both {D : Option KeyTrie} {p : Party} (h : Knows j U R P own D p) {k : SyncKey}
    (hk : k ∈ keysOf D) : ¬ (k ∈ R ∧ k ∈ P) := by
  rintro ⟨hR, hP⟩
  obtain ⟨s, hs⟩ := (mem_keysOf_iff D k).mp hk
  have hlabel := h.labels _ hs
  cases s with
  | false => exact hlabel.2 hR
  | true => exact hlabel.2 hP

include hG

theorem addKey_option (s : Bool) (k : SyncKey) (hk : k ∈ U) (D : Option KeyTrie)
    (hD : OverOption U D) (hnot : k ∉ keysOf D) :
    addKey (embedOption 0 D) k s = some (embed 0 (insertOption s k D)) ∧
      Over U 0 (insertOption s k D) := by
  cases D with
  | none =>
    refine ⟨rfl, trivial, ?_⟩
    intro x hx
    rw [Finset.mem_singleton.mp hx]
    exact hk
  | some t =>
    have ht := hD t rfl
    refine ⟨addKey_embed hG.spread hG.le k hk s t ht hnot, ?_⟩
    exact ht.insertKey hG.spread k hk s hnot (fun i hi => absurd hi (Nat.not_lt_zero i))

/-- A key is added to the peer tree, and counted. -/
theorem Knows.insert {D : Option KeyTrie} {p : Party} (h : Knows j U R P own D p) (s : Bool)
    (k : SyncKey) (hk : k ∈ U) (hnot : k ∉ keysOf D) (hlabel : LabelOk R P (s, k))
    (new : List Callback) (hnew : ∀ e ∈ new, CallbackOk j U R P e) :
    addKey p.peer.root k s = some (embed 0 (insertOption s k D)) ∧
      Knows j U R P own (some (insertOption s k D))
        { p with
          peer := { root := embed 0 (insertOption s k D)
                    sendCount := p.peer.sendCount + if s then 1 else 0
                    recvCount := p.peer.recvCount + if s then 0 else 1 }
          log := p.log ++ new } := by
  obtain ⟨hadd, hover⟩ := addKey_option hG s k hk D h.inside hnot
  have hperm := leaves_insertOption s k D
  rw [h.peerRoot]
  refine ⟨hadd, h.root, rfl, ?_, ?_, ?_, ?_, ?_⟩
  · intro t ht
    rw [← Option.some.inj ht]
    exact hover
  · intro e he
    rcases List.mem_cons.mp (hperm.mem_iff.mp he) with rfl | he
    · exact hlabel
    · exact h.labels e he
  · change p.peer.sendCount + _ = (leaves (insertOption s k D)).countP _
    rw [hperm.countP_eq, List.countP_cons, h.sendCount]
  · change p.peer.recvCount + _ = (leaves (insertOption s k D)).countP _
    rw [hperm.countP_eq, List.countP_cons, h.recvCount]
    cases s <;> rfl
  · intro e he
    rcases List.mem_append.mp he with he | he
    · exact h.log e he
    · exact hnew e he

/-- A key of R that P lacks is flagged as missing, once. -/
theorem peerIsMissing_spec {D : Option KeyTrie} {p : Party} (h : Knows j U R P own D p)
    (m : KeyMessage) (hm : LeafLike j m) (hU : m.key ∈ U) (hR : m.key ∈ R) (hP : m.key ∉ P)
    (allowRemove : Bool) (hallow : allowRemove = true → m.key ∉ keysOf D) :
    (m.key ∈ keysOf D ∧ peerIsMissing p m allowRemove = some (false, p)) ∨
    (m.key ∉ keysOf D ∧ ∃ p', peerIsMissing p m allowRemove = some (true, p') ∧
      Knows j U R P own (some (insertOption true m.key D)) p' ∧
      p'.log = p.log ++ [.hasNot m.key] ∧ known p' = known p + 1) := by
  obtain ⟨hin, hout⟩ := findMessage_spec hG m hm hU D h.inside
  by_cases hmem : m.key ∈ keysOf D
  · left
    obtain ⟨lo, s, hfind, -⟩ := hin hmem
    have hno : allowRemove = false := by
      rw [Bool.eq_false_iff]
      exact fun hyes => hallow hyes hmem
    refine ⟨hmem, ?_⟩
    rw [peerIsMissing, h.peerRoot, hfind, hno]
    simp only [Option.bind_eq_bind, Option.bind_some, embed, Bool.and_false, Bool.false_eq_true,
      if_false]
  · right
    obtain ⟨hadd, hknows⟩ := h.insert hG true m.key hU hmem (And.intro hR hP) [.hasNot m.key] (by
      intro e he
      rw [List.mem_singleton.mp he]
      exact ⟨hR, hP⟩)
    refine ⟨hmem, _, ?_, hknows, rfl, ?_⟩
    · rw [peerIsMissing, h.peerRoot, hout hmem, ← h.peerRoot]
      simp only [Option.bind_eq_bind, Option.bind_some, hadd]
      rfl
    · simp [known]
      omega

omit hG in
theorem keysOf_insertOption (s : Bool) (k : SyncKey) (D : Option KeyTrie) :
    keysOf (some (insertOption s k D)) = insert k (keysOf D) := keys_insertOption s k D

/-- All leaves of a subtree that P lacks are flagged, and those that were
not known before are queued. -/
theorem peerMissingLeafNodes_spec (allowRemove : Bool) (lo : ℕ) (t : KeyTrie)
    (ht : Own j U R lo t) (hP : ∀ k ∈ keys t, k ∉ P) {D : Option KeyTrie} {p : Party}
    (h : Knows j U R P own D p)
    (hallow : allowRemove = true → ∀ k ∈ keys t, k ∉ keysOf D) :
    ∃ p' D', peerMissingLeafNodes allowRemove (embed lo t) NODE_CHILDREN p = some p' ∧
      Knows j U R P own D' p' ∧ keysOf D' = keysOf D ∪ keys t ∧ Pays p p' 0 := by
  induction t generalizing lo D p with
  | leaf s k =>
    have hs : s = true := ht.stored
    subst s
    have hmem : k ∈ keys (.leaf true k : KeyTrie) := Finset.mem_singleton_self k
    have hR := ((ht.mem_iff k).mp hmem).1
    have hlen : (message lo (.leaf true k)).prefixLen = KEY_LEN_BITS := rfl
    rw [embed, peerMissingLeafNodes, if_pos hlen]
    rcases peerIsMissing_spec hG h (message lo (.leaf true k)) ⟨rfl, ht.short⟩
      (ht.inside.mem k hmem)
      hR (hP k hmem) allowRemove (fun hyes => hallow hyes k hmem) with
      ⟨hin, hres⟩ | ⟨hout, p', hres, hknows, hlog, hcount⟩
    · refine ⟨p, D, ?_, h, ?_, Pays.refl p⟩
      · rw [hres]
        rfl
      · exact (Finset.union_eq_left.mpr (Finset.singleton_subset_iff.mpr hin)).symm
    · refine ⟨p'.queue (message lo (.leaf true k)), _, ?_,
        hknows.queue _ (Sent.node lo _ ht), ?_, ?_⟩
      · rw [hres]
        rfl
      · rw [keysOf_insertOption, Finset.insert_eq, Finset.union_comm]
        rfl
      · refine ⟨?_, [.hasNot k, .queueMessage (messageBytes (message lo (.leaf true k)))], ?_, ?_⟩
        · change known p ≤ known p'
          omega
        · change p'.log ++ _ = _
          rw [hlog, List.append_assoc]
          rfl
        · have hweight := weight_message lo (.leaf true k) (Nat.le_refl 64)
          change known p + cost _ ≤ known p' + 0
          simp only [cost, List.map_cons, List.map_nil, List.sum_cons, List.sum_nil, hweight]
          change known p + (0 + (3 ^ (64 - 64) + 0)) ≤ known p' + 0
          omega
  | node s q l r ihl ihr =>
    have hq := ht.inside.position_lt hG.spread
    have hl := ht.side hq false
    have hr := ht.side hq true
    change Own j U R (q + 1) l at hl
    change Own j U R (q + 1) r at hr
    obtain ⟨p1, D1, hrun1, hk1, hkeys1, hpay1⟩ := ihl (q + 1) hl
      (fun k hk => hP k (Finset.mem_union_left _ hk)) h
      (fun hyes k hk => hallow hyes k (Finset.mem_union_left _ hk))
    have hdisj := Finset.disjoint_left.mp (ht.inside.wellFormed.disjoint bit)
    obtain ⟨p2, D2, hrun2, hk2, hkeys2, hpay2⟩ := ihr (q + 1) hr
      (fun k hk => hP k (Finset.mem_union_right _ hk)) hk1 (by
        intro hyes k hk hmem
        rw [hkeys1] at hmem
        rcases Finset.mem_union.mp hmem with hmem | hmem
        · exact hallow hyes k (Finset.mem_union_right _ hk) hmem
        · exact hdisj hmem hk)
    obtain ⟨a0, a1, hl0⟩ := embed_message (q + 1) l
    obtain ⟨b0, b1, hr0⟩ := embed_message (q + 1) r
    refine ⟨p2, D2, ?_, hk2, ?_, hpay1.trans hpay2⟩
    · have hc0 : 0 ≠ NODE_CHILDREN ∧ embed (q + 1) l ≠ .null := by
        rw [hl0]
        exact ⟨by decide, by simp⟩
      have hc1 : 1 ≠ NODE_CHILDREN ∧ embed (q + 1) r ≠ .null := by
        rw [hr0]
        exact ⟨by decide, by simp⟩
      rw [embed, peerMissingLeafNodes, if_neg (inner_len hG lo ht.inside), if_pos hc0, hrun1]
      simp only [Option.bind_eq_bind, Option.bind_some, if_pos hc1, hrun2]
    · rw [hkeys2, hkeys1, Finset.union_assoc]
      rfl

/-- The same for one child of a node. -/
theorem peerMissingSiblings_spec (lo q : ℕ) (s b : Bool) (l r : KeyTrie)
    (ht : Own j U R lo (.node s q l r)) (hP : ∀ k ∈ keys (side (!b) l r), k ∉ P)
    {D : Option KeyTrie} {p : Party} (h : Knows j U R P own D p) :
    ∃ p' D', peerMissingLeafNodes false (embed lo (.node s q l r)) b.toNat p = some p' ∧
      Knows j U R P own D' p' ∧ keysOf D' = keysOf D ∪ keys (side (!b) l r) ∧ Pays p p' 0 := by
  have hq := ht.inside.position_lt hG.spread
  obtain ⟨p', D', hrun, hk, hkeys, hpay⟩ := peerMissingLeafNodes_spec hG false (q + 1) _
    (ht.side hq (!b)) hP h (fun hno => Bool.noConfusion hno)
  refine ⟨p', D', ?_, hk, hkeys, hpay⟩
  obtain ⟨a0, a1, hl0⟩ := embed_message (q + 1) l
  obtain ⟨b0, b1, hr0⟩ := embed_message (q + 1) r
  rw [embed, peerMissingLeafNodes, if_neg (inner_len hG lo ht.inside)]
  cases b with
  | false =>
    have hc0 : ¬ (0 ≠ false.toNat ∧ embed (q + 1) l ≠ .null) := by simp
    have hc1 : 1 ≠ false.toNat ∧ embed (q + 1) r ≠ .null := by
      rw [hr0]
      exact ⟨by decide, by simp⟩
    rw [if_neg hc0]
    simp only [Option.bind_eq_bind, Option.bind_some, if_pos hc1]
    exact hrun
  | true =>
    have hc0 : 0 ≠ true.toNat ∧ embed (q + 1) l ≠ .null := by
      rw [hl0]
      exact ⟨by decide, by simp⟩
    have hc1 : ¬ (1 ≠ true.toNat ∧ embed (q + 1) r ≠ .null) := by simp
    rw [if_pos hc0]
    simp only [Option.bind_eq_bind, if_neg hc1]
    change (peerMissingLeafNodes false (embed (q + 1) (side (!true) l r))
      NODE_CHILDREN p).bind _ = _
    rw [hrun]
    rfl

/-- The leaf of a key in a tree of generic keys. -/
theorem addedLeaf_embed (lo : ℕ) (t : KeyTrie) (ht : Over U lo t) (hlo : lo ≤ 8 * j)
    (k : SyncKey) :
    (k ∈ keys t → ∃ lo' s, addedLeaf k (embed lo t) = some (message lo' (.leaf s k)) ∧
      (s, k) ∈ leaves t ∧ lo' ≤ 8 * j) ∧
    (k ∉ keys t → addedLeaf k (embed lo t) = none) := by
  induction t generalizing lo with
  | leaf s k' =>
    have hlen : (message lo (.leaf s k')).prefixLen = KEY_LEN_BITS := rfl
    rw [embed, addedLeaf, if_pos hlen]
    refine ⟨?_, ?_⟩
    · intro hk
      have heq : k = k' := Finset.mem_singleton.mp hk
      subst k'
      exact ⟨lo, s, if_pos rfl, List.mem_singleton_self _, hlo⟩
    · intro hk
      have hne : ¬ (message lo (.leaf s k')).key = k := by
        intro heq
        apply hk
        rw [← heq]
        exact Finset.mem_singleton_self _
      rw [if_neg hne]
  | node s q l r ihl ihr =>
    have hq := ht.position_lt hG.spread
    obtain ⟨hl, hl'⟩ := ihl (q + 1) ht.left hq
    obtain ⟨hr, hr'⟩ := ihr (q + 1) ht.right hq
    rw [embed, addedLeaf, if_neg (inner_len hG lo ht)]
    refine ⟨?_, ?_⟩
    · intro hk
      by_cases hmem : k ∈ keys l
      · obtain ⟨lo', s', hfound, hleaf, hshort⟩ := hl hmem
        rw [hfound, Option.some_or]
        exact ⟨lo', s', rfl, List.mem_append_left _ hleaf, hshort⟩
      · obtain ⟨lo', s', hfound, hleaf, hshort⟩ :=
          hr ((Finset.mem_union.mp hk).resolve_left hmem)
        rw [hl' hmem, Option.none_or, hfound]
        exact ⟨lo', s', rfl, List.mem_append_right _ hleaf, hshort⟩
    · intro hk
      rw [hl' (fun hx => hk (Finset.mem_union_left _ hx)), Option.none_or]
      exact hr' (fun hx => hk (Finset.mem_union_right _ hx))

/-- A key of P that R lacks is noted and acknowledged, once. -/
theorem peerAddKey_spec {D : Option KeyTrie} {p : Party} (h : Knows j U R P own D p)
    (m : KeyMessage) (hm : LeafLike j m) (hU : m.key ∈ U) (hP : m.key ∈ P) (hR : m.key ∉ R) :
    ∃ p' D', peerAddKey p m = some p' ∧ Knows j U R P own D' p' ∧
      (m.stored = true → m.key ∈ keysOf D') ∧ Pays p p' 0 := by
  by_cases hstored : m.stored = true
  · have hcond : ¬ (m.prefixLen ≠ KEY_LEN_BITS ∨ (!m.stored) = true) := by
      simp [hm.isLeaf, hstored]
    obtain ⟨hin, hout⟩ := findMessage_spec hG m hm hU D h.inside
    rw [peerAddKey, if_neg hcond, h.peerRoot]
    by_cases hmem : m.key ∈ keysOf D
    · obtain ⟨lo, s, hfind, -⟩ := hin hmem
      refine ⟨p, D, ?_, h, fun _ => hmem, Pays.refl p⟩
      rw [hfind]
      rfl
    · obtain ⟨hadd, hknows⟩ := h.insert hG false m.key hU hmem (And.intro hP hR) [.has m.key] (by
        intro e he
        rw [List.mem_singleton.mp he]
        exact ⟨hP, hR⟩)
      have hover := hknows.inside _ rfl
      have hkey : m.key ∈ keys (insertOption false m.key D) := by
        rw [keys_insertOption]
        exact Finset.mem_insert_self _ _
      obtain ⟨lo, s, hleaf, hmem', hshort⟩ :=
        (addedLeaf_embed hG 0 _ hover (Nat.zero_le _) m.key).1 hkey
      have hs : s = false := by
        rcases List.mem_cons.mp ((leaves_insertOption false m.key D).mem_iff.mp hmem')
          with heq | hold
        · exact congrArg Prod.fst heq
        · exact absurd ((mem_keysOf_iff D m.key).mpr ⟨s, hold⟩) hmem
      subst s
      refine ⟨_, _, ?_, hknows.queue (message lo (.leaf false m.key))
        (Sent.ack lo m.key hshort hP hR), fun _ => hkey, ?_⟩
      · rw [hout hmem, ← h.peerRoot]
        simp only [Option.bind_eq_bind, Option.bind_some, hadd, hleaf]
        rfl
      · refine ⟨?_, [.has m.key, .queueMessage (messageBytes (message lo (.leaf false m.key)))],
          ?_, ?_⟩
        · simp [known, Party.queue, Party.call]
        · simp [Party.queue, Party.call]
        · have hweight := weight_message lo (.leaf false m.key) (Nat.le_refl 64)
          simp only [cost, List.map_cons, List.map_nil, List.sum_cons, List.sum_nil, hweight,
            position, known, Party.queue, Party.call, Bool.false_eq_true, if_false]
          omega
  · refine ⟨p, D, ?_, h, fun hyes => absurd hyes hstored, Pays.refl p⟩
    rw [peerAddKey, if_pos]
    right
    simp [hstored]

/-- Nothing has been received below a peer node without stored leaves. -/
theorem peerHasReceivedAll_spec (lo : ℕ) (t : KeyTrie) (ht : Over U lo t)
    (hlabels : ∀ e ∈ leaves t, e.1 = false) (p : Party) :
    peerHasReceivedAll (embed lo t) p = some (0, p) := by
  induction t generalizing lo with
  | leaf s k =>
    have hs : s = false := hlabels (s, k) (List.mem_singleton_self _)
    subst s
    have hlen : (message lo (.leaf false k)).prefixLen = KEY_LEN_BITS := rfl
    rw [embed, peerHasReceivedAll, if_pos hlen]
    rfl
  | node s q l r ihl ihr =>
    rw [embed, peerHasReceivedAll, if_neg (inner_len hG lo ht),
      ihl (q + 1) ht.left (fun e he => hlabels e (List.mem_append_left _ he))]
    simp only [Option.bind_eq_bind, Option.bind_some]
    rw [ihr (q + 1) ht.right (fun e he => hlabels e (List.mem_append_right _ he))]
    rfl

end Party

end Succinct.SyncParty
