import Succinct.LinkAcks

/-!
Links in both directions. A broadcast that reaches a device is acknowledged by the next
heartbeat of that device, if it comes in time, the interface stays and the acknowledgements
have room in it; and a heartbeat with the acknowledgement ends the heartbeats for one device
alone.
-/
namespace Succinct.Handshakes

open ByteBuffers Messages MessageWrites Datagrams SubnetWalks WalkedMaps Heartbeats LinkAcks

section Fields

variable {heap : Heap} {id : PeerId} {s : Device}

theorem createPeer_fields {peer : PeerId} {s' : Device} (h : createPeer id peer s = some s') :
    s'.elapsedRealtime = s.elapsedRealtime ∧ s'.removed = s.removed ∧ s'.objects = s.objects ∧
      s'.networks = s.networks := by
  rw [createPeer] at h
  split at h
  · cases h
  · split at h
    · obtain rfl := Option.some.inj h
      exact ⟨rfl, rfl, rfl, rfl⟩
    · obtain rfl := Option.some.inj h
      exact ⟨rfl, rfl, rfl, rfl⟩

end Fields

section Interfaces

structure Up (s : Device) : Prop where
  networks : ∀ name n, s.networks.lookup name = some n → n.object ∉ s.removed ∧
    n.object < s.objects
  distinct : ∀ name name' n n', s.networks.lookup name = some n →
    s.networks.lookup name' = some n' → n.object = n'.object → name = name'
  removed : ∀ o ∈ s.removed, o < s.objects
  links : ∀ id addr link o, HasLink s id addr link → link.network = some o →
    o ∉ s.removed ∧ o < s.objects

variable {heap : Heap} {s s' : Device}

/-- A step that keeps the interfaces and makes no links. -/
theorem Up.keep (h : Up s)
    (hfields : s'.removed = s.removed ∧ s'.objects = s.objects ∧ s'.networks = s.networks)
    (hlinks : ∀ id addr link o, HasLink s' id addr link → link.network = some o →
      o ∉ s.removed ∧ o < s.objects) :
    Up s' := by
  obtain ⟨hremoved, hobjects, hnetworks⟩ := hfields
  constructor
  · rw [hremoved, hobjects, hnetworks]
    exact h.networks
  · rw [hnetworks]
    exact h.distinct
  · rw [hremoved, hobjects]
    exact h.removed
  · rw [hremoved, hobjects]
    exact hlinks

theorem Up.process (id : PeerId) (network : Option ℕ) (addr : SocketAddress)
    (messages : List Message)
    (peer : Option PeerId) (h : Up s)
    (hnetwork : ∀ o, network = some o → o ∉ s.removed ∧ o < s.objects) :
    Up (process id network addr messages peer s) := by
  induction messages generalizing peer s with
  | nil => exact h
  | cons m rest ih =>
    cases m with
    | header from' unicast seq =>
      rw [Heartbeats.process]
      cases hs' : createPeer id from' s with
      | none =>
        exact h
      | some s' =>
        have hfields := createPeer_fields hs'
        have hold := (createPeer_spec hs').2.2.2
        refine ih (some from') (h.keep ⟨hfields.2.1, hfields.2.2.1, hfields.2.2.2⟩ ?_) ?_
        · intro i a l o hl ho
          rcases hasLink_processHeader hl with hl | ⟨-, -, link, hlink, rfl⟩
          · exact h.links i a l o (hold i a l hl) ho
          · have hsame : (link.hear s'.elapsedRealtime unicast seq).network = link.network := by
              cases unicast <;> rfl
            rw [hsame] at ho
            rcases hlink with hlink | rfl
            · exact h.links _ _ link o (hold _ _ link hlink) ho
            · exact hnetwork o ho
        · intro o ho
          dsimp only
          rw [hfields.2.1, hfields.2.2.1]
          exact hnetwork o ho
    | ack links =>
      cases peer with
      | none => exact ih none h hnetwork
      | some p =>
        refine ih (some p) (h.keep ⟨rfl, rfl, rfl⟩ ?_) hnetwork
        intro i a l o hl ho
        rcases hasLink_modifyLink hl with hl | ⟨-, -, link, hlink, rfl⟩
        · exact h.links i a l o hl ho
        · rw [(@processAck_spec id s.elapsedRealtime links link).1.2.2.2.2] at ho
          exact h.links _ _ link o hlink ho
    | stun addresses => exact ih peer (h.keep ⟨rfl, rfl, rfl⟩ h.links) hnetwork
    | _ => exact ih peer h hnetwork

theorem Up.read (h : Up s) (id : PeerId) (addr : SocketAddress) (bytes : List UInt8) :
    Up (read heap id (receiveInterface s addr) addr bytes s) := by
  rw [Heartbeats.read]
  split
  · exact h
  · refine h.process id _ addr _ none ?_
    intro o ho
    obtain ⟨⟨name, n⟩, hfind, rfl⟩ := Option.map_eq_some_iff.mp ho
    exact h.networks name n (mem_entries.mp (List.mem_of_find?_eq_some hfind))

/-- The interfaces of a map, one of which was taken down. -/
theorem Up.trimDead (h : ∀ name n, s.networks.lookup name = some n → n.object ∉ s.removed ∧
    n.object < s.objects)
    (hdistinct : ∀ name name' n n', s.networks.lookup name = some n →
      s.networks.lookup name' = some n' → n.object = n'.object → name = name')
    (hremoved : ∀ o ∈ s.removed, o < s.objects)
    (hlinks : ∀ id addr link o, HasLink s id addr link → link.network = some o → o < s.objects) :
    Up (trimDead s) := by
  refine ⟨h, hdistinct, hremoved, ?_⟩
  intro id addr link o hl ho
  obtain ⟨hlink, hgone⟩ := hasLink_trimDead.mp hl
  refine ⟨?_, hlinks id addr link o hlink ho⟩
  change o ∉ s.removed
  rw [Device.gone, ho, Bool.or_eq_false_iff] at hgone
  simpa using hgone.2

theorem Up.onRemove (h : Up s) (name : String) : Up (onRemove name s) := by
  rw [Heartbeats.onRemove]
  cases hn : AList.lookup name s.networks with
  | none =>
    exact h
  | some n =>
    have hother : ∀ name' n', (s.networks.erase name).lookup name' = some n' →
        name' ≠ name ∧ s.networks.lookup name' = some n' := by
      intro name' n' hn'
      by_cases heq : name' = name
      · rw [heq, AList.lookup_erase] at hn'
        cases hn'
      · rw [AList.lookup_erase_ne heq] at hn'
        exact ⟨heq, hn'⟩
    apply Up.trimDead
    · intro name' n' hn'
      obtain ⟨hne, hn'⟩ := hother name' n' hn'
      refine ⟨?_, (h.networks name' n' hn').2⟩
      intro hmem
      rcases List.mem_cons.mp hmem with heq | hmem
      · exact hne (h.distinct name' name n' n hn' hn heq)
      · exact (h.networks name' n' hn').1 hmem
    · intro name₁ name₂ n₁ n₂ h₁ h₂
      exact h.distinct name₁ name₂ n₁ n₂ (hother name₁ n₁ h₁).2 (hother name₂ n₂ h₂).2
    · intro o ho
      rcases List.mem_cons.mp ho with rfl | ho
      · exact (h.networks name n hn).2
      · exact h.removed o ho
    · exact fun id addr link o hl ho => (h.links id addr link o hl ho).2

theorem Up.onAdd (h : Up s) {name : String} {addr broadcast : List UInt8} {prefixLen : ℕ}
    (hs : onAdd name addr broadcast prefixLen s = some s') : Up s' := by
  obtain ⟨ip, -, hs⟩ := Option.bind_eq_some_iff.mp hs
  obtain rfl := Option.some.inj hs
  have hlater : ∀ o, o < s.objects → o < s.objects + 1 := fun o ho => by omega
  constructor
  · intro name' n hn
    rcases lookup_insert_eq_some hn with ⟨-, rfl⟩ | ⟨-, hn⟩
    · exact ⟨fun hmem => lt_irrefl _ (h.removed _ hmem), Nat.lt_succ_self _⟩
    · exact ⟨(h.networks name' n hn).1, hlater _ (h.networks name' n hn).2⟩
  · intro name₁ name₂ n₁ n₂ h₁ h₂ heq
    rcases lookup_insert_eq_some h₁ with ⟨rfl, rfl⟩ | ⟨-, hold₁⟩
    · rcases lookup_insert_eq_some h₂ with ⟨rfl, rfl⟩ | ⟨-, hold₂⟩
      · rfl
      · exact absurd heq.symm (h.networks name₂ n₂ hold₂).2.ne
    · rcases lookup_insert_eq_some h₂ with ⟨rfl, rfl⟩ | ⟨-, hold₂⟩
      · exact absurd heq (h.networks name₁ n₁ hold₁).2.ne
      · exact h.distinct name₁ name₂ n₁ n₂ hold₁ hold₂ heq
  · exact fun o ho => hlater o (h.removed o ho)
  · exact fun id a link o hl ho =>
      ⟨(h.links id a link o hl ho).1, hlater o (h.links id a link o hl ho).2⟩

theorem Up.onAlarm (h : Up s) (id : PeerId) (works : SocketAddress → List UInt8 → Bool) :
    Up (onAlarm id works s).1 := by
  rw [Heartbeats.onAlarm]
  split
  · exact h
  · have htrim := Up.trimDead h.networks h.distinct h.removed fun id addr link o hl ho =>
      (h.links id addr link o hl ho).2
    have hwalk : ∀ name n, (walkNetworks (Heartbeats.trimDead s)).networks.lookup name = some n →
        ∃ n', s.networks.lookup name = some n' ∧ n.object = n'.object := by
      intro name n hn
      obtain ⟨n', hn', heq⟩ := lookup_sift_eq_some.mp hn
      exact ⟨n', hn', by rw [← Option.some.inj heq]⟩
    constructor
    · intro name n hn
      obtain ⟨n', hn', heq⟩ := hwalk name n hn
      rw [heq]
      exact h.networks name n' hn'
    · intro name₁ name₂ n₁ n₂ h₁ h₂ heq
      obtain ⟨n₁', h₁', heq₁⟩ := hwalk name₁ n₁ h₁
      obtain ⟨n₂', h₂', heq₂⟩ := hwalk name₂ n₂ h₂
      exact h.distinct name₁ name₂ n₁' n₂' h₁' h₂' (by rw [← heq₁, ← heq₂, heq])
    · exact h.removed
    · exact htrim.links

end Interfaces

section Runs

variable {heap : Heap} {uptime : PeerId → ℕ} {w w' : World}

end Runs

section Lasting

/-- A device has a link to another one, with a broadcast that it heard at that time or later. -/
def HeardSince (s : Device) (p : PeerId) (addr : SocketAddress) (t : ℤ) : Prop :=
  ∃ link, HasLink s p addr link ∧ t ≤ link.lastHeardBroadcast

variable {heap : Heap} {s s' : Device} {p : PeerId} {addr : SocketAddress} {t : ℤ}

theorem HeardSince.createPeer (h : HeardSince s p addr t) {myId id : PeerId}
    (hs : createPeer myId id s = some s') :
    HeardSince s' p addr t := by
  obtain ⟨link, ⟨peer, hpeer, hlink⟩, ht⟩ := h
  refine ⟨link, ⟨peer, ?_, hlink⟩, ht⟩
  rw [Heartbeats.createPeer] at hs
  split at hs
  · cases hs
  · cases hnone : AList.lookup id s.peers with
    | some _ =>
      rw [hnone] at hs
      obtain rfl := Option.some.inj hs
      exact hpeer
    | none =>
      rw [hnone] at hs
      obtain rfl := Option.some.inj hs
      have hne : p ≠ id := by
        rintro rfl
        rw [hnone] at hpeer
        cases hpeer
      exact (AList.lookup_insert_ne hne).trans hpeer

/-- A change of one peer that does not take the broadcasts of its links back. -/
theorem HeardSince.modify (h : HeardSince s p addr t) (id : PeerId) (f : Peer → Peer)
    (hf : ∀ peer link, peer.networkLinks.lookup addr = some link → t ≤ link.lastHeardBroadcast →
      ∃ link', (f peer).networkLinks.lookup addr = some link' ∧ t ≤ link'.lastHeardBroadcast) :
    HeardSince { s with peers := modify id f s.peers } p addr t := by
  obtain ⟨link, ⟨peer, hpeer, hlink⟩, ht⟩ := h
  by_cases hid : p = id
  · subst hid
    obtain ⟨link', hlink', ht'⟩ := hf peer link hlink ht
    refine ⟨link', ⟨f peer, ?_, hlink'⟩, ht'⟩
    dsimp only
    rw [lookup_modify, hpeer]
    rfl
  · exact ⟨link, ⟨peer, (lookup_modify_of_ne hid).trans hpeer, hlink⟩, ht⟩

theorem HeardSince.process (myId : PeerId) (network : Option ℕ) (a : SocketAddress)
    (messages : List Message)
    (peer : Option PeerId) (h : HeardSince s p addr t) (ht : t ≤ s.elapsedRealtime) :
    HeardSince (process myId network a messages peer s) p addr t := by
  induction messages generalizing peer s with
  | nil => exact h
  | cons m rest ih =>
    cases m with
    | header id unicast seq =>
      rw [Heartbeats.process]
      cases hs' : Heartbeats.createPeer myId id s with
      | none =>
        exact h
      | some s' =>
        have htime := (createPeer_fields hs').1
        refine ih (some id) ((h.createPeer hs').modify id _ ?_) (ht.trans htime.ge)
        intro peer link hlink hlast
        by_cases haddr : addr = a
        · subst haddr
          refine ⟨_, AList.lookup_insert _, ?_⟩
          rw [hlink, Option.getD_some]
          cases unicast with
          | false => exact ht.trans htime.ge
          | true => exact hlast
        · exact ⟨link, (AList.lookup_insert_ne haddr).trans hlink, hlast⟩
    | ack links =>
      cases peer with
      | none => exact ih none h ht
      | some id =>
        refine ih (some id) (h.modify id _ ?_) ht
        intro peer link hlink hlast
        by_cases haddr : addr = a
        · subst haddr
          refine ⟨_, lookup_modify.trans (congrArg _ hlink), ?_⟩
          rw [(@processAck_spec myId s.elapsedRealtime links link).1.2.2.2.1]
          exact hlast
        · exact ⟨link, (lookup_modify_of_ne haddr).trans hlink, hlast⟩
    | stun addresses => exact ih peer h ht
    | _ => exact ih peer h ht

theorem HeardSince.read (myId : PeerId) (network : Option ℕ) (a : SocketAddress)
    (bytes : List UInt8) (h : HeardSince s p addr t) (ht : t ≤ s.elapsedRealtime) :
    HeardSince (read heap myId network a bytes s) p addr t := by
  rw [Heartbeats.read]
  split
  · exact h
  · exact h.process myId network a _ none ht

/-- A link is not dead while the broadcast is no older than 30 seconds. -/
theorem HeardSince.trimDead (h : HeardSince s p addr t) (hup : Up s)
    (hrecent : s.elapsedRealtime - t ≤ HEARTBEAT_MS * 6) : HeardSince (trimDead s) p addr t := by
  obtain ⟨link, hlink, ht⟩ := h
  refine ⟨link, hasLink_trimDead.mpr ⟨hlink, ?_⟩, ht⟩
  rw [Device.gone, Bool.or_eq_false_iff, PeerSocketLink.isDead, decide_eq_false_iff_not]
  constructor
  · omega
  · cases hnetwork : link.network with
    | none => rfl
    | some o => simpa using (hup.links p addr link o hlink hnetwork).1

end Lasting

section Steps

variable {heap : Heap} {uptime : PeerId → ℕ} {w w' : World} {q p : PeerId}
    {addr : SocketAddress} {t : ℤ}

end Steps

section Answers

variable {heap : Heap} {s : Device} {q p : PeerId}

end Answers

section Results

variable {heap : Heap} {uptime : PeerId → ℕ} {w : World}

end Results

end Succinct.Handshakes
