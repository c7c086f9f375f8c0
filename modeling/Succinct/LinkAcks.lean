import Mathlib.Logic.Relation
import Succinct.Heartbeats
import Succinct.MessageRoundTrip

/-!
Devices that send heartbeats to each other. Datagrams are lost, delayed, repeated and
overtaken, and come from any address; what a device acknowledges in one of them it heard
nevertheless, and what it takes for acknowledged the other one heard.
-/
namespace Succinct.LinkAcks

open ByteBuffers Messages MessageWrites MessageRoundTrip Datagrams WalkedMaps Heartbeats

structure Datagram where
  sender : PeerId
  time : ℤ
  dest : SocketAddress
  bytes : List UInt8

/-- The time is that of the receiver, that of a datagram the one of its sender. -/
structure Delivery where
  receiver : PeerId
  time : ℤ
  datagram : Datagram

/-- A device is known by its id. The last two fields are the history. -/
structure World where
  devices : PeerId → Device
  sent : List Datagram
  delivered : List Delivery

def World.start (uptime : PeerId → ℕ) : World := ⟨fun id => Device.start (uptime id), [], []⟩

def World.set (w : World) (id : PeerId) (s : Device) : World :=
  { w with devices := Function.update w.devices id s }

structure Rewalked (s s' : Device) : Prop where
  fields : s'.elapsedRealtime = s.elapsedRealtime ∧ s'.removed = s.removed ∧
    s'.objects = s.objects ∧ s'.seq = s.seq ∧ s'.state = s.state
  networks : s'.networks.entries.Perm s.networks.entries
  stunProbes : s'.stunProbes.Perm s.stunProbes
  peers : ∀ id, Option.Rel (fun p p' => p'.connection = p.connection ∧
    p'.networkLinks.entries.Perm p.networkLinks.entries) (s.peers.lookup id) (s'.peers.lookup id)

def sentBy (id : PeerId) (s : Device)
    (works : SocketAddress → List UInt8 → Bool) : List Datagram :=
  (onAlarm id works s).2.map fun p => ⟨id, s.elapsedRealtime, p.1, p.2⟩

def World.alarm (w : World) (id : PeerId) (works : SocketAddress → List UInt8 → Bool) : World :=
  { w.set id (onAlarm id works (w.devices id)).1
    with sent := sentBy id (w.devices id) works ++ w.sent }

def World.deliver (heap : Heap) (w : World) (id : PeerId) (d : Datagram)
    (addr : SocketAddress) : World :=
  { w.set id (read heap id (receiveInterface (w.devices id) addr) addr d.bytes
    (w.devices id)) with
    delivered := ⟨id, (w.devices id).elapsedRealtime, d⟩ :: w.delivered }

inductive Next (heap : Heap) (w : World) : World → Prop where
  | tick (ms : ℕ) : Next heap w { w with devices := fun id =>
      { w.devices id with elapsedRealtime := (w.devices id).elapsedRealtime + ms } }
  | alarm (id : PeerId) (works : SocketAddress → List UInt8 → Bool) :
    Next heap w (w.alarm id works)
  | deliver (id : PeerId) (d : Datagram) (hd : d ∈ w.sent) (addr : SocketAddress) : Next heap w
      (w.deliver heap id d addr)
  /-- a datagram of a Stun server -/
  | stun (id : PeerId) (addr : SocketAddress) (bytes : List UInt8)
      (hstun : ∀ m ∈ messagesIn heap (bytes.take Datagrams.MTU), ∃ addresses,
        m = .stun addresses) : Next heap w
      (w.set id (read heap id (receiveInterface (w.devices id) addr) addr bytes (w.devices id)))
  | add (id : PeerId) (name : String) (addr broadcast : List UInt8) (prefixLen : ℕ) {s : Device}
      (hs : onAdd name addr broadcast prefixLen (w.devices id) = some s) :
        Next heap w (w.set id s)
  | remove (id : PeerId) (name : String) : Next heap w (w.set id (onRemove name (w.devices id)))
  /-- a connection with a device, which may be a new one -/
  | connect (id peer : PeerId) {s : Device} (hs : createPeer id peer (w.devices id) = some s) :
    Next heap w
      (w.set id { s with peers := modify peer (fun p => { p with connection := true }) s.peers })
  | disconnect (id peer : PeerId) : Next heap w
      (w.set id { w.devices id with peers := modify peer (fun p =>
        { p with connection := false }) (w.devices id).peers })
  | store (id : PeerId) (state : Option (PeerId × (Fin 32 → UInt8))) : Next heap w
      (w.set id { w.devices id with state := state })
  | rewalk (id : PeerId) {s : Device} (hs : Rewalked (w.devices id) s) : Next heap w (w.set id s)

def Reachable (heap : Heap) (uptime : PeerId → ℕ) (w : World) : Prop :=
  Relation.ReflTransGen (Next heap) (World.start uptime) w

section Links

def HasLink (s : Device) (id : PeerId) (addr : SocketAddress) (link : PeerSocketLink) : Prop :=
  ∃ p, s.peers.lookup id = some p ∧ p.networkLinks.lookup addr = some link

variable {s : Device} {id : PeerId} {addr : SocketAddress} {link : PeerSocketLink}

theorem mem_links : (id, addr, link) ∈ s.links ↔ HasLink s id addr link := by
  rw [Device.links, List.mem_flatMap]
  constructor
  · rintro ⟨⟨id', p⟩, hp, hmem⟩
    obtain ⟨⟨addr', link'⟩, hlink, heq⟩ := List.mem_map.mp hmem
    cases heq
    exact ⟨p, mem_entries.mp hp, mem_entries.mp hlink⟩
  · rintro ⟨p, hp, hlink⟩
    exact ⟨⟨id, p⟩, mem_entries.mpr hp,
      List.mem_map.mpr ⟨⟨addr, link⟩, mem_entries.mpr hlink, rfl⟩⟩

/-- What checkLinks keeps is heard and has its interface. -/
theorem hasLink_trimDead : HasLink (trimDead s) id addr link ↔
    HasLink s id addr link ∧ s.gone link = false := by
  constructor
  · rintro ⟨p, hp, hlink⟩
    obtain ⟨p', hp', hkept⟩ := lookup_sift_eq_some.mp hp
    split at hkept
    · obtain rfl := Option.some.inj hkept
      obtain ⟨link', hlink', hgone⟩ := lookup_sift_eq_some.mp hlink
      split at hgone
      · cases hgone
      · obtain rfl := Option.some.inj hgone
        exact ⟨⟨p', hp', hlink'⟩, Bool.eq_false_iff.mpr ‹_›⟩
    · cases hkept
  · rintro ⟨⟨p, hp, hlink⟩, hgone⟩
    have hlink' : (checkLinks s p).networkLinks.lookup addr = some link :=
      lookup_sift_eq_some.mpr ⟨link, hlink, by rw [hgone]; rfl⟩
    refine ⟨checkLinks s p, lookup_sift_eq_some.mpr ⟨p, hp, ?_⟩, hlink'⟩
    rw [if_pos]
    have hne : (checkLinks s p).networkLinks.entries ≠ [] := by
      intro hnil
      rw [entries_eq_nil_iff.mp hnil] at hlink'
      cases hlink'
    rw [Peer.isAlive, Bool.or_eq_true]
    right
    simpa using hne

theorem createPeer_spec {myId : PeerId} {s' : Device} (h : createPeer myId id s = some s') :
    myId ≠ id ∧ s'.elapsedRealtime = s.elapsedRealtime ∧
    (∀ i, i ≠ id → s'.peers.lookup i = s.peers.lookup i) ∧
      ∀ i a l, HasLink s' i a l → HasLink s i a l := by
  rw [createPeer] at h
  by_cases hne : myId = id
  · rw [if_pos hne] at h
    cases h
  · rw [if_neg hne] at h
    cases hnone : AList.lookup id s.peers with
    | some _ =>
      rw [hnone] at h
      obtain rfl := Option.some.inj h
      exact ⟨hne, rfl, fun _ _ => rfl, fun _ _ _ hl => hl⟩
    | none =>
      rw [hnone] at h
      obtain rfl := Option.some.inj h
      refine ⟨hne, rfl, fun i hi => AList.lookup_insert_ne hi, ?_⟩
      rintro i a l ⟨p, hp, hl⟩
      rcases lookup_insert_eq_some hp with ⟨rfl, rfl⟩ | ⟨-, hp⟩
      · cases hl
      · exact ⟨p, hp, hl⟩

theorem hasLink_processHeader {i : PeerId} {a : SocketAddress} {l : PeerSocketLink} {now seq : ℤ}
    {network : Option ℕ} {unicast : Bool}
    (h : HasLink
      { s with peers := modify id (processHeader now network addr unicast seq) s.peers } i a l) :
    HasLink s i a l ∨ i = id ∧ a = addr ∧
      ∃ link, (HasLink s id addr link ∨ link = { network := network }) ∧
      l = link.hear now unicast seq := by
  obtain ⟨p, hp, hl⟩ := h
  rcases lookup_modify_eq_some hp with ⟨rfl, p', hp', rfl⟩ | ⟨-, hp⟩
  · rcases lookup_insert_eq_some hl with ⟨rfl, rfl⟩ | ⟨-, hl⟩
    · refine Or.inr ⟨rfl, rfl, _, ?_, rfl⟩
      cases hlink : p'.networkLinks.lookup a with
      | none => exact Or.inr rfl
      | some link => exact Or.inl ⟨p', hp', hlink⟩
    · exact Or.inl ⟨p', hp', hl⟩
  · exact Or.inl ⟨p, hp, hl⟩

theorem hasLink_modifyLink {i : PeerId} {a : SocketAddress} {l : PeerSocketLink}
    {f : PeerSocketLink → PeerSocketLink} (h : HasLink (s.modifyLink id addr f) i a l) :
    HasLink s i a l ∨ i = id ∧ a = addr ∧ ∃ link, HasLink s id addr link ∧ l = f link := by
  obtain ⟨p, hp, hl⟩ := h
  rcases lookup_modify_eq_some hp with ⟨rfl, p', hp', rfl⟩ | ⟨-, hp⟩
  · rcases lookup_modify_eq_some hl with ⟨rfl, link, hlink, rfl⟩ | ⟨-, hl⟩
    · exact Or.inr ⟨rfl, rfl, link, ⟨p', hp', hlink⟩, rfl⟩
    · exact Or.inl ⟨p', hp', hl⟩
  · exact Or.inl ⟨p, hp, hl⟩

/-- A change of the peers that leaves their links. -/
theorem hasLink_modify {i : PeerId} {a : SocketAddress} {l : PeerSocketLink} {f : Peer → Peer}
    (hf : ∀ p, (f p).networkLinks = p.networkLinks)
    (h : HasLink { s with peers := modify id f s.peers } i a l) :
    HasLink s i a l := by
  obtain ⟨p, hp, hl⟩ := h
  rcases lookup_modify_eq_some hp with ⟨rfl, p', hp', rfl⟩ | ⟨-, hp⟩
  · rw [hf] at hl
    exact ⟨p', hp', hl⟩
  · exact ⟨p, hp, hl⟩

theorem hasLink_rewalked {s' : Device} (h : Rewalked s s') : HasLink s' id addr link ↔
    HasLink s id addr link := by
  have hrel := h.peers id
  constructor
  · rintro ⟨p', hp', hlink⟩
    rw [hp'] at hrel
    cases hp : s.peers.lookup id with
    | none =>
      rw [hp] at hrel
      cases hrel
    | some p =>
      rw [hp] at hrel
      obtain ⟨-, hperm⟩ := Option.rel_some_some.mp hrel
      exact ⟨p, hp, (AList.perm_lookup hperm).symm.trans hlink⟩
  · rintro ⟨p, hp, hlink⟩
    rw [hp] at hrel
    cases hp' : s'.peers.lookup id with
    | none =>
      rw [hp'] at hrel
      cases hrel
    | some p' =>
      rw [hp'] at hrel
      obtain ⟨-, hperm⟩ := Option.rel_some_some.mp hrel
      exact ⟨p', hp', (AList.perm_lookup hperm).trans hlink⟩

end Links

section Truth

variable (heap : Heap) (w : World)

/-- q took a header of p from a datagram of p, when its time was t. -/
def Heard (q p : PeerId) (unicast : Bool) (seq t : ℤ) : Prop :=
  ∃ δ ∈ w.delivered, δ.receiver = q ∧ δ.time = t ∧ δ.datagram ∈ w.sent ∧ δ.datagram.sender = p ∧
    (messagesIn heap δ.datagram.bytes).head? = some (.header p unicast seq)

/-- What an acknowledgement that q sent says: that it heard a broadcast in the last 15 seconds,
or a unicast in the last 30, unless q was up for no longer; and a number that it heard in the
last 30 seconds, not always the latest one. -/
structure TrueAck (q : PeerId) (time : ℤ) (a : LinkAck) : Prop where
  broadcast : a.broadcast = true → time + 1 < HEARTBEAT_MS * 3 ∨
    ∃ seq t, Heard heap w q a.id false seq t ∧ time - t < HEARTBEAT_MS * 3
  unicast : a.unicast = true → time + 1 < HEARTBEAT_MS * 6 ∨
    ∃ seq t, Heard heap w q a.id true seq t ∧ time - t < HEARTBEAT_MS * 6
  seq : ∃ unicast seq t, Heard heap w q a.id unicast seq t ∧ time - t ≤ HEARTBEAT_MS * 6 ∧
    a.seq = asShort seq.toNat

/-- A datagram is empty, or begins with the header of its sender, and its acknowledgements
are true. -/
structure Honest (d : Datagram) : Prop where
  short : d.bytes.length ≤ Datagrams.MTU
  messages : messagesIn heap d.bytes = [] ∨ ∃ unicast seq rest,
    messagesIn heap d.bytes = .header d.sender unicast seq :: rest ∧ 0 ≤ seq ∧ seq < 0x10000 ∧
      ∀ m ∈ rest, (∃ links, m = .ack links ∧ ∀ a ∈ links, TrueAck heap w d.sender d.time a) ∨
        ∃ team key, m = .storeState team key

def Acked (q p : PeerId) (link : PeerSocketLink) : Prop :=
  link.ackedBroadcast = false ∧ link.ackedUnicast = false ∨
    ∃ δ ∈ w.delivered, δ.receiver = q ∧ δ.time = link.lastAckTime ∧ δ.datagram ∈ w.sent ∧
      δ.datagram.sender = p ∧
      ∃ links, .ack links ∈ messagesIn heap δ.datagram.bytes ∧ ∃ a ∈ links, a.id = q ∧
        a.broadcast = link.ackedBroadcast ∧ a.unicast = link.ackedUnicast ∧
          a.seq = link.lastAckSeq

structure LinkOk (q p : PeerId) (now : ℤ) (link : PeerSocketLink) : Prop where
  broadcast : link.lastHeardBroadcast = -1 ∨
    ∃ seq, Heard heap w q p false seq link.lastHeardBroadcast
  unicast : link.lastHeardUnicast = -1 ∨ ∃ seq, Heard heap w q p true seq link.lastHeardUnicast
  latest : link.lastHeard = max link.lastHeardBroadcast link.lastHeardUnicast ∧
    link.lastHeard ≤ now
  seq : 0 ≤ link.lastHeardSeq ∧ link.lastHeardSeq < 0x10000 ∧
    ∃ unicast, Heard heap w q p unicast link.lastHeardSeq link.lastHeard
  acked : Acked heap w q p link

structure DeviceOk (q : PeerId) (s : Device) : Prop where
  elapsed : 0 ≤ s.elapsedRealtime
  others : s.peers.lookup q = none
  links : ∀ p addr link, HasLink s p addr link → LinkOk heap w q p s.elapsedRealtime link

structure WorldOk : Prop where
  devices : ∀ q, DeviceOk heap w q (w.devices q)
  sent : ∀ d ∈ w.sent, Honest heap w d

end Truth

section Growth

structure Grows (w w' : World) : Prop where
  sent : w.sent ⊆ w'.sent
  delivered : w.delivered ⊆ w'.delivered

variable {heap : Heap} {w w' : World} (h : Grows w w')

include h

theorem Heard.mono {q p : PeerId} {unicast : Bool} {seq t : ℤ}
    (hh : Heard heap w q p unicast seq t) :
    Heard heap w' q p unicast seq t := by
  obtain ⟨δ, hδ, hreceiver, htime, hsent, hrest⟩ := hh
  exact ⟨δ, h.delivered hδ, hreceiver, htime, h.sent hsent, hrest⟩

theorem TrueAck.mono {q : PeerId} {time : ℤ} {a : LinkAck} (ha : TrueAck heap w q time a) :
    TrueAck heap w' q time a where
  broadcast hb := (ha.broadcast hb).imp_right fun ⟨seq, t, hh, ht⟩ => ⟨seq, t, hh.mono h, ht⟩
  unicast hu := (ha.unicast hu).imp_right fun ⟨seq, t, hh, ht⟩ => ⟨seq, t, hh.mono h, ht⟩
  seq := by
    obtain ⟨unicast, seq, t, hh, ht⟩ := ha.seq
    exact ⟨unicast, seq, t, hh.mono h, ht⟩

theorem Honest.mono {d : Datagram} (hd : Honest heap w d) : Honest heap w' d where
  short := hd.short
  messages := by
    refine hd.messages.imp_right ?_
    rintro ⟨unicast, seq, rest, hmessages, hmin, hmax, hrest⟩
    refine ⟨unicast, seq, rest, hmessages, hmin, hmax, fun m hm => (hrest m hm).imp_left ?_⟩
    rintro ⟨links, rfl, hlinks⟩
    exact ⟨links, rfl, fun a ha => (hlinks a ha).mono h⟩

theorem LinkOk.mono {q p : PeerId} {now : ℤ} {link : PeerSocketLink}
    (hl : LinkOk heap w q p now link) :
    LinkOk heap w' q p now link where
  broadcast := hl.broadcast.imp_right fun ⟨seq, hh⟩ => ⟨seq, hh.mono h⟩
  unicast := hl.unicast.imp_right fun ⟨seq, hh⟩ => ⟨seq, hh.mono h⟩
  latest := hl.latest
  seq := by
    obtain ⟨hmin, hmax, unicast, hh⟩ := hl.seq
    exact ⟨hmin, hmax, unicast, hh.mono h⟩
  acked := hl.acked.imp_right fun ⟨δ, hδ, hreceiver, htime, hsent, hrest⟩ =>
    ⟨δ, h.delivered hδ, hreceiver, htime, h.sent hsent, hrest⟩

theorem DeviceOk.mono {q : PeerId} {s : Device} (hs : DeviceOk heap w q s) :
    DeviceOk heap w' q s :=
  ⟨hs.elapsed, hs.others, fun p addr link hl => (hs.links p addr link hl).mono h⟩

end Growth

section Steps

variable {heap : Heap} {w : World} {q : PeerId} {s : Device}

theorem LinkOk.later {p : PeerId} {now now' : ℤ} {link : PeerSocketLink}
    (h : LinkOk heap w q p now link) (hle : now ≤ now') : LinkOk heap w q p now' link :=
  ⟨h.broadcast, h.unicast, ⟨h.latest.1, h.latest.2.trans hle⟩, h.seq, h.acked⟩

/-- A step of a device that leaves the links it keeps as they are. -/
theorem DeviceOk.keep (h : DeviceOk heap w q s) {s' : Device}
    (helapsed : s.elapsedRealtime ≤ s'.elapsedRealtime)
    (hothers : s'.peers.lookup q = none)
    (hlinks : ∀ p addr link, HasLink s' p addr link → HasLink s p addr link) :
    DeviceOk heap w q s' :=
  ⟨h.elapsed.trans helapsed, hothers, fun p addr link hl =>
    (h.links p addr link (hlinks p addr link hl)).later helapsed⟩

theorem DeviceOk.trimDead (h : DeviceOk heap w q s) : DeviceOk heap w q (trimDead s) := by
  refine h.keep le_rfl ?_ fun p addr link hl => (hasLink_trimDead.mp hl).1
  cases hq : (Heartbeats.trimDead s).peers.lookup q with
  | none => rfl
  | some p =>
    obtain ⟨p', hp', -⟩ := lookup_sift_eq_some.mp hq
    rw [h.others] at hp'
    cases hp'

theorem DeviceOk.createPeer (h : DeviceOk heap w q s) {id : PeerId} {s' : Device}
    (hs : createPeer q id s = some s') : DeviceOk heap w q s' := by
  obtain ⟨hne, helapsed, hothers, hlinks⟩ := createPeer_spec hs
  exact h.keep helapsed.ge ((hothers q hne).trans h.others) hlinks

/-- A header that was delivered just now. -/
theorem DeviceOk.hear (h : DeviceOk heap w q s) {id : PeerId} {addr : SocketAddress}
    {unicast : Bool} {seq : ℤ}
    (network : Option ℕ) (hheard : Heard heap w q id unicast seq s.elapsedRealtime)
    (hmin : 0 ≤ seq) (hmax : seq < 0x10000) :
    DeviceOk heap w q { s with peers := modify id (processHeader s.elapsedRealtime
      network addr unicast seq) s.peers } := by
  refine ⟨h.elapsed, lookup_modify_eq_none h.others, ?_⟩
  intro p a l hl
  have helapsed := h.elapsed
  rcases hasLink_processHeader hl with hold | ⟨rfl, rfl, link, hlink, rfl⟩
  · exact h.links p a l hold
  · have hbefore : (link.lastHeardBroadcast = -1 ∨
      ∃ seq, Heard heap w q p false seq link.lastHeardBroadcast) ∧
        (link.lastHeardUnicast = -1 ∨ ∃ seq, Heard heap w q p true seq link.lastHeardUnicast) ∧
        max link.lastHeardBroadcast link.lastHeardUnicast ≤ s.elapsedRealtime ∧
          Acked heap w q p link := by
      rcases hlink with hlink | rfl
      · have hok := h.links p a link hlink
        exact ⟨hok.broadcast, hok.unicast, hok.latest.1 ▸ hok.latest.2, hok.acked⟩
      · refine ⟨Or.inl rfl, Or.inl rfl, ?_, Or.inl ⟨rfl, rfl⟩⟩
        change max (-1 : ℤ) (-1) ≤ s.elapsedRealtime
        omega
    obtain ⟨hbroadcast, hunicast, hle, hacked⟩ := hbefore
    cases unicast with
    | false =>
      refine ⟨Or.inr ⟨seq, hheard⟩, hunicast, ⟨?_, le_rfl⟩, ⟨hmin, hmax, false, hheard⟩, hacked⟩
      change s.elapsedRealtime = max s.elapsedRealtime link.lastHeardUnicast
      omega
    | true =>
      refine ⟨hbroadcast, Or.inr ⟨seq, hheard⟩, ⟨?_, le_rfl⟩, ⟨hmin, hmax, true, hheard⟩, hacked⟩
      change s.elapsedRealtime = max link.lastHeardBroadcast s.elapsedRealtime
      omega

theorem processAck_cons (now : ℤ) (a : LinkAck) (links : List LinkAck) (link : PeerSocketLink) :
    processAck q now (a :: links) link =
      processAck q now links (if a.id = q then link.acked now a else link) := rfl

/-- Only what is remembered of acknowledgements changes. -/
theorem processAck_spec (now : ℤ) (links : List LinkAck) (link : PeerSocketLink) :
    let link' := processAck q now links link
    (link'.lastHeard = link.lastHeard ∧ link'.lastHeardSeq = link.lastHeardSeq ∧
      link'.lastHeardUnicast = link.lastHeardUnicast ∧
      link'.lastHeardBroadcast = link.lastHeardBroadcast ∧
        link'.network = link.network) ∧
      (link' = link ∨ link'.lastAckTime = now ∧ ∃ a ∈ links, a.id = q ∧
        a.broadcast = link'.ackedBroadcast ∧
        a.unicast = link'.ackedUnicast ∧ a.seq = link'.lastAckSeq) := by
  induction links generalizing link with
  | nil => exact ⟨⟨rfl, rfl, rfl, rfl, rfl⟩, Or.inl rfl⟩
  | cons a links ih =>
    rw [processAck_cons]
    by_cases hid : a.id = q
    · rw [if_pos hid]
      obtain ⟨⟨h1, h2, h3, h4, h5⟩, hcases⟩ := ih (link.acked now a)
      refine ⟨⟨h1, h2, h3, h4, h5⟩, Or.inr ?_⟩
      rcases hcases with hsame | ⟨htime, b, hb, hrest⟩
      · rw [hsame]
        exact ⟨rfl, a, List.mem_cons_self .., hid, rfl, rfl, rfl⟩
      · exact ⟨htime, b, List.mem_cons_of_mem _ hb, hrest⟩
    · rw [if_neg hid]
      obtain ⟨hfields, hcases⟩ := ih link
      exact ⟨hfields, hcases.imp_right fun ⟨htime, b, hb, hrest⟩ =>
        ⟨htime, b, List.mem_cons_of_mem _ hb, hrest⟩⟩

/-- An acknowledgement in a datagram that was delivered just now. -/
theorem DeviceOk.ack (h : DeviceOk heap w q s) {δ : Delivery} (hδ : δ ∈ w.delivered)
    (hreceiver : δ.receiver = q)
    (htime : δ.time = s.elapsedRealtime) (hsent : δ.datagram ∈ w.sent) (addr : SocketAddress)
    {links : List LinkAck} (hlinks : .ack links ∈ messagesIn heap δ.datagram.bytes) :
    DeviceOk heap w q (s.modifyLink δ.datagram.sender addr
      (processAck q s.elapsedRealtime links)) := by
  refine ⟨h.elapsed, lookup_modify_eq_none h.others, ?_⟩
  intro p a l hl
  rcases hasLink_modifyLink hl with hold | ⟨rfl, rfl, link, hlink, rfl⟩
  · exact h.links p a l hold
  · have hok := h.links _ a link hlink
    obtain ⟨⟨h1, h2, h3, h4, -⟩, hcases⟩ := processAck_spec (q := q) s.elapsedRealtime links link
    refine ⟨?_, ?_, ?_, ?_, ?_⟩
    · rw [h4]
      exact hok.broadcast
    · rw [h3]
      exact hok.unicast
    · rw [h1, h3, h4]
      exact hok.latest
    · rw [h1, h2]
      exact hok.seq
    · rcases hcases with hsame | ⟨hnow, hfrom⟩
      · rw [hsame]
        exact hok.acked
      · exact Or.inr ⟨δ, hδ, hreceiver, htime.trans hnow.symm, hsent, rfl, links, hlinks, hfrom⟩

/-- The messages behind the header. -/
theorem DeviceOk.processRest {δ : Delivery} (hδ : δ ∈ w.delivered) (hreceiver : δ.receiver = q)
    (hsent : δ.datagram ∈ w.sent) (network : Option ℕ) (addr : SocketAddress)
    (rest : List Message) (hrest : ∀ m ∈ rest, m ∈ messagesIn heap δ.datagram.bytes ∧
      ((∃ links, m = .ack links) ∨ ∃ team key, m = .storeState team key))
    (h : DeviceOk heap w q s) (htime : δ.time = s.elapsedRealtime) :
    DeviceOk heap w q (process q network addr rest (some δ.datagram.sender) s) := by
  induction rest generalizing s with
  | nil => exact h
  | cons m rest ih =>
    have hnext := fun {s : Device} => ih (s := s) fun x hx => hrest x (List.mem_cons_of_mem _ hx)
    obtain ⟨hm, ⟨links, rfl⟩ | ⟨team, key, rfl⟩⟩ := hrest m (List.mem_cons_self ..)
    · exact hnext (h.ack hδ hreceiver htime hsent addr hm) htime
    · exact hnext h htime

/-- A datagram that was delivered just now. -/
theorem DeviceOk.read {δ : Delivery} (hδ : δ ∈ w.delivered) (hreceiver : δ.receiver = q)
    (hsent : δ.datagram ∈ w.sent)
    (hhonest : Honest heap w δ.datagram) (network : Option ℕ) (addr : SocketAddress)
    (h : DeviceOk heap w q s) (htime : δ.time = s.elapsedRealtime) :
    DeviceOk heap w q (read heap q network addr δ.datagram.bytes s) := by
  rw [Heartbeats.read, List.take_of_length_le hhonest.short]
  split
  · exact h
  · rcases hhonest.messages with hnone | ⟨unicast, seq, rest, hmessages, hmin, hmax, hrest⟩
    · rw [hnone]
      exact h
    · rw [hmessages, process]
      cases hs' : Heartbeats.createPeer q δ.datagram.sender s with
      | none =>
        exact h
      | some s' =>
        have hpeer := h.createPeer hs'
        have helapsed := (createPeer_spec hs').2.1
        have hheard : Heard heap w q δ.datagram.sender unicast seq s'.elapsedRealtime := by
          refine ⟨δ, hδ, hreceiver, htime.trans helapsed.symm, hsent, rfl, ?_⟩
          rw [hmessages]
          rfl
        refine DeviceOk.processRest hδ hreceiver hsent network addr rest ?_
          (hpeer.hear network hheard hmin hmax) (htime.trans helapsed.symm)
        intro m hm
        rw [hmessages]
        refine ⟨List.mem_cons_of_mem _ hm, (hrest m hm).imp_left ?_⟩
        rintro ⟨links, rfl, -⟩
        exact ⟨links, rfl⟩

/-- A datagram without headers adds to the addresses that will be probed. -/
theorem DeviceOk.stun (network : Option ℕ) (addr : SocketAddress) (messages : List Message)
    (hstun : ∀ m ∈ messages, ∃ addresses, m = .stun addresses) (h : DeviceOk heap w q s) :
    DeviceOk heap w q (process q network addr messages none s) := by
  induction messages generalizing s with
  | nil => exact h
  | cons m rest ih =>
    obtain ⟨addresses, rfl⟩ := hstun m (List.mem_cons_self ..)
    exact ih (fun x hx => hstun x (List.mem_cons_of_mem _ hx))
      (h.keep le_rfl h.others fun _ _ _ hl => hl)

end Steps

section Alarm

variable {heap : Heap} {w : World} {q : PeerId} {s : Device}

/-- What is said of a link that is not dead, as it is read. -/
theorem trueAck_linkAck {p : PeerId} {link : PeerSocketLink}
    (h : LinkOk heap w q p s.elapsedRealtime link) (hgone : s.gone link = false) :
    TrueAck heap w q s.elapsedRealtime (LinkAck.received (linkAck s.elapsedRealtime p link)) := by
  obtain ⟨hmin, hmax, unicast, hheard⟩ := h.seq
  refine ⟨?_, ?_, unicast, link.lastHeardSeq, link.lastHeard, hheard, ?_, ?_⟩
  · intro hb
    have hrecent : s.elapsedRealtime - link.lastHeardBroadcast < HEARTBEAT_MS * 3 :=
      of_decide_eq_true hb
    rcases h.broadcast with hnever | ⟨seq, hbroadcast⟩
    · left
      omega
    · exact Or.inr ⟨seq, _, hbroadcast, hrecent⟩
  · intro hu
    have hrecent : s.elapsedRealtime - link.lastHeardUnicast < HEARTBEAT_MS * 6 :=
      of_decide_eq_true hu
    rcases h.unicast with hnever | ⟨seq, hunicast⟩
    · left
      omega
    · exact Or.inr ⟨seq, _, hunicast, hrecent⟩
  · rw [Device.gone, Bool.or_eq_false_iff, PeerSocketLink.isDead,
      decide_eq_false_iff_not] at hgone
    rw [h.latest.1]
    omega
  · have hnumber : (LinkAck.received (linkAck s.elapsedRealtime p link)).seq =
        if 0 ≤ link.lastHeardSeq then asShort (link.lastHeardSeq.toNat % 0x10000) else -1 := rfl
    rw [hnumber, if_pos hmin, Nat.mod_eq_of_lt (by omega)]

theorem mem_sendAll {works : SocketAddress → List UInt8 → Bool} {bytes : List UInt8}
    {dests : List SocketAddress}
    {x : SocketAddress × List UInt8} (hx : x ∈ sendAll works bytes dests) :
    x.2 = bytes ∨ x.2 = [] := by
  induction dests generalizing bytes with
  | nil => cases hx
  | cons dest rest ih =>
    rw [sendAll] at hx
    split at hx
    · rcases List.mem_cons.mp hx with rfl | hx
      · exact Or.inl rfl
      · exact Or.inr (or_self_iff.mp (ih hx))
    · exact ih hx

theorem messagesIn_nil : messagesIn heap [] = [] := messagesIn_reads .nil

/-- A heartbeat whose acknowledgements are of links that the device has. -/
theorem honest_assemble (h : DeviceOk heap w q s) (unicast : Bool) (seq : ℕ) (rest : List Message)
    (hrest : ∀ m ∈ rest, (∃ links, m = .ack links ∧ ∀ a ∈ links, ∃ p addr link,
      HasLink s p addr link ∧
      s.gone link = false ∧ a = linkAck s.elapsedRealtime p link) ∨ ∃ team key,
      m = .storeState team key)
    (dest : SocketAddress) :
    Honest heap w ⟨q, s.elapsedRealtime, dest,
      assemble (.header q unicast (seq % 0x10000 : ℕ) :: rest)⟩ := by
  have hheartbeat : ∀ m ∈ rest, OfHeartbeat m := by
    intro m hm
    rcases hrest m hm with ⟨links, rfl, -⟩ | ⟨team, key, rfl⟩
    · trivial
    · trivial
  obtain ⟨after, hmessages, hfrom⟩ :=
    @assemble_header heap q unicast (seq % 0x10000 : ℕ) (by omega) (by omega) rest
    hheartbeat
  refine ⟨length_assemble _, Or.inr ⟨unicast, _, after, hmessages, by omega, by omega, ?_⟩⟩
  intro m' hm'
  obtain ⟨m, hm, room, rfl⟩ := hfrom m' hm'
  rcases hrest m hm with ⟨links, rfl, hlinks⟩ | ⟨team, key, rfl⟩
  · refine Or.inl ⟨_, rfl, ?_⟩
    intro a ha
    obtain ⟨b, hb, rfl⟩ := List.mem_map.mp ha
    obtain ⟨p, addr, link, hlink, hgone, rfl⟩ := hlinks b ((kept_sublist room 0 links).subset hb)
    exact trueAck_linkAck (h.links p addr link hlink) hgone
  · exact Or.inr ⟨team, key, rfl⟩

theorem mem_stateMessages {m : Message} (hm : m ∈ stateMessages s) :
    ∃ team key, m = .storeState team key := by
  obtain ⟨⟨team, key⟩, -, rfl⟩ := List.mem_map.mp hm
  exact ⟨team, key, rfl⟩

theorem honest_empty (dest : SocketAddress) : Honest heap w ⟨q, s.elapsedRealtime, dest, []⟩ :=
  ⟨Nat.zero_le _, Or.inl messagesIn_nil⟩

/-- All that a device sends at an alarm. -/
theorem honest_sentBy (h : DeviceOk heap w q s)
    (works : SocketAddress → List UInt8 → Bool) {d : Datagram}
    (hd : d ∈ sentBy q s works) : Honest heap w d := by
  obtain ⟨⟨dest, bytes⟩, hsent, rfl⟩ := List.mem_map.mp hd
  rw [onAlarm] at hsent
  split at hsent
  · cases hsent
  · have hok : DeviceOk heap w q (walkNetworks (trimDead s)) :=
      h.trimDead.keep le_rfl h.trimDead.others fun _ _ _ hl => hl
    have hkept : ∀ p addr link, HasLink (walkNetworks (trimDead s)) p addr link →
        (walkNetworks (trimDead s)).gone link = false := fun p addr link hl =>
          (hasLink_trimDead.mp hl).2
    have htime : (walkNetworks (trimDead s)).elapsedRealtime = s.elapsedRealtime := rfl
    generalize walkNetworks (trimDead s) = s' at hsent hok hkept htime
    rw [← htime]
    dsimp only at hsent
    rcases List.mem_append.mp hsent with hsent | hprobe
    · rcases List.mem_append.mp hsent with hbroadcast | hunicast
      · rcases mem_sendAll hbroadcast with rfl | rfl
        · refine honest_assemble hok false s'.seq _ ?_ dest
          intro m hm
          rcases List.mem_append.mp hm with hm | hm
          · split at hm
            · cases hm
            · obtain rfl := List.mem_singleton.mp hm
              refine Or.inl ⟨_, rfl, ?_⟩
              intro a ha
              obtain ⟨⟨p, addr, link⟩, hl, rfl⟩ := List.mem_map.mp ha
              exact ⟨p, addr, link, mem_links.mp hl, hkept p addr link (mem_links.mp hl), rfl⟩
          · exact Or.inr (mem_stateMessages hm)
        · exact honest_empty dest
      · obtain ⟨⟨p, peer⟩, hp, hunicast⟩ := List.mem_flatMap.mp hunicast
        split at hunicast
        case h_1 =>
          cases hunicast
        case h_2 addr link hack =>
          rcases mem_sendAll hunicast with rfl | rfl
          · refine honest_assemble hok true s'.seq _ ?_ dest
            intro m hm
            rcases List.mem_cons.mp hm with rfl | hm
            · refine Or.inl ⟨_, rfl, ?_⟩
              intro a ha
              obtain rfl := List.mem_singleton.mp ha
              have hl : HasLink s' p addr link := by
                rw [sendUnicastAck] at hack
                split at hack
                · cases hack
                · obtain ⟨⟨addr', link'⟩, hlast, heq⟩ := Option.map_eq_some_iff.mp hack
                  cases heq
                  exact ⟨peer, mem_entries.mp hp, mem_entries.mp (List.mem_of_getLast? hlast)⟩
              exact ⟨p, addr, link, hl, hkept p addr link hl, rfl⟩
            · exact Or.inr (mem_stateMessages hm)
          · exact honest_empty dest
    · have hbytes : bytes = _ ∨ bytes = [] := mem_sendAll hprobe
      rcases hbytes with hbytes | rfl
      · have hprobe := honest_assemble hok true s'.seq [] (by simp) dest
        rw [← hbytes] at hprobe
        exact hprobe
      · exact honest_empty dest

theorem DeviceOk.onAlarm (h : DeviceOk heap w q s) (works : SocketAddress → List UInt8 → Bool) :
    DeviceOk heap w q (onAlarm q works s).1 := by
  rw [Heartbeats.onAlarm]
  split
  · exact h
  · exact h.trimDead.keep le_rfl h.trimDead.others fun _ _ _ hl => hl

end Alarm

section Runs

variable {heap : Heap} {uptime : PeerId → ℕ} {w w' : World}

/-- One device takes a step. -/
theorem WorldOk.set (h : WorldOk heap w) (hgrows : Grows w w') (id : PeerId) {s : Device}
    (hdevices : w'.devices = Function.update w.devices id s) (hs : DeviceOk heap w' id s)
    (hsent : ∀ d ∈ w'.sent, d ∈ w.sent ∨ Honest heap w' d) : WorldOk heap w' := by
  constructor
  · intro q
    rw [hdevices]
    by_cases hq : q = id
    · subst hq
      rw [Function.update_self]
      exact hs
    · rw [Function.update_of_ne hq]
      exact (h.devices q).mono hgrows
  · intro d hd
    rcases hsent d hd with hold | hnew
    · exact (h.sent d hold).mono hgrows
    · exact hnew

/-- A step that sends and delivers nothing. -/
theorem WorldOk.quiet (h : WorldOk heap w) (id : PeerId) {s : Device}
    (hs : DeviceOk heap w id s) :
    WorldOk heap (w.set id s) := by
  have hgrows : Grows w (w.set id s) := ⟨List.Subset.refl _, List.Subset.refl _⟩
  exact h.set hgrows id rfl (hs.mono hgrows) fun _ hd => Or.inl hd

theorem next_ok (h : WorldOk heap w) (hnext : Next heap w w') : WorldOk heap w' := by
  have hgrows : Grows w w' := by
    cases hnext with
    | alarm id works => exact ⟨List.subset_append_right _ _, List.Subset.refl _⟩
    | deliver id d hd addr => exact ⟨List.Subset.refl _, List.subset_cons_self _ _⟩
    | _ => exact ⟨List.Subset.refl _, List.Subset.refl _⟩
  cases hnext with
  | tick ms =>
    refine ⟨fun q => DeviceOk.mono hgrows ?_, fun d hd => (h.sent d hd).mono hgrows⟩
    refine (h.devices q).keep ?_ (h.devices q).others fun _ _ _ hl => hl
    exact le_add_of_nonneg_right (Int.natCast_nonneg ms)
  | alarm id works =>
    refine h.set hgrows id rfl (((h.devices id).onAlarm works).mono hgrows) ?_
    intro d hd
    rcases List.mem_append.mp hd with hnew | hold
    · exact Or.inr ((honest_sentBy (h.devices id) works hnew).mono hgrows)
    · exact Or.inl hold
  | deliver id d hd addr =>
    refine h.set hgrows id rfl ?_ fun _ hd => Or.inl hd
    have hδ :=
      List.mem_cons_self (a := (⟨id, (w.devices id).elapsedRealtime, d⟩ : Delivery))
        (l := w.delivered)
    exact @DeviceOk.read _ _ _ _ ⟨id, (w.devices id).elapsedRealtime, d⟩ hδ rfl (hgrows.sent hd)
      ((h.sent d hd).mono hgrows) _ addr
      ((h.devices id).mono hgrows) rfl
  | stun id addr bytes hstun =>
    refine h.quiet id ?_
    rw [Heartbeats.read]
    split
    · exact h.devices id
    · exact (h.devices id).stun _ addr _ hstun
  | add id name addr broadcast prefixLen hs =>
    obtain ⟨ip, -, hs⟩ := Option.bind_eq_some_iff.mp hs
    obtain rfl := Option.some.inj hs
    exact h.quiet id ((h.devices id).keep le_rfl (h.devices id).others fun _ _ _ hl => hl)
  | remove id name =>
    refine h.quiet id ?_
    rw [onRemove]
    split
    · exact h.devices id
    · refine DeviceOk.trimDead ?_
      exact (h.devices id).keep le_rfl (h.devices id).others fun _ _ _ hl => hl
  | connect id peer hs =>
    have hpeer := (h.devices id).createPeer hs
    refine h.quiet id (hpeer.keep le_rfl (lookup_modify_eq_none hpeer.others) ?_)
    exact fun _ _ _ hl =>
      hasLink_modify (f := fun p => { p with connection := true }) (fun _ => rfl) hl
  | disconnect id peer =>
    refine h.quiet id ((h.devices id).keep le_rfl
      (lookup_modify_eq_none (h.devices id).others) ?_)
    exact fun _ _ _ hl =>
      hasLink_modify (f := fun p => { p with connection := false }) (fun _ => rfl) hl
  | store id state =>
    exact h.quiet id ((h.devices id).keep le_rfl (h.devices id).others fun _ _ _ hl => hl)
  | @rewalk id s hs =>
    refine h.quiet id ((h.devices id).keep hs.fields.1.ge ?_ fun _ _ _ hl =>
      (hasLink_rewalked hs).mp hl)
    have hrel := hs.peers id
    rw [(h.devices id).others] at hrel
    cases hlookup : s.peers.lookup id with
    | none => rfl
    | some p =>
      rw [hlookup] at hrel
      cases hrel

theorem start_ok : WorldOk heap (World.start uptime) where
  devices q := ⟨Int.natCast_nonneg _, rfl, fun p addr link ⟨_, hp, _⟩ => by cases hp⟩
  sent d hd := by cases hd

theorem reachable_ok (h : Reachable heap uptime w) : WorldOk heap w := by
  induction h with
  | refl => exact start_ok
  | tail _ hnext ih => exact next_ok ih hnext

/-- Acknowledgements are only in honest datagrams. -/
theorem sent_true (h : Reachable heap uptime w) {d : Datagram} (hd : d ∈ w.sent)
    {links : List LinkAck}
    (hlinks : .ack links ∈ messagesIn heap d.bytes) {a : LinkAck} (ha : a ∈ links) :
    TrueAck heap w d.sender d.time a := by
  rcases ((reachable_ok h).sent d hd).messages
    with hnone | ⟨unicast, seq, rest, hmessages, -, -, hrest⟩
  · rw [hnone] at hlinks
    cases hlinks
  · rw [hmessages] at hlinks
    rcases List.mem_cons.mp hlinks with hheader | hmem
    · cases hheader
    · rcases hrest _ hmem with ⟨links', heq, htrue⟩ | ⟨team, key, heq⟩
      · cases heq
        exact htrue a ha
      · cases heq

end Runs

section Pair

open MessageWrites (smallHeap)

def anne : PeerId := fun _ => 1

def bob : PeerId := fun _ => 2

def World.firstSent (w : World) : Datagram := w.sent.headD ⟨anne, 0, ⟨[], 0⟩, []⟩

def World.join (w : World) (id : PeerId) (last : UInt8) : World :=
  w.set id ((onAdd "wlan0" [192, 168, 1, last] [192, 168, 1, 255] 24 (w.devices id)).getD
    (w.devices id))

def announcedWorld : World :=
  (((World.start fun _ => 60000).join anne 2).join bob 3).alarm anne fun _ _ => true

def heardWorld : World :=
  announcedWorld.deliver smallHeap bob announcedWorld.firstSent ⟨[192, 168, 1, 2], PORT⟩

def answeredWorld : World := heardWorld.alarm bob fun _ _ => true

def ackedWorld : World :=
  answeredWorld.deliver smallHeap anne answeredWorld.firstSent ⟨[192, 168, 1, 3], PORT⟩

variable {w : World}

theorem join_next {id : PeerId} {last : UInt8}
    (h : (onAdd "wlan0" [192, 168, 1, last] [192, 168, 1, 255] 24 (w.devices id)).isSome) :
    Next smallHeap w (w.join id last) := by
  obtain ⟨s, hs⟩ := Option.isSome_iff_exists.mp h
  rw [World.join, hs, Option.getD_some]
  exact .add id _ _ _ _ hs

theorem firstSent_mem (h : w.sent.isEmpty = false) : w.firstSent ∈ w.sent := by
  rw [World.firstSent]
  cases hsent : w.sent with
  | nil =>
    rw [hsent] at h
    cases h
  | cons d rest => exact List.mem_cons_self ..

theorem announcedWorld_reachable : Reachable smallHeap (fun _ => 60000) announcedWorld := by
  have hjoined : Reachable smallHeap (fun _ => 60000)
    (((World.start fun _ => 60000).join anne 2).join bob 3) :=
    (Relation.ReflTransGen.single (join_next (by decide))).tail (join_next (by decide))
  exact hjoined.tail (.alarm anne _)

theorem announcedWorld_sent : announcedWorld.firstSent ∈ announcedWorld.sent :=
  firstSent_mem (by decide +kernel)

theorem answeredWorld_reachable : Reachable smallHeap (fun _ => 60000) answeredWorld :=
  (announcedWorld_reachable.tail
    (.deliver bob announcedWorld.firstSent announcedWorld_sent _)).tail (.alarm bob _)

theorem answeredWorld_sent : answeredWorld.firstSent ∈ answeredWorld.sent :=
  firstSent_mem (by decide +kernel)

theorem ackedWorld_reachable : Reachable smallHeap (fun _ => 60000) ackedWorld :=
  answeredWorld_reachable.tail (.deliver anne answeredWorld.firstSent answeredWorld_sent _)

theorem answeredWorld_ack :
    .ack [⟨anne, true, false, 0⟩] ∈ messagesIn smallHeap answeredWorld.firstSent.bytes := by
  have hbytes : answeredWorld.firstSent.bytes =
    assemble [.header bob false 0, .ack [⟨anne, true, false, 0⟩]] := by
    decide +kernel
  obtain ⟨after, hmessages, -⟩ :=
    @assemble_acks smallHeap bob false 0 le_rfl (by decide) [⟨anne, true, false, 0⟩]
    (by decide) [] (by simp)
  rw [hbytes, hmessages]
  exact List.mem_cons_of_mem _ (List.mem_cons_self ..)

end Pair

section Results

variable {heap : Heap} {uptime : PeerId → ℕ} {w : World}

/-- Whatever becomes of the datagrams: what a device acknowledges in one that it sent, it had
heard when it sent it. -/
theorem acks_truthful (h : Reachable heap uptime w) {d : Datagram} (hd : d ∈ w.sent)
    {links : List LinkAck}
    (hlinks : .ack links ∈ messagesIn heap d.bytes) {a : LinkAck} (ha : a ∈ links) :
    TrueAck heap w d.sender d.time a := sent_true h hd hlinks ha

theorem acks_truthful_answered : ∃ w d, d ∈ World.sent w ∧
    TrueAck MessageWrites.smallHeap w d.sender d.time ⟨anne, true, false, 0⟩ :=
  ⟨answeredWorld, answeredWorld.firstSent, answeredWorld_sent,
    acks_truthful answeredWorld_reachable answeredWorld_sent answeredWorld_ack
      (List.mem_cons_self ..)⟩

/-- A device that leaves out the heartbeat for another device alone, which it has links to, got
word from that device in the last 30 seconds that it had heard a broadcast in the 15 seconds
before, or was not up for longer. -/
theorem withheld_heard (h : Reachable heap uptime w) {q p : PeerId} {peer : Peer}
    (hpeer : (w.devices q).peers.lookup p = some peer) (hlinks : peer.networkLinks.entries ≠ [])
    (hnone : sendUnicastAck (w.devices q).elapsedRealtime peer = none) :
    q ≠ p ∧ ∃ δ ∈ w.delivered, δ.receiver = q ∧ δ.datagram ∈ w.sent ∧ δ.datagram.sender = p ∧
      (w.devices q).elapsedRealtime - δ.time < HEARTBEAT_MS * 6 ∧
        (δ.datagram.time + 1 < HEARTBEAT_MS * 3 ∨
          ∃ seq t, Heard heap w p q false seq t ∧ δ.datagram.time - t < HEARTBEAT_MS * 3) := by
  have hok := (reachable_ok h).devices q
  refine ⟨?_, ?_⟩
  · rintro rfl
    rw [hok.others] at hpeer
    cases hpeer
  rw [sendUnicastAck] at hnone
  by_cases hany : (peer.networkLinks.entries.any fun e =>
    e.snd.theyAckedBroadcast (w.devices q).elapsedRealtime) = true
  · rw [if_pos hany] at hnone
    obtain ⟨⟨addr, link⟩, hmem, hack⟩ := List.any_eq_true.mp hany
    obtain ⟨hacked, hrecent⟩ := Bool.and_eq_true_iff.mp hack
    have hlink : HasLink (w.devices q) p addr link := ⟨peer, hpeer, mem_entries.mp hmem⟩
    rcases (hok.links p addr link hlink).acked
      with ⟨hno, -⟩ | ⟨δ, hδ, hreceiver, htime, hsent, hsender, links, hlinks, a, ha, hid, hb, -⟩
    · dsimp only at hacked
      rw [hno] at hacked
      cases hacked
    · refine ⟨δ, hδ, hreceiver, hsent, hsender, ?_, ?_⟩
      · rw [htime]
        exact of_decide_eq_true hrecent
      · have htrue := (sent_true h hsent hlinks ha).broadcast (hb.trans hacked)
        rw [hid, hsender] at htrue
        exact htrue
  · rw [if_neg hany] at hnone
    have hlast := Option.map_eq_none_iff.mp hnone
    exact absurd (List.getLast?_eq_none_iff.mp hlast) hlinks

theorem withheld_heard_acked : ∃ id peer, (ackedWorld.devices anne).peers.lookup id =
    some peer ∧ anne ≠ id := by
  have hread : ((ackedWorld.devices anne).peers.entries.any fun e =>
    !e.2.networkLinks.entries.isEmpty &&
      (sendUnicastAck (ackedWorld.devices anne).elapsedRealtime e.2).isNone) = true := by
    decide +kernel
  obtain ⟨⟨id, peer⟩, hmem, hall⟩ := List.any_eq_true.mp hread
  obtain ⟨hlinks, hnone⟩ := Bool.and_eq_true_iff.mp hall
  have hpeer := mem_entries.mp hmem
  exact ⟨id, peer, hpeer, (withheld_heard ackedWorld_reachable hpeer (by simpa using hlinks)
    (by simpa using hnone)).1⟩

end Results

end Succinct.LinkAcks
