import Succinct.Datagrams
import Succinct.SubnetWalks
import Succinct.WalkedMaps

/-!
The links between devices: Networks.java with the links of Peer.java and PeerSocketLink.java.
A device announces itself in heartbeats, acknowledges in them what it heard of others, and
sends a heartbeat to one device alone until that device acknowledges the one for all. A time
is what SystemClock.elapsedRealtime gives, which stands still during one event; -1 is never.
The hash maps are walked in the order of their entries.

Left out: when the alarm is set, the names of wireless interfaces, what a connection is used
for, and what a state of a store in a heartbeat leads to.
-/
namespace Succinct.Heartbeats

open ByteBuffers Messages Datagrams SubnetWalks WalkedMaps

def PORT : ℕ := 4043

def HEARTBEAT_MS : ℤ := 5000

structure SocketAddress where
  address : List UInt8
  port : ℕ
  deriving DecidableEq

/-- The network is the object of an interface, whose flag up is what matters of it. -/
structure PeerSocketLink where
  network : Option ℕ
  lastHeard : ℤ := -1
  lastHeardSeq : ℤ := -1
  lastHeardUnicast : ℤ := -1
  lastHeardBroadcast : ℤ := -1
  lastAckTime : ℤ := -1
  lastAckSeq : ℤ := -1
  ackUnicastCount : ℕ := 0
  ackedUnicast : Bool := false
  ackBroadcastCount : ℕ := 0
  ackedBroadcast : Bool := false
  unicastPackets : ℕ := 0
  broadcastPackets : ℕ := 0
  deriving DecidableEq

namespace PeerSocketLink

variable (link : PeerSocketLink) (elapsedTime : ℤ)

def heardBroadcast : Bool := decide (elapsedTime - link.lastHeardBroadcast < HEARTBEAT_MS * 3)

def heardUnicast : Bool := decide (elapsedTime - link.lastHeardUnicast < HEARTBEAT_MS * 6)

def isDead : Bool :=
  decide (elapsedTime - max link.lastHeardBroadcast link.lastHeardUnicast > HEARTBEAT_MS * 6)

def theyAckedBroadcast : Bool :=
  link.ackedBroadcast && decide (elapsedTime - link.lastAckTime < HEARTBEAT_MS * 6)

end PeerSocketLink

/-- Of the connection it matters whether there is one. -/
structure Peer where
  networkLinks : WalkedMap SocketAddress PeerSocketLink
  connection : Bool

structure Network where
  object : ℕ
  ip : IPInterface

/-- The objects in removed are those whose flag up was cleared; state is what
teamStorage.getState gives. -/
structure Device where
  elapsedRealtime : ℤ
  networks : WalkedMap String Network
  removed : List ℕ
  objects : ℕ
  peers : WalkedMap PeerId Peer
  seq : ℕ
  stunProbes : List SocketAddress
  state : Option (PeerId × (Fin 32 → UInt8))

def Device.start (uptime : ℕ) : Device where
  elapsedRealtime := uptime
  networks := ∅
  removed := []
  objects := 0
  peers := ∅
  seq := 0
  stunProbes := []
  state := none

section Peers

/-- None for the own id. -/
def createPeer (myId id : PeerId) (s : Device) : Option Device :=
  if myId = id then none
  else
    match s.peers.lookup id with
    | some _ => some s
    | none => some { s with peers := s.peers.insert id ⟨∅, false⟩ }

def PeerSocketLink.hear (now : ℤ) (unicast : Bool) (seq : ℤ)
    (link : PeerSocketLink) : PeerSocketLink :=
  let link := { link with lastHeard := now, lastHeardSeq := seq }
  if unicast then { link with unicastPackets := link.unicastPackets + 1, lastHeardUnicast := now }
  else { link with broadcastPackets := link.broadcastPackets + 1, lastHeardBroadcast := now }

def processHeader (now : ℤ) (network : Option ℕ) (addr : SocketAddress) (unicast : Bool) (seq : ℤ)
    (p : Peer) : Peer :=
  let link := (p.networkLinks.lookup addr).getD { network := network }
  { p with networkLinks := p.networkLinks.insert addr (link.hear now unicast seq) }

def PeerSocketLink.acked (now : ℤ) (linkAck : LinkAck) (link : PeerSocketLink) : PeerSocketLink :=
  { link with
    lastAckTime := now
    lastAckSeq := linkAck.seq
    ackUnicastCount := if linkAck.unicast then link.ackUnicastCount + 1 else link.ackUnicastCount
    ackBroadcastCount := if linkAck.broadcast then link.ackBroadcastCount + 1
      else link.ackBroadcastCount
    ackedUnicast := linkAck.unicast
    ackedBroadcast := linkAck.broadcast }

/-- The last acknowledgement of the own id counts. -/
def processAck (myId : PeerId) (now : ℤ) (links : List LinkAck)
    (link : PeerSocketLink) : PeerSocketLink :=
  links.foldl (fun link linkAck => if linkAck.id = myId
    then link.acked now linkAck else link) link

def Device.modifyLink (s : Device) (id : PeerId) (addr : SocketAddress)
    (f : PeerSocketLink → PeerSocketLink) : Device :=
  { s with peers := modify id (fun p =>
    { p with networkLinks := modify addr f p.networkLinks }) s.peers }

def process (myId : PeerId) (network : Option ℕ) (addr : SocketAddress) :
    List Message → Option PeerId → Device → Device
  | [], _, s => s
  | .header id unicast seq :: rest, _, s =>
    match createPeer myId id s with
    | none => s
    | some s =>
      process myId network addr rest (some id)
        { s with peers := modify id (processHeader s.elapsedRealtime network addr
          unicast seq) s.peers }
  | .stun addresses :: rest, peer, s =>
    process myId network addr rest peer
      { s with stunProbes := addresses.foldl (fun probes a =>
        probes.insert ⟨a.getAddress, PORT⟩) s.stunProbes }
  | .ack links :: rest, peer, s =>
    process myId network addr rest peer
      (match peer with
        | some id => s.modifyLink id addr (processAck myId s.elapsedRealtime links)
        | none => s)
  | _ :: rest, peer, s => process myId network addr rest peer s

def read (heap : Heap) (myId : PeerId) (network : Option ℕ) (addr : SocketAddress)
    (bytes : List UInt8) (s : Device) :
    Device :=
  if addr.port ≠ PORT then s
  else process myId network addr (messagesIn heap (bytes.take Datagrams.MTU)) none s

def receiveInterface (s : Device) (addr : SocketAddress) : Option ℕ :=
  (s.networks.entries.find? fun e => isInSubnet e.2.ip addr.address).map fun e => e.2.object

end Peers

section Dead

def Device.gone (s : Device) (link : PeerSocketLink) : Bool :=
  link.isDead s.elapsedRealtime || link.network.any fun n => s.removed.contains n

/-- The connection is shut down with the last link. -/
def checkLinks (s : Device) (p : Peer) : Peer :=
  let links := sift (fun _ link => if s.gone link then none else some link) p.networkLinks
  let died := p.networkLinks.entries.any fun e => s.gone e.2
  { networkLinks := links, connection := p.connection && !(died && links.entries.isEmpty) }

def Peer.isAlive (p : Peer) : Bool := p.connection || !p.networkLinks.entries.isEmpty

def trimDead (s : Device) : Device :=
  { s with peers := sift (fun _ p => if (checkLinks s p).isAlive then some (checkLinks s p)
    else none) s.peers }

end Dead

section Interfaces

/-- None where the constructor of the interface throws. -/
def onAdd (name : String) (addr broadcast : List UInt8) (prefixLen : ℕ) (s : Device) :
    Option Device := do
  let ip ← newIPInterface addr broadcast prefixLen
  some { s with networks := s.networks.insert name ⟨s.objects, ip⟩, objects := s.objects + 1 }

def onRemove (name : String) (s : Device) : Device :=
  match s.networks.lookup name with
  | none => s
  | some network =>
    trimDead { s with removed := network.object :: s.removed, networks := s.networks.erase name }

end Interfaces

section Alarm

/-- A single probe for each interface, but not to itself. -/
def walkNetworks (s : Device) : Device :=
  { s with
    networks := sift (fun _ n => some { n with ip := (nextAddress n.ip).1 }) s.networks
    stunProbes := s.networks.entries.foldl (fun probes e =>
      (probes.insert ⟨(nextAddress e.2.ip).2, PORT⟩).erase
        ⟨e.2.ip.addrBytes, PORT⟩) s.stunProbes }

def linkAck (elapsed : ℤ) (id : PeerId) (link : PeerSocketLink) : LinkAck :=
  ⟨id, link.heardBroadcast elapsed, link.heardUnicast elapsed, link.lastHeardSeq⟩

def Device.links (s : Device) : List (PeerId × SocketAddress × PeerSocketLink) :=
  s.peers.entries.flatMap fun e => e.2.networkLinks.entries.map fun l => (e.1, l.1, l.2)

def stateMessages (s : Device) : List Message :=
  s.state.toList.map fun st => .storeState st.1 st.2

def broadcastHeartbeat (myId : PeerId) (seq : ℕ) (s : Device) : List Message :=
  let links := s.links.map fun l => linkAck s.elapsedRealtime l.1 l.2.2
  .header myId false (seq % 0x10000 : ℕ) ::
    ((if links = [] then [] else [.ack links]) ++ stateMessages s)

/-- The link to which a heartbeat is sent while none is known to take the one for all. -/
def sendUnicastAck (elapsed : ℤ) (p : Peer) : Option (SocketAddress × PeerSocketLink) :=
  if p.networkLinks.entries.any fun e => e.2.theyAckedBroadcast elapsed then none
  else p.networkLinks.entries.getLast?.map fun e => (e.1, e.2)

def unicastHeartbeat (myId : PeerId) (seq : ℕ) (s : Device) (id : PeerId)
    (link : PeerSocketLink) : List Message :=
  .header myId true (seq % 0x10000 : ℕ) :: .ack
    [linkAck s.elapsedRealtime id link] :: stateMessages s

/-- One buffer is sent to many. It is not rewound, so that what was sent once is empty from
then on. -/
def sendAll (works : SocketAddress → List UInt8 → Bool) : List UInt8 → List SocketAddress →
    List (SocketAddress × List UInt8)
  | _, [] => []
  | bytes, dest :: rest =>
    if works dest bytes then (dest, bytes) :: sendAll works [] rest else sendAll works bytes rest

def onAlarm (myId : PeerId) (works : SocketAddress → List UInt8 → Bool) (s : Device) :
    Device × List (SocketAddress × List UInt8) :=
  if s.networks.entries.isEmpty then (s, [])
  else
    let s := walkNetworks (trimDead s)
    let seq := s.seq
    let probes := s.links.foldl (fun probes l => probes.erase l.2.1) s.stunProbes
    let broadcasts := sendAll works (assemble (broadcastHeartbeat myId seq s))
      (s.networks.entries.map fun e => ⟨e.2.ip.broadcastAddrBytes, PORT⟩)
    let unicasts := s.peers.entries.flatMap fun e =>
      match sendUnicastAck s.elapsedRealtime e.2 with
      | none => []
      | some (addr, link) =>
        sendAll works (assemble (unicastHeartbeat myId seq s e.1 link)) [addr]
    let probed := sendAll works (assemble [.header myId true (seq % 0x10000 : ℕ)]) probes
    ({ s with seq := seq + 1, stunProbes := [] }, broadcasts ++ unicasts ++ probed)

end Alarm

end Succinct.Heartbeats
