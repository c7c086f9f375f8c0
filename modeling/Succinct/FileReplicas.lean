import Succinct.BlockReceipts
import Succinct.PeerMetadata

/-!
The devices of a team that exchange their files. A device sends frames; a frame
may be lost, and may reach any device at any time, more than once and in any
order. Each file is written by one of the devices. Which keys the reconciliation
of the native stores finds is left open, and so is what else is sent: peers may
ask for whatever they like, but file data and metadata come from this program.
-/
namespace Succinct.FileReplicas

open NativeStore RecordStore Provenance TeamRestarts PeerTransfers TeamCalls
open Messages (Message MessageType Heap create serialise)
open FileBlocks (FileBlock)
open PeerMetadata (peerMessage processDifference SYNC_MSG_KEY)

/-- A device, and the blocks in the queues of its connections. -/
structure Node (Path Dev : Type) where
  device : Device Path Dev
  blocks : List FileBlock

abbrev Frame := MessageType × List UInt8

structure World (Path Dev : Type) where
  nodes : Dev → Node Path Dev
  frames : List Frame

/-- What happens: the device d appends a record, is started again, loses the links
to the peer p, has found a key that p has and it has not, receives the i-th frame
from p, or writes a frame of the i-th block in its queues. -/
inductive Action (Dev : Type) where
  | record (d : Dev) (filename : Name) (record : List UInt8) (commits : Bool)
  | restart (d : Dev)
  | linksDied (d p : Dev)
  | difference (d p : Dev) (key : List UInt8) (connected : Bool)
  | deliver (d p : Dev) (i : ℕ) (connected commits : Bool)
  | write (d : Dev) (i room count : ℕ)
  | inject (frame : Frame)

def bodyRoom : ℕ := MessageStream.MTU - 3

def framesOf (messages : List Message) : List Frame :=
  messages.filterMap fun m => (serialise bodyRoom m).map fun body => (m.type, body)

section

variable {Path Dev : Type} [DecidableEq Path] [DecidableEq Dev] (resolve : Name → Path)

def newTeam : Team Path where
  state := openDb emptyDatabase
  disk := fun _ => []
  stores := fun _ => none
  history := fun _ => History.start []

def World.start : World Path Dev := ⟨fun _ => ⟨⟨newTeam, fun _ => ⟨[], 0, 0⟩, 0⟩, []⟩, []⟩

def makeCalls (p : Dev) (connected : Bool) :
    List PeerMetadata.Call → Device Path Dev → Option (Outcome Path Dev)
  | [], d => some ⟨true, d, [], []⟩
  | .syncMessage message :: rest, d => do
    let last ← makeCalls p connected rest d
    some { last with messages := .syncMsg message :: last.messages }
  | .peerHas key filename length :: rest, d => do
    let o ← peerHas resolve d p key filename length.toInt connected
    let last ← makeCalls p connected rest o.device
    some { last with messages := o.messages ++ last.messages, blocks := o.blocks ++ last.blocks }

/-- The process method of a message from a peer; those of other types do nothing
to the files. -/
def process (d : Device Path Dev) (p : Dev) (m : Message) (connected commits : Bool) :
    Option (Outcome Path Dev) :=
  match m with
  | .syncMsg message => do
    let (state, calls) ← peerMessage (fun _ => []) d.team.state message commits
    makeCalls resolve p connected calls { d with team := { d.team with state := state } }
  | .requestBlock filename offset length =>
    processRequest resolve d filename offset length connected
  | .fileBlock filename offset data =>
    processData resolve d p filename offset data connected commits
  | _ => some ⟨true, d, [], []⟩

def World.put (w : World Path Dev) (d : Dev) (n : Node Path Dev) : World Path Dev :=
  { w with nodes := Function.update w.nodes d n }

def World.after (w : World Path Dev) (d : Dev) (o : Outcome Path Dev) : World Path Dev :=
  { w.put d ⟨o.device, (w.nodes d).blocks ++ o.blocks⟩
    with frames := w.frames ++ framesOf o.messages }

def writeBlock (n : Node Path Dev) (i room count : ℕ) : Option (Frame × Node Path Dev) := do
  let b ← n.blocks[i]?
  let (s, t) ← openIn resolve n.device.team b.filename
  let n := { n with device := { n.device with team := t } }
  match FileBlocks.serialise room (s.disk.take s.EOF) count b with
  | .error _ => none
  | .ok (body, b) =>
    some ((.fileBlockMessage, body),
      { n with blocks := if b.isComplete then n.blocks.eraseIdx i else n.blocks.set i b })

def step (heap : Heap) (w : World Path Dev) : Action Dev → Option (World Path Dev)
  | .record d filename record commits => do
    let device ← appendRecord resolve (w.nodes d).device filename record commits
    some (w.put d ⟨device, (w.nodes d).blocks⟩)
  | .restart d => some (w.put d ⟨restart (w.nodes d).device, []⟩)
  | .linksDied d p => do
    let device ← linksDied resolve (w.nodes d).device p
    some (w.put d ⟨device, (w.nodes d).blocks⟩)
  | .difference d p key connected => do
    let calls ← processDifference (w.nodes d).device.team.state key
    let o ← makeCalls resolve p connected calls (w.nodes d).device
    some (w.after d o)
  | .deliver d p i connected commits => do
    let frame ← w.frames[i]?
    match create heap frame.1 frame.2 with
    | (.error _, _) => some w
    | (.ok m, _) =>
      let o ← process resolve (w.nodes d).device p m connected commits
      some (w.after d o)
  | .write d i room count => do
    let (frame, n) ← writeBlock resolve (w.nodes d) i room count
    some { w.put d n with frames := w.frames ++ [frame] }
  | .inject frame => some { w with frames := w.frames ++ [frame] }

end

/-- Neither file data nor metadata, and no request that nobody would send. -/
def Harmless (names : List Name) : Message → Prop
  | .fileBlock _ _ _ => False
  | .requestBlock filename offset _ => filename ∈ names ∧ 0 ≤ offset.toInt
  | .syncMsg message => message.head? ≠ some SYNC_MSG_SEND_METADATA
  | _ => True

/-- The records of a file are appended by its author only, and it stays shorter
than an int can tell; a difference is a key; and what is sent by others is
harmless. -/
def Permitted {Path Dev : Type} (heap : Heap) (names : List Name) (author : Name → Dev)
    (w : World Path Dev) : Action Dev → Prop
  | .record d filename record _ => filename ∈ names ∧ author filename = d ∧
      (committed (w.nodes d).device.team filename).length + record.length + 8 < 2147483648
  | .difference _ _ key _ => key.length = 8
  | .write _ _ room _ => room ≤ bodyRoom
  | .inject frame => ∀ m rest, create heap frame.1 frame.2 = (.ok m, rest) → Harmless names m
  | _ => True

inductive Reachable {Path Dev : Type} [DecidableEq Path] [DecidableEq Dev] (resolve : Name → Path)
    (heap : Heap) (names : List Name) (author : Name → Dev) : World Path Dev → Prop where
  | start : Reachable resolve heap names author World.start
  | step {w w' : World Path Dev} (a : Action Dev) (h : Reachable resolve heap names author w)
    (hpermitted : Permitted heap names author w a) (hstep : step resolve heap w a = some w') :
    Reachable resolve heap names author w'

/-- The names of files: they are not empty, have no zero inside, are not cut by
the store, and are no keys. -/
structure Names {Path : Type} (resolve : Name → Path) (names : List Name) : Prop where
  distinct : Distinct resolve names
  named : ∀ name ∈ names, name ≠ []
  whole : ∀ name ∈ names, ∀ b ∈ name, b ≠ 0
  short : ∀ name ∈ names, name.length < MAX_NAME
  noKey : ∀ name ∈ names, name.length ≠ 8

end Succinct.FileReplicas
