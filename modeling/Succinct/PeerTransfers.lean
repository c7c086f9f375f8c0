import Succinct.TeamRestarts
import Succinct.TransferSlots
import Succinct.BlockRequests

/-!
Peer.java: the transfers of a team's files that a device makes on behalf of its
peers. What the peers have is kept in a list for each of them; a transfer of the
list asks for the rest of its file once it gets the slot of the file. Whether a
peer can be connected to is an argument. A null pointer, and an array that is
read outside, leave a method early: it has not returned then, and what it did
before remains.

The origins of bytes play no part here. The counters of Java do not overflow;
those of sent bytes, which are only shown, are left out, as are observers.
-/
namespace Succinct.PeerTransfers

open NativeStore RecordStore RecordRefinement Provenance TeamRestarts
open Messages (Message)
open FileBlocks (FileBlock)

def maxRequest : ℤ := 1024 * 256

/-- A PeerTransfer and the name of its file. Java compares the objects and does
not read their peer; the number in its place tells the objects apart. -/
structure Transfer where
  filename : Name
  transfer : PeerTransfer

structure Peer where
  possibleTransfers : List Transfer
  requested : ℤ
  received : ℤ

structure Device (Path Id : Type) where
  team : Team Path
  peers : Id → Peer
  made : ℕ

/-- What a method comes to, with the messages and the blocks that it puts into
the queue of the connection. -/
structure Outcome (Path Id : Type) where
  returned : Bool
  device : Device Path Id
  messages : List Message
  blocks : List FileBlock

structure Turns (Path : Type) where
  returned : Bool
  kept : List Transfer
  team : Team Path
  requested : ℤ
  requests : List Message

section Methods

variable {Path Id : Type} [DecidableEq Path] [DecidableEq Id] (resolve : Name → Path)

def Device.setPeer (d : Device Path Id) (p : Id) (peer : Peer) : Device Path Id :=
  { d with peers := Function.update d.peers p peer }

def openIn (t : Team Path) (name : Name) : Option (Store × Team Path) := do
  let s ← openFile resolve t name
  some (s, { t with state := s.state
                    disk := Function.update t.disk (resolve name) s.disk
                    stores := Function.update t.stores name (some s) })

def nextTransferLoop (connected : Bool) (received : ℤ) :
    List Transfer → Team Path → ℤ → Option (Turns Path)
  | [], t, requested => some ⟨true, [], t, requested, []⟩
  | x :: rest, t, requested =>
    if maxRequest < requested - received then some ⟨true, x :: rest, t, requested, []⟩
    else do
      let (s, t) ← openIn resolve t x.filename
      if x.transfer.newLength ≤ s.EOF then nextTransferLoop connected received rest t requested
      else if s.activeTransfer.isSome then
        let last ← nextTransferLoop connected received rest t requested
        some { last with kept := x :: last.kept }
      else
        let t ← teamStep resolve t (.call x.filename (.setTranfer x.transfer))
        if !connected then some ⟨false, x :: rest, t, requested, []⟩
        else
          let length := x.transfer.newLength - s.EOF
          let last ← nextTransferLoop connected received rest t (requested + length)
          let request :=
            Message.requestBlock x.filename (BitVec.ofNat 64 s.EOF) (BitVec.ofInt 64 length)
          some { last with kept := x :: last.kept, requests := request :: last.requests }

def nextTransfer (d : Device Path Id) (p : Id) (connected : Bool) : Option (Outcome Path Id) := do
  let peer := d.peers p
  let turns ← nextTransferLoop resolve connected peer.received peer.possibleTransfers
    d.team peer.requested
  let peer := { peer with possibleTransfers := turns.kept, requested := turns.requested }
  some ⟨turns.returned, { d.setPeer p peer with team := turns.team }, turns.requests, []⟩

def peerHas (d : Device Path Id) (p : Id) (hash : List UInt8) (filename : Name) (length : ℤ)
    (connected : Bool) : Option (Outcome Path Id) := do
  let (s, t) ← openIn resolve d.team filename
  let d := { d with team := t }
  if length ≤ s.EOF then some ⟨true, d, [], []⟩
  else if s.activeTransfer.any fun active => length ≤ active.newLength then some ⟨true, d, [], []⟩
  else
    let peer := d.peers p
    let transfer : Transfer := ⟨filename, d.made, length, hash⟩
    let d := d.setPeer p { peer with possibleTransfers := peer.possibleTransfers ++ [transfer] }
    nextTransfer resolve { d with made := d.made + 1 } p connected

def processRequest (d : Device Path Id) (filename : Name) (offset length : BitVec 64)
    (connected : Bool) : Option (Outcome Path Id) := do
  let (s, t) ← openIn resolve d.team filename
  let d := { d with team := t }
  match BlockRequests.processRequest (BitVec.ofNat 64 s.EOF) filename offset length with
  | none => some ⟨true, d, [], []⟩
  | some queued =>
    if !connected then some ⟨false, d, [], []⟩
    else
      some ⟨true, d, [], [.ofFile queued.filename queued.offset.toNat queued.length.toNat]⟩

def outside (s : Store) (fileOffset : ℤ) (bytes : List UInt8) : Bool :=
  decide (fileOffset ≤ s.appendOffset) &&
    !(append s bytes (TransferSlots.skipped s fileOffset)
      (toInt (bytes.length - TransferSlots.skipped s fileOffset))).returned

def processData (d : Device Path Id) (p : Id) (filename : Name) (offset : BitVec 64)
    (data : List UInt8) (connected commits : Bool) : Option (Outcome Path Id) := do
  let peer := d.peers p
  let d := d.setPeer p { peer with received := peer.received + data.length }
  let s ← openFile resolve d.team filename
  let t ← teamStep resolve d.team (.call filename (.appendAt offset.toInt data commits))
  let d := { d with team := t }
  if outside s offset.toInt data then some ⟨false, d, [], []⟩
    else nextTransfer resolve d p connected

def cancelAll : List Transfer → Team Path → Option (Team Path)
  | [], t => some t
  | x :: rest, t =>
    (teamStep resolve t (.call x.filename (.cancel x.transfer))).bind (cancelAll rest)

def linksDied (d : Device Path Id) (p : Id) : Option (Device Path Id) := do
  let t ← cancelAll resolve (d.peers p).possibleTransfers d.team
  some { d.setPeer p ⟨[], 0, 0⟩ with team := t }

def appendRecord (d : Device Path Id) (filename : Name) (record : List UInt8) (commits : Bool) :
    Option (Device Path Id) := do
  let t ← teamStep resolve d.team (.call filename (.appendRecord record commits))
  some { d with team := t }

def restart (d : Device Path Id) : Device Path Id :=
  ⟨TeamRestarts.restart d.team, fun _ => ⟨[], 0, 0⟩, 0⟩

end Methods

end Succinct.PeerTransfers
