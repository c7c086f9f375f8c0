import Succinct.ByteBuffers

/-!
The messages of app/src/main/java/org/servalproject/succinct/networking and
their frames: a type, a length of two bytes and a body. A deserialiser is
the bytes between the position and the limit of its buffer, and what it
leaves of them also when it throws. A serialiser is the bytes put so far and
the room there is; none is the exception it throws when they do not fit,
after which nothing is written. A string is kept as the bytes it is read
from or written as.

Left out: what a message does when it is processed, and the log.
-/
namespace Succinct.Messages

open ByteBuffers

inductive JavaException where
  | bufferUnderflow
  | arrayIndexOutOfBounds
  | illegalArgument
  | negativeArraySize
  | outOfMemory
  | illegalState
  deriving DecidableEq

/-- The virtual machine has room for one array of this size, which is more
than any body of a frame. -/
structure Heap where
  room : ℕ
  room_ge : 65536 ≤ room

abbrev PeerId := Fin 8 → UInt8

structure LinkAck where
  id : PeerId
  broadcast : Bool
  unicast : Bool
  seq : ℤ

inductive InetAddress where
  | inet4 (addr : Fin 4 → UInt8)
  | inet6 (addr : Fin 16 → UInt8)

/-- The data of a file block to be written are the bytes that its file gives
from its offset on. A team that was closed has no members. -/
inductive Message where
  | header (id : PeerId) (unicast : Bool) (seq : ℤ)
  | ack (links : List LinkAck)
  | storeState (teamId : PeerId) (key : Fin 32 → UInt8)
  | syncMsg (blob : List UInt8)
  | requestBlock (filename : List UInt8) (offset length : BitVec 64)
  | fileBlock (filename : List UInt8) (offset : BitVec 64) (data : List UInt8)
  | team (epoc : ℕ) (members : Option (PeerId × PeerId × List UInt8))
  | requestTeam (teamId : PeerId)
  | stun (addresses : List InetAddress)

inductive MessageType where
  | headerMessage
  | ackMessage
  | storeStateMessage
  | syncMsgMessage
  | requestBlockMessage
  | fileBlockMessage
  | teamMessage
  | requestTeamMessage
  | stunMessage
  deriving DecidableEq

def types : List MessageType :=
  [.headerMessage, .ackMessage, .storeStateMessage, .syncMsgMessage, .requestBlockMessage,
    .fileBlockMessage, .teamMessage, .requestTeamMessage, .stunMessage]

def Reader (α : Type) : Type := List UInt8 → Except JavaException α × List UInt8

instance : Monad Reader where
  pure a := fun s => (.ok a, s)
  bind x f := fun s => match x s with
    | (.ok a, s) => f a s
    | (.error e, s) => (.error e, s)

def throwing {α : Type} (e : JavaException) : Reader α := fun s => (.error e, s)

def hasRemaining : Reader Bool := fun s => (.ok (!s.isEmpty), s)

def getRaw (n : ℕ) : Reader (List UInt8) := fun s =>
  if n ≤ s.length then (.ok (s.take n), s.drop n) else (.error .bufferUnderflow, s)

def getByte : Reader UInt8 := do
  let bytes ← getRaw 1
  return bytes.getD 0 0

def getShort : Reader ℕ := do
  let bytes ← getRaw 2
  return ofBigEndian bytes

def getRawLong : Reader ℕ := do
  let bytes ← getRaw 8
  return ofBigEndian bytes

def REMAINING : ℤ := -1

def newArray (heap : Heap) (length : ℤ) : Reader ℕ :=
  if length < 0 then throwing .negativeArraySize
  else if heap.room < length then throwing .outOfMemory
  else pure length.toNat

def getFixedBytes (heap : Heap) (length : ℤ) : Reader (List UInt8) := fun s =>
  (do
    let n ← newArray heap (if length = REMAINING then s.length else length)
    getRaw n) s

/-- Seven bits of each byte. They are shifted as an int, whose shift counts
are taken modulo 32, and then widened with its sign. -/
def getLongLoop (ret : BitVec 64) (shift : ℕ) : Reader (BitVec 64)
  | [] => (.error .bufferUnderflow, [])
  | val :: rest =>
    let ret := ret ||| ((val.toBitVec &&& 0x7f).setWidth 32 <<< (shift % 32)).signExtend 64
    if val.toNat < 0x80 then (.ok ret, rest) else getLongLoop ret (shift + 7) rest

def getLong : Reader (BitVec 64) := getLongLoop 0 0

def getBytes (heap : Heap) : Reader (List UInt8) := do
  let length ← getLong
  getFixedBytes heap (length.setWidth 32).toInt

def getString (heap : Heap) : Reader (List UInt8) := fun s =>
  (do
    let name ← getFixedBytes heap (s.takeWhile (· ≠ 0)).length
    if ← hasRemaining then
      let _ ← getByte
    return name) s

def getId (heap : Heap) : Reader PeerId := do
  let bytes ← getFixedBytes heap 8
  return fun i => bytes.getD i.val 0

def createHeader (heap : Heap) : Reader Message := do
  let id ← getId heap
  let flags ← getByte
  if ← hasRemaining then
    let seq ← getShort
    return .header id (flags.toNat % 2 = 1) seq
  else return .header id (flags.toNat % 2 = 1) (-1)

def asShort (n : ℕ) : ℤ := if n < 0x8000 then n else (n : ℤ) - 0x10000

/-- One turn of the loop for each nine bytes at least. -/
def ackLoop (heap : Heap) : ℕ → List LinkAck → Reader Message
  | 0, links => return .ack links
  | fuel + 1, links => do
    if ← hasRemaining then
      let id ← getId heap
      let flags ← getByte
      if 8 ≤ flags.toNat then return .ack links
      else
        let broadcast := decide (flags.toNat / 2 % 2 = 1)
        let unicast := decide (flags.toNat % 2 = 1)
        if flags.toNat / 4 % 2 = 1 then
          let seq ← getShort
          ackLoop heap fuel (links ++ [⟨id, broadcast, unicast, asShort seq⟩])
        else ackLoop heap fuel (links ++ [⟨id, broadcast, unicast, -1⟩])
    else return .ack links

def createAck (heap : Heap) : Reader Message := fun s => ackLoop heap (s.length + 1) [] s

def createStoreState (heap : Heap) : Reader Message := do
  let team ← getId heap
  let key ← getFixedBytes heap 32
  return .storeState team (fun i => key.getD i.val 0)

def createSyncMsg (heap : Heap) : Reader Message := do
  let blob ← getFixedBytes heap REMAINING
  return .syncMsg blob

def createRequestBlock (heap : Heap) : Reader Message := do
  let offset ← getLong
  let length ← getLong
  let filename ← getFixedBytes heap REMAINING
  return .requestBlock filename offset length

def createFileBlock (heap : Heap) : Reader Message := do
  let filename ← getString heap
  let offset ← getLong
  let data ← getFixedBytes heap REMAINING
  return .fileBlock filename offset data

def createTeam (heap : Heap) : Reader Message := do
  let epoc ← getRawLong
  if ← hasRemaining then
    let id ← getId heap
    let leader ← getId heap
    let name ← getString heap
    return .team epoc (some (id, leader, name))
  else return .team epoc none

def createRequestTeam (heap : Heap) : Reader Message := do
  let id ← getId heap
  return .requestTeam id

/-- An address that IPv6 maps to an IPv4 one is the IPv4 one. -/
def getByAddress (addr : List UInt8) : Option InetAddress :=
  if addr.length = 4 then some (.inet4 fun i => addr.getD i.val 0)
  else if addr.length = 16 then
    if addr.take 12 = List.replicate 10 0 ++ [0xff, 0xff] then
      some (.inet4 fun i => addr.getD (12 + i.val) 0)
    else some (.inet6 fun i => addr.getD i.val 0)
  else none

def stunLoop (heap : Heap) : ℕ → List InetAddress → Reader Message
  | 0, addresses => return .stun addresses
  | fuel + 1, addresses => do
    if ← hasRemaining then
      let bytes ← getBytes heap
      match getByAddress bytes with
      | some address => stunLoop heap fuel (addresses ++ [address])
      | none => throwing .illegalState
    else return .stun addresses

def createStun (heap : Heap) : Reader Message := fun s => stunLoop heap (s.length + 1) [] s

def create (heap : Heap) : MessageType → Reader Message
  | .headerMessage => createHeader heap
  | .ackMessage => createAck heap
  | .storeStateMessage => createStoreState heap
  | .syncMsgMessage => createSyncMsg heap
  | .requestBlockMessage => createRequestBlock heap
  | .fileBlockMessage => createFileBlock heap
  | .teamMessage => createTeam heap
  | .requestTeamMessage => createRequestTeam heap
  | .stunMessage => createStun heap

def asByte (b : UInt8) : ℤ := if b.toNat < 0x80 then b.toNat else (b.toNat : ℤ) - 0x100

def caught : Except JavaException Message → Except JavaException (Option Message)
  | .ok m => .ok (some m)
  | .error .bufferUnderflow => .ok none
  | .error e => .error e

def parseBody (heap : Heap) (type : MessageType) (len : ℤ) (buff : ByteBuffer) :
    Except JavaException (Option Message) × ByteBuffer :=
  match buff.setLimit (buff.position + len) with
  | none => (.error .illegalArgument, buff)
  | some body =>
    let (result, rest) := create heap type body.slice
    let body := body.leaving rest.length
    -- the limit was valid before
    (caught result, (body.setLimit buff.limit).getD body)

def parseMessage (heap : Heap) (buff : ByteBuffer) :
    Except JavaException (Option Message) × ByteBuffer :=
  if buff.remaining < 3 then (.ok none, buff)
  else
    match buff.setMark.get 1 with
    | none => (.error .bufferUnderflow, buff)
    | some (t, buff) =>
      let t := asByte (t.getD 0 0)
      if types.length ≤ t then (.ok none, buff)
      else if t < 0 then (.error .arrayIndexOutOfBounds, buff)
      else
        match buff.getShort with
        | none => (.error .bufferUnderflow, buff)
        | some (len, buff) =>
          let len := asShort len
          if len > buff.remaining then (.ok none, buff.reset.getD buff)
          else parseBody heap (types.getD t.toNat .stunMessage) len buff

def put (room : ℕ) (src out : List UInt8) : Option (List UInt8) :=
  if out.length + src.length ≤ room then some (out ++ src) else none

/-- The loop of putLong, which ends within ten bytes. -/
def longBytes : ℕ → ℕ → List UInt8
  | 0, value => [UInt8.ofNat (value % 0x80)]
  | fuel + 1, value =>
    if 0x80 ≤ value then UInt8.ofNat (0x80 + value % 0x80) :: longBytes fuel (value / 0x80)
    else [UInt8.ofNat value]

def putLong (room : ℕ) (value : BitVec 64) (out : List UInt8) : Option (List UInt8) :=
  put room (longBytes 9 value.toNat) out

def putString (room : ℕ) (value out : List UInt8) : Option (List UInt8) := do
  let out ← put room value out
  put room [0] out

def putId (room : ℕ) (id : PeerId) (out : List UInt8) : Option (List UInt8) :=
  put room (List.ofFn id) out

def putSeq (room : ℕ) (seq : ℤ) (out : List UInt8) : Option (List UInt8) :=
  if 0 ≤ seq then put room (bigEndian 2 seq.toNat) out else some out

def LinkAck.flags (link : LinkAck) : UInt8 :=
  (if link.broadcast then 2 else 0) + (if link.unicast then 1 else 0) +
    (if 0 ≤ link.seq then 4 else 0)

/-- A link that has no room for its id and flags is passed over. -/
def LinkAck.serialise (room : ℕ) (out : List UInt8) (link : LinkAck) : Option (List UInt8) :=
  if room - out.length < 9 then some out
  else do
    let out ← putId room link.id out
    let out ← put room [link.flags] out
    putSeq room link.seq out

def InetAddress.getAddress : InetAddress → List UInt8
  | .inet4 addr => List.ofFn addr
  | .inet6 addr => List.ofFn addr

def putAddress (room : ℕ) (out : List UInt8) (address : InetAddress) : Option (List UInt8) := do
  let out ← putLong room address.getAddress.length out
  put room address.getAddress out

def serialise (room : ℕ) : Message → Option (List UInt8)
  | .header id unicast seq => do
    let out ← putId room id []
    let out ← put room [if unicast then 1 else 0] out
    putSeq room seq out
  | .ack links => links.foldlM (LinkAck.serialise room) []
  | .storeState teamId key => do
    let out ← putId room teamId []
    put room (List.ofFn key) out
  | .syncMsg blob => put room blob []
  | .requestBlock filename offset length => do
    let out ← putLong room offset []
    let out ← putLong room length out
    put room filename out
  | .fileBlock filename offset data => do
    let out ← putString room filename []
    let out ← putLong room offset out
    some (out ++ data.take (room - out.length))
  | .team epoc members => do
    let out ← put room (bigEndian 8 epoc) []
    match members with
    | none => some out
    | some (id, leader, name) => do
      let out ← putId room id out
      let out ← putId room leader out
      putString room name out
  | .requestTeam teamId => putId room teamId []
  | .stun addresses => addresses.foldlM (putAddress room) []

def Message.type : Message → MessageType
  | .header _ _ _ => .headerMessage
  | .ack _ => .ackMessage
  | .storeState _ _ => .storeStateMessage
  | .syncMsg _ => .syncMsgMessage
  | .requestBlock _ _ _ => .requestBlockMessage
  | .fileBlock _ _ _ => .fileBlockMessage
  | .team _ _ => .teamMessage
  | .requestTeam _ => .requestTeamMessage
  | .stun _ => .stunMessage

def MessageType.ordinal (type : MessageType) : ℕ := types.idxOf type

def isComplete (room : ℕ) : Message → Bool
  | .fileBlock filename offset data =>
    decide (filename.length + 1 + (longBytes 9 offset.toNat).length + data.length ≤ room)
  | _ => true

def frame (type : MessageType) (body : List UInt8) : List UInt8 :=
  UInt8.ofNat type.ordinal :: bigEndian 2 body.length ++ body

def write (buff : ByteBuffer) (m : Message) : Bool × ByteBuffer :=
  if buff.remaining < 3 then (false, buff)
  else
    let room := buff.remaining - 3
    match serialise room m with
    | none => (false, buff.setMark)
    | some body =>
      match buff.setMark.put (frame m.type body) with
      | none => (false, buff.setMark)
      | some buff => (isComplete room m, buff)

end Succinct.Messages
