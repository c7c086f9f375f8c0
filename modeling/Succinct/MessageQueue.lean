import Succinct.ByteBuffers

/-!
Outgoing messages, as MessageQueue.java cuts them into fragments, and the
pieces that Fragment.java finds in a fragment. A method that throws is none.
The partial fragment lives in a mapped file: the first four bytes of the
buffer are the saved position, then the bytes of the open fragment.

Left out: the time a fragment was created at, and logging. The records of
the fragments file are the list of the byte arrays appended to it.
-/
namespace Succinct.MessageQueue

open ByteBuffers

def MAX_USER_DATA_SEPTETS : ℕ := 160

def MAX_USER_DATA_SEPTETS_WITH_HEADER : ℕ := 153

def MAX_PARTS : ℕ := 2

def smsMTU : ℕ :=
  let len := if MAX_PARTS = 1 then MAX_USER_DATA_SEPTETS
    else MAX_USER_DATA_SEPTETS_WITH_HEADER * MAX_PARTS
  let len := if len % 4 ≠ 0 then len - len % 4 else len
  len / 4 * 3

def rockMTU : ℕ := 338

def MTU : ℕ :=
  let mtu := [smsMTU, rockMTU].foldl (fun mtu service => min service mtu) 0x7FFFFFFF
  if mtu % 50 ≠ 0 then mtu - mtu % 50 else mtu

theorem MTU_eq : MTU = 200 := by decide

def HEADER : ℕ := 13

def NO_DEADLINE : ℤ := 9223372036854775807

abbrev PeerId := Fin 8 → UInt8

structure Fragment where
  bytes : List UInt8
  team : Option PeerId
  seq : UInt32
  firstOffset : ℕ
  buffer : ByteBuffer

def readPeerId (b : ByteBuffer) : Option (PeerId × ByteBuffer) := do
  let (id, b) ← b.get 8
  some (fun i => id.getD i.val 0, b)

def newFragment (bytes : List UInt8) : Option Fragment :=
  let buffer := ByteBuffer.wrap bytes
  if buffer.remaining < 13 then
    some { bytes := bytes, team := none, seq := 0xFFFFFFFF, firstOffset := 0,
           buffer := buffer.setMark }
  else do
    let (team, buffer) ← readPeerId buffer
    let (seq, buffer) ← buffer.getInt
    let (first, buffer) ← buffer.get 1
    some { bytes := bytes, team := some team, seq := UInt32.ofNat seq,
           firstOffset := (first.getD 0 0).toNat, buffer := buffer.setMark }

def TYPE_PARTIAL : ℤ := -1

structure Piece where
  type : ℤ
  len : ℤ
  payload : List UInt8
  deriving DecidableEq

def takePiece (buffer : ByteBuffer) (type len : ℤ) : Option (Piece × ByteBuffer) := do
  let piece := { type := type, len := len, payload := buffer.slice }
  let buffer ← buffer.setPosition buffer.limit
  let buffer ← buffer.setLimit buffer.capacity
  some (piece, buffer)

def limitMessage (buffer : ByteBuffer) (len : ℕ) : Option ByteBuffer :=
  if len < buffer.remaining then buffer.setLimit (buffer.position + len : ℕ) else some buffer

/-- The limit of the continued message. Here an absolute position is compared
with the number of bytes remaining. -/
def limitPartial (buffer : ByteBuffer) (firstOffset : ℕ) : Option ByteBuffer :=
  let l := buffer.position + firstOffset
  if l < buffer.remaining then buffer.setLimit (buffer.position + firstOffset : ℕ)
    else some buffer

def piecesLoop : ℕ → ByteBuffer → Option (List Piece)
  | 0, _ => none
  | fuel + 1, buffer =>
    if buffer.hasRemaining then do
      let (type, buffer) ← buffer.get 1
      let (len, buffer) ← buffer.getShort
      let buffer ← limitMessage buffer len
      let (piece, buffer) ← takePiece buffer (type.getD 0 0).toNat len
      let rest ← piecesLoop fuel buffer
      some (piece :: rest)
    else some []

def getPieces (f : Fragment) : Option (List Piece) := do
  let buffer ← f.buffer.reset
  if f.firstOffset > 0 then
    let buffer ← limitPartial buffer f.firstOffset
    let (piece, buffer) ← takePiece buffer TYPE_PARTIAL (-1)
    let rest ← piecesLoop (buffer.capacity + 1) buffer
    some (piece :: rest)
  else
    let buffer ← buffer.setLimit buffer.capacity
    piecesLoop (buffer.capacity + 1) buffer

structure Queue where
  teamId : PeerId
  fragmentBuff : ByteBuffer
  nextFragmentSeq : UInt32
  fragmentDeadline : ℤ
  fragments : List (List UInt8)

def endFragment (q : Queue) : Option (Bool × Queue) :=
  if q.fragmentBuff.position ≤ 4 then some (false, q)
  else do
    let buff ← q.fragmentBuff.flip.setPosition 4
    let (fragmentBytes, buff) ← buff.get buff.remaining
    let buff ← buff.clear.putIntAt 0 0
    some (true, { q with fragmentDeadline := NO_DEADLINE
                         fragments := q.fragments ++ [fragmentBytes]
                         fragmentBuff := buff })

def beginFragment (q : Queue) (pieceLen : ℤ) : Option Queue := do
  let seq := q.nextFragmentSeq
  let buff ← q.fragmentBuff.clear.setPosition 4
  let buff ← buff.put (List.ofFn q.teamId)
  let buff ← buff.putInt seq.toNat
  let buff ← buff.put [UInt8.ofNat (if pieceLen > 255 then 255 else pieceLen).toNat]
  let buff ← buff.putIntAt 0 buff.position
  some { q with nextFragmentSeq := seq + 1, fragmentDeadline :=
    NO_DEADLINE, fragmentBuff := buff }

/-- The parts of the loop of fragmentMessage: a fragment is begun when none
is open, -/
def openFragment (q : Queue) (offset len : ℤ) : Option Queue :=
  if q.fragmentBuff.position ≤ 4 then beginFragment q (if offset = -3 then 0 else len) else some q

/-- the message header goes first, -/
def putHeader (buff : ByteBuffer) (messageType : UInt8) (length : ℕ) (offset len : ℤ) :
    Option (ByteBuffer × ℤ × ℤ) :=
  if offset = -3 then do
    let buff ← buff.put [messageType]
    let buff ← buff.putShort length
    some (buff, offset + 3, len - 3)
  else some (buff, offset, len)

/-- and at the end the position is saved, and a
fragment without room for another header is ended. -/
def savePiece (q : Queue) (buff : ByteBuffer) (len : ℤ) : Option Queue := do
  let buff ← buff.putIntAt 0 buff.position
  let q := { q with fragmentBuff := buff }
  if len > 254 ∨ buff.remaining < 3 then (endFragment q).map Prod.snd else some q

def fragmentLoop (deadline : ℤ) (messageType : UInt8) (messageBytes : List UInt8) :
    ℕ → Queue → ℤ → Option Queue
  | 0, _, _ => none
  | fuel + 1, q, offset =>
    if offset < messageBytes.length then do
      let len : ℤ := messageBytes.length - offset
      let len : ℤ := if len > MTU - HEADER then MTU - HEADER else len
      let q ← openFragment q offset len
      let q := if deadline < q.fragmentDeadline
        then { q with fragmentDeadline := deadline } else q
      let len : ℤ := if len > q.fragmentBuff.remaining then q.fragmentBuff.remaining else len
      let (buff, offset, len) ← putHeader q.fragmentBuff messageType
        messageBytes.length offset len
      let buff ← buff.putRange messageBytes offset len
      let q ← savePiece q buff len
      fragmentLoop deadline messageType messageBytes fuel q (offset + len)
    else some q

def fragmentMessage (q : Queue) (deadline : ℤ) (messageType : UInt8) (messageBytes : List UInt8) :
    Option Queue :=
  fragmentLoop deadline messageType messageBytes (messageBytes.length + 4) q (-3)

def setLength (file : List UInt8) (n : ℕ) : List UInt8 :=
  file.take n ++ List.replicate (n - file.length) 0

def seqAfterLast (fragments : List (List UInt8)) : Option UInt32 :=
  match fragments.getLast? with
  | none => some 0
  | some last => (newFragment last).map fun f => f.seq + 1

/-- What the constructor of MessageQueue makes of the partial_fragment file
and the stored fragments, at the given time. -/
def newQueue (teamId : PeerId) (file : List UInt8) (fragments : List (List UInt8)) (now : ℤ) :
    Option Queue := do
  let nextFragmentSeq ← seqAfterLast fragments
  let buff := ByteBuffer.wrap (setLength file (MTU + 4))
  if file.length = 0 then
    let buff ← buff.putIntAt 0 0
    some { teamId := teamId, fragmentBuff := buff, nextFragmentSeq := nextFragmentSeq
           fragmentDeadline := NO_DEADLINE, fragments := fragments }
  else
    let (size, buff) ← buff.getInt
    let buff ← buff.setPosition (asInt size + buff.position)
    if asInt size > 0 then
      let seq ← buff.getIntAt (4 + 8)
      some { teamId := teamId, fragmentBuff := buff, nextFragmentSeq := UInt32.ofNat seq + 1
             fragmentDeadline := now, fragments := fragments }
    else
      some { teamId := teamId, fragmentBuff := buff, nextFragmentSeq := nextFragmentSeq
             fragmentDeadline := NO_DEADLINE, fragments := fragments }

end Succinct.MessageQueue
