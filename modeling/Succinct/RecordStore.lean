import Succinct.NativeStore

/-!
RecordStore.java: the file of a store on disk, the offsets that Java keeps, and
the native file behind them. A call says whether it returned normally, and
which bytes it appended and which flushes it made on the way; whether the
transaction of a flush takes place is an argument. Left out: marks, observers,
and reading.
-/
namespace Succinct.RecordStore

open NativeStore ByteBuffers

structure PeerTransfer where
  peer : ℕ
  newLength : ℤ
  expectedHash : List UInt8
  deriving DecidableEq

structure Store where
  state : DbState
  disk : List UInt8
  EOF : ℕ
  appendOffset : ℕ
  fileHash : List UInt8
  activeTransfer : Option PeerTransfer
  file : FileData

/-- A native call that changes the file: bytes are appended, or it is flushed
with this result. -/
inductive Effect where
  | append (data : List UInt8)
  | flush (expectedHash : Option (List UInt8)) (ret : ℤ)

structure Call where
  returned : Bool
  effects : List Effect
  store : Store

def setLength (disk : List UInt8) (length : ℕ) : List UInt8 :=
  disk.take length ++ List.replicate (length - disk.length) 0

def writeAt (disk : List UInt8) (offset : ℕ) (data : List UInt8) : List UInt8 :=
  setLength (disk.take offset) offset ++ data ++ disk.drop (offset + data.length)

def jniCallback (s : Store) (length : ℕ) (hash : List UInt8) : Store :=
  { s with disk := if s.appendOffset > length then setLength s.disk length else s.disk
           appendOffset := length
           EOF := length
           fileHash := hash }

/-- The constructor: the callback comes from jni_file_open. -/
def openStore (state : DbState) (disk : List UInt8) (name : Name) : Option Store := do
  let file ← fileOpen state name
  some (jniCallback
    { state := state, disk := disk, EOF := 0, appendOffset := 0, fileHash := []
      activeTransfer := none, file := file } file.length file.hash)

def setTranfer (s : Store) (transfer : PeerTransfer) : Store :=
  if s.activeTransfer.isSome then s else { s with activeTransfer := some transfer }

def cancel (s : Store) (transfer : PeerTransfer) : Store :=
  if s.activeTransfer = some transfer then { s with activeTransfer := none } else s

/-- append; the arguments of write have to lie in the array. -/
def append (s : Store) (bytes : List UInt8) (offset length : ℤ) : Call :=
  if length ≤ 0 then ⟨true, [], s⟩
  else if offset < 0 ∨ offset + length > bytes.length then ⟨false, [], s⟩
  else
    let data := (bytes.drop offset.toNat).take length.toNat
    ⟨true, [.append data],
      { s with disk := writeAt s.disk s.appendOffset data
               appendOffset := s.appendOffset + data.length
               file := fileAppend s.file data }⟩

/-- jni_file_flush: a null hash has no length. -/
def jniFlush (s : Store) (expectedHash : Option (List UInt8)) (commits : Bool) : ℤ × Store :=
  let (ret, state, file) := fileFlush s.state s.file (expectedHash.getD []) commits
  let s := { s with state := state, file := file }
  (ret, if ret ≠ 0 then jniCallback s file.length file.hash else s)

def flush (s : Store) (expectedHash : Option (List UInt8)) (commits : Bool) : Call :=
  let (ret, s) := jniFlush s expectedHash commits
  ⟨decide (ret ≥ 0), [.flush expectedHash ret], s⟩

def toInt (n : ℤ) : ℤ := asInt (n % 4294967296).toNat

theorem toInt_small (n : ℤ) (h1 : -2147483648 ≤ n) (h2 : n < 2147483648) : toInt n = n := by
  unfold toInt asInt
  split <;> omega

def finishTransfer (s : Store) (commits : Bool) : Call :=
  match s.activeTransfer with
  | none => ⟨true, [], s⟩
  | some transfer =>
    if transfer.newLength = s.appendOffset then
      let call := flush s (some transfer.expectedHash) commits
      { call with store :=
          if call.returned then { call.store with activeTransfer := none } else call.store }
    else ⟨true, [], s⟩

def appendAt (s : Store) (fileOffset : ℤ) (bytes : List UInt8) (commits : Bool) : Call :=
  if fileOffset > s.appendOffset then ⟨false, [], s⟩
  else
    let offset := toInt (s.appendOffset - fileOffset)
    let call := append s bytes offset (toInt (bytes.length - offset))
    if !call.returned then call
    else
      let last := finishTransfer call.store commits
      { last with effects := call.effects ++ last.effects }

def completeRecord (record : List UInt8) : List UInt8 :=
  let len := record.length + 8
  bigEndian 4 len ++ record ++ bigEndian 4 len

def appendRecord (s : Store) (record : List UInt8) (commits : Bool) : Call :=
  let bytes := completeRecord record
  let call := append s bytes 0 bytes.length
  if !call.returned then call
  else
    let last := flush call.store none commits
    { last with effects := call.effects ++ last.effects }

inductive Op where
  | append (bytes : List UInt8) (offset length : ℤ)
  | appendAt (fileOffset : ℤ) (bytes : List UInt8) (commits : Bool)
  | appendRecord (record : List UInt8) (commits : Bool)
  | flush (expectedHash : Option (List UInt8)) (commits : Bool)
  | setTranfer (transfer : PeerTransfer)
  | cancel (transfer : PeerTransfer)

def call (s : Store) : Op → Call
  | .append bytes offset length => append s bytes offset length
  | .appendAt fileOffset bytes commits => appendAt s fileOffset bytes commits
  | .appendRecord record commits => appendRecord s record commits
  | .flush expectedHash commits => flush s expectedHash commits
  | .setTranfer transfer => ⟨true, [], setTranfer s transfer⟩
  | .cancel transfer => ⟨true, [], cancel s transfer⟩

end Succinct.RecordStore
