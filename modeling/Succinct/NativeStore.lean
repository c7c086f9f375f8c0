import Succinct.Sha256

/-!
The native store of storage.cpp: the files that it knows, the index from sync
keys to files, and the root hash. A transaction of LMDB either takes place or
changes nothing; whether it does is an argument. File lengths are unbounded
numbers, and a C string is the list of its bytes. Left out: the counters of
sync keys, the sync state, the callbacks to Java, and logging.
-/
namespace Succinct.NativeStore

open Sha256 (hash Sees)

def MAX_NAME : ℕ := 256

def VERSION : UInt8 := 2

def zeroHash : List UInt8 := List.replicate 32 0

abbrev Name := List UInt8

structure FileRecord where
  version : UInt32
  length : ℕ
  hash : List UInt8
  partialHash : Sha256.State

structure FileData extends FileRecord where
  name : Name
  newLength : ℕ
  newHash : Sha256.State

structure FileVersion where
  version : UInt32
  length : ℕ
  name : Name
  deriving DecidableEq

structure RootState where
  hash : List UInt8
  version : UInt8
  deriving DecidableEq

/-- The two databases. The index holds the record of the root as well, under a
key of another length. -/
structure Database where
  files : Name → Option FileRecord
  index : List UInt8 → Option FileVersion
  root : Option RootState

structure DbState where
  db : Database
  root : RootState

def emptyDatabase : Database where
  files := fun _ => none
  index := fun _ => none
  root := none

def openDb (db : Database) : DbState :=
  match db.root with
  | none => ⟨db, ⟨zeroHash, VERSION⟩⟩
  | some root =>
    if root.version ≠ VERSION then ⟨emptyDatabase, ⟨zeroHash, VERSION⟩⟩
    else ⟨db, { root with version := VERSION }⟩

/-- The key of a file: a longer name is cut. -/
def fileKey (name : Name) : Name := name.take (MAX_NAME - 1)

/-- The memory of a hash state that was filled with zeros. -/
def zeroState : Sha256.State := ⟨List.replicate 8 0, 0, List.replicate 64 0⟩

/-- file_open; LMDB takes no empty key. -/
def fileOpen (state : DbState) (name : Name) : Option FileData :=
  let key := fileKey name
  if key = [] then none
  else
    let record : FileRecord := match state.db.files key with
      | none => ⟨0, 0, zeroHash, Sha256.init zeroState⟩
      | some record => record
    some { record with name := key, newLength := record.length, newHash := record.partialHash }

def fileAppend (file : FileData) (data : List UInt8) : FileData :=
  { file with newHash := Sha256.update file.newHash data, newLength :=
    file.newLength + data.length }

def littleEndian32 (w : UInt32) : List UInt8 :=
  [w.toUInt8, (w >>> 8).toUInt8, (w >>> 16).toUInt8, (w >>> 24).toUInt8]

def littleEndian64 (w : UInt64) : List UInt8 :=
  littleEndian32 w.toUInt32 ++ littleEndian32 (w >>> 32).toUInt32

/-- The memory from the hash of a file on: the hash, and the hash state that
follows it. -/
def hashMemory (file : FileRecord) : List UInt8 :=
  file.hash ++ (file.partialHash.state.flatMap littleEndian32 ++
    littleEndian64 file.partialHash.count ++ file.partialHash.buf)

/-- The loop runs over the size of root_state, one byte past the hash. -/
def xorRoot (root : RootState) (newData file : FileRecord) : RootState :=
  let bytes := (List.range 33).map fun i =>
    (root.hash ++ [root.version]).getD i 0 ^^^ (hashMemory newData).getD i 0 ^^^
      (hashMemory file).getD i 0
  { hash := bytes.take 32, version := bytes.getD 32 0 }

def syncKey (hash : List UInt8) : List UInt8 := hash.take 8

/-- The writes of file_flush, in one transaction. -/
def commitFile (state : DbState) (name : Name) (newData : FileRecord) (newRoot : RootState) :
    DbState where
  db := { files := Function.update state.db.files name (some newData)
          index := Function.update state.db.index (syncKey newData.hash)
            (some ⟨newData.version, newData.length, name⟩)
          root := some newRoot }
  root := newRoot

def fileFlush (state : DbState) (file : FileData) (expectedHash : List UInt8) (commits : Bool) :
    ℤ × DbState × FileData :=
  let rewind := { file with newLength := file.length, newHash := file.partialHash }
  if file.length = file.newLength then (0, state, file)
  else
    let newData := { file with hash := Sha256.final file.newHash }
    if expectedHash ≠ [] ∧ expectedHash ≠
      (hashMemory newData.toFileRecord).take expectedHash.length then
      (-1, state, rewind)
    else if !commits then (-1, state, rewind)
    else
      let newData := { newData with version := newData.version + 1, partialHash := file.newHash
                                    length := newData.newLength }
      let newRoot :=
        { xorRoot state.root newData.toFileRecord file.toFileRecord with version := VERSION }
      (1, commitFile state file.name newData.toFileRecord newRoot, newData)

/-- pack_uint; 64 bits take ten groups of seven at most. -/
def packLoop : ℕ → UInt64 → List UInt8
  | 0, _ => []
  | fuel + 1, v =>
    ((v &&& 0x7f) ||| (if v > 0x7f then 0x80 else 0)).toUInt8 ::
      if v >>> 7 ≠ 0 then packLoop fuel (v >>> 7) else []

def packUint (v : UInt64) : List UInt8 := packLoop 10 v

def signExtend (w : UInt32) : UInt64 :=
  w.toUInt64 ||| (if w &&& 0x80000000 ≠ 0 then 0xffffffff00000000 else 0)

/-- The loop of unpack_uint from its i-th byte on: the number of bytes read and
the value. The shift is one of an int, and undefined from 32 bits on: none. A
buffer of five bytes or more does not run out before that. -/
def unpackLoop : ℕ → ℕ → List UInt8 → UInt64 → Option (ℕ × UInt64)
  | _, _, [], _ => none
  | 0, _, _, _ => none
  | fuel + 1, i, byte :: rest, v =>
    let v := v ||| signExtend ((byte &&& 0x7f).toUInt32 <<< UInt32.ofNat (i * 7))
    if byte &&& 0x80 = 0 then some (i + 1, v) else unpackLoop fuel (i + 1) rest v

def unpackUint (buffer : List UInt8) : Option (ℕ × UInt64) := unpackLoop 5 0 buffer 0

/-- A string that strncpy copies into a name of MAX_NAME zeros. It writes as
many bytes as the buffer has, and none is what happens beyond the name. -/
def copyName (buffer : List UInt8) : Option Name :=
  let name := buffer.takeWhile (· ≠ 0)
  if buffer.length > MAX_NAME ∨ name.length ≥ MAX_NAME then none else some name

def parseMetadata (msg : List UInt8) : Option (List UInt8 × FileVersion) := do
  let key := msg.take 8
  let (n, version) ← unpackUint (msg.drop 8)
  let (m, length) ← unpackUint (msg.drop (8 + n))
  let name ← copyName (msg.drop (8 + n + m))
  some (key, ⟨version.toUInt32, length.toNat, name⟩)

def receiveMetadata (state : DbState) (msg : List UInt8) (commits : Bool) : Option DbState :=
  if msg.length < 8 + 16 + 2 then some state
  else do
    let (key, version) ← parseMetadata msg
    if commits then
      some { state with db := { state.db with
        index := Function.update state.db.index key (some version) } }
    else some state

def SYNC_MSG_SEND_METADATA : UInt8 := 2

def metadataMessage (key : List UInt8) (version : FileVersion) : List UInt8 :=
  SYNC_MSG_SEND_METADATA :: key ++ packUint version.version.toUInt64 ++
    packUint (UInt64.ofNat version.length) ++ version.name ++ [0]

def sendMetadata (state : DbState) (key : List UInt8) : Option (List UInt8) :=
  (state.db.index key).map (metadataMessage key)

/-- The hash of a file in the store: while nothing is committed, it is zero. -/
def fileHash (content : List UInt8) : List UInt8 :=
  if content = [] then zeroHash else hash content

structure Holds (record : FileRecord) (content : List UInt8) : Prop where
  length : record.length = content.length
  hash : record.hash = fileHash content
  partialHash : Sees record.partialHash content

structure Tracks (file : FileData) (content pending : List UInt8) : Prop where
  holds : Holds file.toFileRecord content
  newLength : file.newLength = content.length + pending.length
  newHash : Sees file.newHash (content ++ pending)

theorem length_fileHash (content : List UInt8) : (fileHash content).length = 32 := by
  rw [fileHash]
  split
  · exact List.length_replicate
  · exact Sha256.length_hash content

theorem fileOpen_tracks {state : DbState} {name : Name} {file : FileData} {content : List UInt8}
    (h : fileOpen state name = some file)
    (hnone : state.db.files (fileKey name) = none → content = [])
    (hsome : ∀ record, state.db.files (fileKey name) = some record → Holds record content) :
    Tracks file content [] ∧ file.name = fileKey name := by
  rw [fileOpen] at h
  split at h
  · cases h
  cases hrecord : state.db.files (fileKey name) with
  | none =>
    rw [hrecord] at h
    obtain rfl := Option.some.inj h
    rw [hnone hrecord]
    have hinit : Sees (Sha256.init zeroState) [] := Sees.init zeroState List.length_replicate
    exact ⟨⟨⟨rfl, rfl, hinit⟩, rfl, hinit⟩, rfl⟩
  | some record =>
    rw [hrecord] at h
    obtain rfl := Option.some.inj h
    have hholds := hsome record hrecord
    refine ⟨⟨hholds, hholds.length, ?_⟩, rfl⟩
    rw [List.append_nil]
    exact hholds.partialHash

namespace Tracks

variable {file : FileData} {content pending : List UInt8}

theorem append (h : Tracks file content pending) (data : List UInt8) :
    Tracks (fileAppend file data) content (pending ++ data) where
  holds := h.holds
  newLength := by
    change file.newLength + data.length = _
    rw [h.newLength, List.length_append]
    omega
  newHash := by
    rw [← List.append_assoc]
    exact h.newHash.update data

/-- The pending bytes are dropped. -/
theorem rewind (h : Tracks file content pending) :
    Tracks { file with newLength := file.length, newHash := file.partialHash } content [] where
  holds := h.holds
  newLength := h.holds.length
  newHash := by
    rw [List.append_nil]
    exact h.holds.partialHash

theorem length_eq_iff (h : Tracks file content pending) :
    file.length = file.newLength ↔ pending = [] := by
  rw [h.holds.length, h.newLength, ← List.length_eq_zero_iff]
  omega

end Tracks

def flushed (file : FileData) : FileData :=
  { file with hash := Sha256.final file.newHash, version := file.version + 1
              partialHash := file.newHash, length := file.newLength }

theorem Tracks.flushed {file : FileData} {content pending : List UInt8}
    (h : Tracks file content pending) (hpending : pending ≠ []) :
    Tracks (flushed file) (content ++ pending) [] where
  holds := by
    refine ⟨?_, ?_, h.newHash⟩
    · change file.newLength = _
      rw [h.newLength, List.length_append]
    · have hne : content ++ pending ≠ [] := by
        intro hnil
        exact hpending (List.append_eq_nil_iff.mp hnil).2
      rw [fileHash, if_neg hne]
      exact h.newHash.final
  newLength := by
    change file.newLength = _
    rw [h.newLength, List.length_append, List.length_nil, Nat.add_zero]
  newHash := by
    rw [List.append_nil]
    exact h.newHash

def flushedRoot (root : RootState) (file : FileData) : RootState :=
  { xorRoot root (flushed file).toFileRecord file.toFileRecord with version := VERSION }

/-- All that a flush can do: nothing, drop the pending bytes, or commit them. -/
theorem fileFlush_results (state : DbState) (file : FileData) (expectedHash : List UInt8)
    (commits : Bool) :
    (file.length = file.newLength ∧
      fileFlush state file expectedHash commits = (0, state, file)) ∨
    (file.length ≠ file.newLength ∧ fileFlush state file expectedHash commits =
      (-1, state, { file with newLength := file.length, newHash := file.partialHash })) ∨
    (file.length ≠ file.newLength ∧ (expectedHash = [] ∨ expectedHash =
        (hashMemory { file.toFileRecord with hash := Sha256.final file.newHash }).take
          expectedHash.length) ∧
      fileFlush state file expectedHash commits =
        (1, commitFile state file.name (flushed file).toFileRecord (flushedRoot state.root file),
          flushed file)) := by
  rw [fileFlush]
  by_cases heq : file.length = file.newLength
  · rw [if_pos heq]
    exact Or.inl ⟨heq, rfl⟩
  rw [if_neg heq]
  right
  dsimp only
  split
  case isTrue hmatch =>
    exact Or.inl ⟨heq, rfl⟩
  case isFalse hmatch =>
    split
    · exact Or.inl ⟨heq, rfl⟩
    refine Or.inr ⟨heq, ?_, rfl⟩
    by_cases hnil : expectedHash = []
    · exact Or.inl hnil
    · right
      by_contra hne
      exact hmatch ⟨hnil, hne⟩

theorem fileFlush_cases {file : FileData} {content pending : List UInt8}
    (h : Tracks file content pending) (state : DbState) (expectedHash : List UInt8)
    (commits : Bool) :
    (pending = [] ∧ fileFlush state file expectedHash commits = (0, state, file)) ∨
    (pending ≠ [] ∧ fileFlush state file expectedHash commits =
      (-1, state, { file with newLength := file.length, newHash := file.partialHash })) ∨
    (pending ≠ [] ∧ (expectedHash = [] ∨ expectedHash =
        (hashMemory { file.toFileRecord with hash := hash (content ++ pending) }).take
          expectedHash.length) ∧
      fileFlush state file expectedHash commits =
        (1, commitFile state file.name (flushed file).toFileRecord (flushedRoot state.root file),
          flushed file)) := by
  have hresults := fileFlush_results state file expectedHash commits
  rw [h.newHash.final, Ne, h.length_eq_iff] at hresults
  exact hresults

/-- Without its transaction a flush commits nothing. -/
theorem fileFlush_failed (state : DbState) (file : FileData) (expectedHash : List UInt8) :
    (fileFlush state file expectedHash false).1 ≤ 0 := by
  have hminus : (-1 : ℤ) ≤ 0 := by decide
  rw [fileFlush]
  split
  · exact le_refl 0
  dsimp only
  split
  · exact hminus
  · exact hminus

end Succinct.NativeStore
