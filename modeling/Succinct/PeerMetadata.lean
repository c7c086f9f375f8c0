import Succinct.MetadataIndex
import Succinct.Varints

/-!
What the native store tells the peers about its files. A message of a peer is
handed over with the bytes after its type, and answered through calls to the
peer object in Java. The metadata of a file is sent in a compact form, while its
receiver asks for the bytes that the record takes in memory; and a key that a
peer has is looked up among the names of the files, not in the index.
-/
namespace Succinct.PeerMetadata

open NativeStore StoreRoot MetadataIndex Varints

def SYNC_MSG_KEY : UInt8 := 0

def SYNC_MSG_REQ_METADATA : UInt8 := 1

inductive Call where
  | syncMessage (message : List UInt8)
  | peerHas (key : List UInt8) (filename : Name) (length : BitVec 64)
  deriving DecidableEq

def callPeerHas (key : List UInt8) (version : FileVersion) : Call :=
  .peerHas key version.name (BitVec.ofNat 64 version.length)

def cString (memory : List UInt8) : Option Name :=
  if 0 ∈ memory then some (memory.takeWhile (· ≠ 0)) else none

/-- process_difference: the record of a file is read as that of a version, whose
name stands where the hash of the file does. -/
def processDifference (state : DbState) (key : List UInt8) : Option (List Call) :=
  match state.db.files key with
  | none => some [.syncMessage (SYNC_MSG_REQ_METADATA :: key)]
  | some record => do
    let name ← cString (hashMemory record)
    some [callPeerHas key ⟨record.version, record.length, name⟩]

/-- receive_metadata with the call that follows its transaction. The name of a file_version
is at offset 16 where 64-bit numbers are aligned to 8 bytes, as on LP64 and 32-bit ARM. -/
def receiveFromPeer (state : DbState) (msg : List UInt8) (commits : Bool) :
    Option (DbState × List Call) :=
  if msg.length < 8 + 16 + 2 then some (state, [])
  else do
    let (key, version) ← parseMetadata msg
    if commits then
      some ({ state with db := { state.db with
        index := Function.update state.db.index key (some version) } }, [callPeerHas key version])
    else some (state, [])

/-- jni_peer_message. The calls that a message of sync keys leads to are an
argument. An empty array has no type, and a request without a key is read past
its end: none. -/
def peerMessage (recvMessage : List UInt8 → List Call) (state : DbState) (message : List UInt8)
    (commits : Bool) : Option (DbState × List Call) :=
  match message with
  | [] => none
  | type :: msg =>
    if type = SYNC_MSG_KEY then some (state, recvMessage msg)
    else if type = SYNC_MSG_REQ_METADATA then
      if msg.length < 8 then none
      else some (state, ((sendMetadata state (msg.take 8)).map Call.syncMessage).toList)
    else if type = SYNC_MSG_SEND_METADATA then receiveFromPeer state msg commits
    else some (state, [])

def Accepted (key : List UInt8) (version : FileVersion) : Option (DbState × List Call) → Prop
  | none => False
  | some (state, calls) => state.db.index key = some version ∧ calls = [callPeerHas key version]

def LongEnough (version : FileVersion) : Prop :=
  17 ≤ (packUint version.version.toUInt64).length +
    (packUint (UInt64.ofNat version.length)).length + version.name.length

instance decidableLongEnough (version : FileVersion) : Decidable (LongEnough version) :=
  inferInstanceAs (Decidable (_ ≤ _))

theorem length_metadataMessage {key : List UInt8} (hkey : key.length = 8)
    (version : FileVersion) :
    8 + 16 + 2 ≤ (key ++ packUint version.version.toUInt64 ++
      packUint (UInt64.ofNat version.length) ++ version.name ++ [0]).length ↔
      LongEnough version := by
  rw [LongEnough]
  simp only [List.length_append, List.length_singleton, hkey]
  omega

/-- Metadata that is sent is accepted exactly when its numbers and its name
together take the bytes that the receiver asks for. -/
theorem metadata_accepted_iff (recvMessage : List UInt8 → List Call) (sender receiver : DbState)
    (key : List UInt8) (version : FileVersion) (hkey : key.length = 8)
    (hindex : sender.db.index key = some version) (hlength : version.length < 2 ^ 31)
    (hname : ∀ b ∈ version.name, b ≠ 0) (hshort : version.name.length < MAX_NAME) :
    ∃ message, peerMessage recvMessage sender (SYNC_MSG_REQ_METADATA :: key) true =
        some (sender, [.syncMessage message]) ∧
      (Accepted key version (peerMessage recvMessage receiver message true) ↔
        LongEnough version) := by
  have hrequest : peerMessage recvMessage sender (SYNC_MSG_REQ_METADATA :: key) true =
      some (sender, [.syncMessage (metadataMessage key version)]) := by
    have htake : key.take 8 = key := List.take_of_length_le (by omega)
    rw [peerMessage, if_neg (by decide), if_pos rfl, if_neg (by omega), htake,
      sendMetadata, hindex]
    rfl
  have hparse : parseMetadata (key ++ packUint version.version.toUInt64 ++
      packUint (UInt64.ofNat version.length) ++ version.name ++ [0]) =
      some (key, ⟨version.version, version.length, version.name⟩) :=
    (parseMetadata_eq_iff hkey hname hshort version.length).mpr hlength
  refine ⟨metadataMessage key version, hrequest, ?_⟩
  have hdeliver : peerMessage recvMessage receiver (metadataMessage key version) true =
      receiveFromPeer receiver (key ++ packUint version.version.toUInt64 ++
        packUint (UInt64.ofNat version.length) ++ version.name ++ [0]) true := rfl
  rw [hdeliver, receiveFromPeer, ← length_metadataMessage hkey version]
  split
  case isTrue hlt =>
    constructor
    · rintro ⟨-, hcalls⟩
      cases hcalls
    · intro hle
      omega
  case isFalse hlt =>
    refine ⟨fun _ => by omega, fun _ => ?_⟩
    rw [hparse]
    exact ⟨Function.update_self .., rfl⟩

def holding (key : List UInt8) (version : FileVersion) : DbState :=
  ⟨{ emptyDatabase with index := Function.update emptyDatabase.index key (some version) },
    ⟨zeroHash, VERSION⟩⟩

/-- A file with one byte, and fifteen in its name. -/
theorem metadata_accepted_named : ∃ message,
    peerMessage (fun _ => []) (holding (List.replicate 8 1) ⟨1, 1, List.replicate 15 0x61⟩)
        (SYNC_MSG_REQ_METADATA :: List.replicate 8 1) true =
      some (holding (List.replicate 8 1) ⟨1, 1, List.replicate 15 0x61⟩, [.syncMessage message]) ∧
    Accepted (List.replicate 8 1) ⟨1, 1, List.replicate 15 0x61⟩
      (peerMessage (fun _ => []) Session.fresh.state message true) := by
  have hname : ∀ b ∈ List.replicate 15 (0x61 : UInt8), b ≠ 0 := by
    intro b hb
    rw [List.eq_of_mem_replicate hb]
    decide
  obtain ⟨message, hrequest, hiff⟩ := metadata_accepted_iff (fun _ => [])
    (holding (List.replicate 8 1) ⟨1, 1, List.replicate 15 0x61⟩) Session.fresh.state
    (List.replicate 8 1) ⟨1, 1, List.replicate 15 0x61⟩ rfl rfl (by decide) hname (by decide)
  exact ⟨message, hrequest, hiff.mpr (by decide)⟩

def exchanged (name : Name) : Option (Option FileVersion × Option FileVersion × List Call) := do
  let key := syncKey (Sha256.hash [1])
  let s ← run [.fileOpen name, .append name [1], .flush name [] true] Session.fresh
  let message ← sendMetadata s.state key
  let (state, calls) ← peerMessage (fun _ => []) Session.fresh.state message true
  some (s.state.db.index key, state.db.index key, calls)

/-- A short name makes a message that is dropped. -/
theorem short_name_dropped : exchanged [0x63, 0x68, 0x61, 0x74] =
    some (some ⟨1, 1, [0x63, 0x68, 0x61, 0x74]⟩, none, []) := by
  decide +kernel

/-- A key whose record is in the index, and would be sent to a peer that asks for
it, is taken as known exactly when a file is named by the key itself, and its
length and hash happen to be those of the record. Where no such file was flushed,
the metadata is asked for again. -/
theorem known_content_iff (ops : List Op) (s : Session) (hrun : run ops Session.fresh = some s)
    (key : List UInt8) (version : FileVersion) (hindex : s.state.db.index key = some version) :
    (processDifference s.state key = some [callPeerHas key version] ↔
      ∃ record, s.state.db.files key = some record ∧
        BitVec.ofNat 64 record.length = BitVec.ofNat 64 version.length ∧
        cString (hashMemory record) = some version.name) ∧
    ((∀ w ∈ writes ops Session.fresh, w.file ≠ some key) →
      processDifference s.state key = some [.syncMessage (SYNC_MSG_REQ_METADATA :: key)]) ∧
    sendMetadata s.state key = some (metadataMessage key version) := by
  have hindexed := Indexed.run ops fresh_indexed hrun
  rw [List.append_nil] at hindexed
  refine ⟨?_, ?_, ?_⟩
  · rw [processDifference]
    cases hrecord : s.state.db.files key with
    | none => simp [callPeerHas]
    | some record =>
      cases hname : cString (hashMemory record) with
      | none => simp [hname]
      | some name => simp [hname, callPeerHas, and_comm]
  · intro hnever
    rw [processDifference]
    cases hrecord : s.state.db.files key with
    | none => rfl
    | some record =>
      obtain ⟨newer, older, hws, -⟩ := hindexed.files key record hrecord
      have hmem : ⟨syncKey record.hash, some key, ⟨record.version, record.length, key⟩⟩ ∈
          writes ops Session.fresh := by
        rw [hws]
        exact List.mem_append_right _ List.mem_cons_self
      exact absurd rfl (hnever _ hmem)
  · rw [sendMetadata, hindex]
    rfl

def namedByKey : List Op :=
  [.fileOpen (List.replicate 8 7), .append (List.replicate 8 7) [1],
    .flush (List.replicate 8 7) [] true]

def hashName : Name :=
  (((run namedByKey Session.fresh).bind fun s => s.state.db.files (List.replicate 8 7)).bind
    fun record => cString (hashMemory record)).getD []

def announcement (name : Name) : Op :=
  .metadata (List.replicate 8 7 ++ [1, 1] ++ name ++ [0]) true

theorem known_content_named : ∃ s version,
    run (namedByKey ++ [announcement hashName]) Session.fresh = some s ∧
    s.state.db.index (List.replicate 8 7) = some version ∧
    processDifference s.state (List.replicate 8 7) =
      some [callPeerHas (List.replicate 8 7) version] := by
  have hends : (run (namedByKey ++ [announcement hashName]) Session.fresh).bind (fun s =>
      (s.state.db.index (List.replicate 8 7)).bind fun version =>
        (s.state.db.files (List.replicate 8 7)).map fun record =>
          (decide (record.length = version.length),
            decide (cString (hashMemory record) = some version.name))) = some (true, true) := by
    decide +kernel
  obtain ⟨s, hrun, hs⟩ := Option.bind_eq_some_iff.mp hends
  obtain ⟨version, hversion, hs⟩ := Option.bind_eq_some_iff.mp hs
  obtain ⟨record, hrecord, hs⟩ := Option.map_eq_some_iff.mp hs
  obtain ⟨hlength, hname⟩ := Prod.mk.inj hs
  refine ⟨s, version, hrun, hversion, ?_⟩
  refine (known_content_iff _ s hrun _ version hversion).1.mpr ⟨record, hrecord, ?_, ?_⟩
  · rw [of_decide_eq_true hlength]
  · exact of_decide_eq_true hname

/-- Metadata that was received is asked for again. -/
theorem announced_asked_again : ∃ s version,
    run [announcement (List.replicate 20 0x61)] Session.fresh = some s ∧
    s.state.db.index (List.replicate 8 7) = some version ∧
    processDifference s.state (List.replicate 8 7) =
      some [.syncMessage (SYNC_MSG_REQ_METADATA :: List.replicate 8 7)] ∧
    processDifference s.state (List.replicate 8 7) ≠
      some [callPeerHas (List.replicate 8 7) version] := by
  have hends : (run [announcement (List.replicate 20 0x61)] Session.fresh).bind (fun s =>
      (s.state.db.index (List.replicate 8 7)).map fun version =>
        (version.length, processDifference s.state (List.replicate 8 7))) =
      some (1, some [.syncMessage (SYNC_MSG_REQ_METADATA :: List.replicate 8 7)]) := by
    decide +kernel
  obtain ⟨s, hrun, hs⟩ := Option.bind_eq_some_iff.mp hends
  obtain ⟨version, hversion, hs⟩ := Option.map_eq_some_iff.mp hs
  obtain ⟨-, hcalls⟩ := Prod.mk.inj hs
  refine ⟨s, version, hrun, hversion, hcalls, ?_⟩
  rw [hcalls]
  simp [callPeerHas]

end Succinct.PeerMetadata
