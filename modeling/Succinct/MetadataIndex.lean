import Succinct.StoreRoot

/-!
The index of the store, from sync keys to files. Flushes of files and messages
about the files of others write into it under the same keys, so what is found
under the key of a file is what was written there last: the file itself, unless
a file with the same key was flushed, or a message for the key received, since.
-/
namespace Succinct.MetadataIndex

open NativeStore StoreRoot

structure Write where
  key : List UInt8
  file : Option Name
  version : FileVersion

def writeOf (s : Session) : Op → Option Write
  | .flush name expectedHash commits => do
    let file ← s.files name
    let result := fileFlush s.state file expectedHash commits
    if result.1 = 1 then
      some ⟨syncKey result.2.2.hash, some file.name,
        ⟨result.2.2.version, result.2.2.length, file.name⟩⟩
    else none
  | .metadata msg commits =>
    if msg.length < 8 + 16 + 2 ∨ commits = false then none
    else (parseMetadata msg).map fun (key, version) => ⟨key, none, version⟩
  | _ => none

/-- The writes of a run, the last one first. -/
def writes : List Op → Session → List Write
  | [], _ => []
  | op :: rest, s =>
    ((step s op).elim [] (writes rest)) ++ (writeOf s op).toList

def lastWrite (ws : List Write) (key : List UInt8) : Option Write :=
  ws.find? fun w => decide (w.key = key)

structure Indexed (ws : List Write) (s : Session) : Prop where
  index : ∀ key, s.state.db.index key = (lastWrite ws key).map Write.version
  files : ∀ name record, s.state.db.files name = some record →
    ∃ newer older, ws = newer ++ ⟨syncKey record.hash, some name,
      ⟨record.version, record.length, name⟩⟩ :: older ∧ ∀ w ∈ newer, w.file ≠ some name
  version : s.state.root.version = VERSION
  stored : s.state.db.root = some s.state.root ∨
    (s.state.db.root = none ∧ s.state.root.hash = zeroHash)

theorem fresh_indexed : Indexed [] Session.fresh where
  index _ := rfl
  files _ _ h := by cases h
  version := rfl
  stored := Or.inr ⟨rfl, rfl⟩

namespace Indexed

variable {ws : List Write} {s : Session}

/-- A step that writes nothing to the index and no record. -/
theorem unchanged (h : Indexed ws s) {s' : Session} (hstate : s'.state = s.state) :
    Indexed ws s' := by
  refine ⟨?_, ?_, ?_, ?_⟩
  · rw [hstate]
    exact h.index
  · rw [hstate]
    exact h.files
  · rw [hstate]
    exact h.version
  · rw [hstate]
    exact h.stored

theorem index_cons (h : Indexed ws s) (w : Write) (key : List UInt8) :
    Function.update s.state.db.index w.key (some w.version) key =
      (lastWrite (w :: ws) key).map Write.version := by
  rw [lastWrite, List.find?_cons]
  by_cases hkey : w.key = key
  · subst hkey
    rw [Function.update_self, decide_eq_true rfl]
    rfl
  · rw [Function.update_of_ne (fun heq => hkey heq.symm), decide_eq_false hkey, h.index]
    rfl

theorem metadata (h : Indexed ws s) (key : List UInt8) (version : FileVersion) :
    Indexed (⟨key, none, version⟩ :: ws)
      { s with state := { s.state with db := { s.state.db with
          index := Function.update s.state.db.index key (some version) } } } where
  index := h.index_cons ⟨key, none, version⟩
  files := by
    intro name record hrecord
    obtain ⟨newer, older, hws, hnewer⟩ := h.files name record hrecord
    refine ⟨⟨key, none, version⟩ :: newer, older, by rw [hws]; rfl, ?_⟩
    intro w hw
    rcases List.mem_cons.mp hw with rfl | hw
    · simp
    · exact hnewer w hw
  version := h.version
  stored := h.stored

theorem flush (h : Indexed ws s) (file : FileData) (s' : Session)
    (hstate : s'.state = commitFile s.state file.name (flushed file).toFileRecord
      (flushedRoot s.state.root file)) :
    Indexed (⟨syncKey (flushed file).hash, some file.name,
      ⟨(flushed file).version, (flushed file).length, file.name⟩⟩ :: ws) s' := by
  refine ⟨?_, ?_, ?_, ?_⟩
  · rw [hstate]
    exact h.index_cons ⟨syncKey (flushed file).hash, some file.name,
      ⟨(flushed file).version, (flushed file).length, file.name⟩⟩
  · rw [hstate]
    intro name record hrecord
    change Function.update s.state.db.files file.name (some (flushed file).toFileRecord) name =
      some record at hrecord
    by_cases hname : name = file.name
    · subst hname
      rw [Function.update_self] at hrecord
      obtain rfl := Option.some.inj hrecord
      exact ⟨[], ws, rfl, fun w hw => absurd hw List.not_mem_nil⟩
    · rw [Function.update_of_ne hname] at hrecord
      obtain ⟨newer, older, hws, hnewer⟩ := h.files name record hrecord
      refine ⟨_ :: newer, older, by rw [hws]; rfl, ?_⟩
      intro w hw
      rcases List.mem_cons.mp hw with rfl | hw
      · intro heq
        exact hname (Option.some.inj heq).symm
      · exact hnewer w hw
  · rw [hstate]
    rfl
  · rw [hstate]
    exact Or.inl rfl

theorem step (h : Indexed ws s) {op : Op} {s' : Session} (hstep : StoreRoot.step s op = some s') :
    Indexed ((writeOf s op).toList ++ ws) s' := by
  cases op with
  | fileOpen name =>
    simp only [StoreRoot.step] at hstep
    split at hstep
    · cases hstep
    · obtain ⟨file, -, heq⟩ := Option.bind_eq_some_iff.mp hstep
      obtain rfl := Option.some.inj heq
      exact h.unchanged rfl
  | fileClose name =>
    obtain rfl := Option.some.inj hstep
    exact h.unchanged rfl
  | append name data =>
    obtain ⟨file, -, heq⟩ := Option.bind_eq_some_iff.mp hstep
    obtain rfl := Option.some.inj heq
    exact h.unchanged rfl
  | flush name expectedHash commits =>
    obtain ⟨file, hfile, heq⟩ := Option.bind_eq_some_iff.mp hstep
    obtain rfl := Option.some.inj heq
    simp only [writeOf, hfile, Option.bind_eq_bind, Option.bind_some]
    rcases fileFlush_results s.state file expectedHash commits with
      ⟨-, hflush⟩ | ⟨-, hflush⟩ | ⟨-, -, hflush⟩
    · rw [hflush]
      refine h.unchanged ?_
      simp only [flushFile, hflush]
    · rw [hflush]
      refine h.unchanged ?_
      simp only [flushFile, hflush]
    · rw [hflush]
      refine h.flush file _ ?_
      simp only [flushFile, hflush]
  | metadata msg commits =>
    obtain ⟨state, hreceive, heq⟩ := Option.bind_eq_some_iff.mp hstep
    obtain rfl := Option.some.inj heq
    rw [receiveMetadata] at hreceive
    rw [writeOf]
    by_cases hshort : msg.length < 8 + 16 + 2
    · rw [if_pos hshort] at hreceive
      obtain rfl := Option.some.inj hreceive
      rw [if_pos (Or.inl hshort)]
      exact h
    · rw [if_neg hshort] at hreceive
      simp only [Option.bind_eq_bind, Option.bind_eq_some_iff] at hreceive
      obtain ⟨⟨key, version⟩, hparse, hreceive⟩ := hreceive
      cases commits with
      | true =>
        obtain rfl := Option.some.inj hreceive
        rw [if_neg (by simpa using hshort), hparse]
        exact h.metadata key version
      | false =>
        obtain rfl := Option.some.inj hreceive
        rw [if_pos (Or.inr rfl)]
        exact h
  | reopen =>
    obtain rfl := Option.some.inj hstep
    exact h.unchanged (openDb_eq h.version h.stored)

theorem run (ops : List Op) (h : Indexed ws s) {s' : Session}
    (hrun : StoreRoot.run ops s = some s') : Indexed (writes ops s ++ ws) s' := by
  induction ops generalizing s ws with
  | nil =>
    obtain rfl := Option.some.inj hrun
    exact h
  | cons op rest ih =>
    obtain ⟨s1, hstep, hrest⟩ := Option.bind_eq_some_iff.mp hrun
    rw [writes, hstep, Option.elim_some, List.append_assoc]
    exact ih (h.step hstep) hrest

end Indexed

/-- The key of a committed file is always found. A request for it is answered
with the file itself, unless its key was written again since its last flush, by
another file or by a message; then with what was written last. -/
theorem committed_file_indexed (ops : List Op) (s : Session)
    (hrun : run ops Session.fresh = some s) (name : Name) (record : FileRecord)
    (hrecord : s.state.db.files name = some record) :
    ∃ newer older, writes ops Session.fresh = newer ++ ⟨syncKey record.hash, some name,
        ⟨record.version, record.length, name⟩⟩ :: older ∧ (∀ w ∈ newer, w.file ≠ some name) ∧
      ∃ version, s.state.db.index (syncKey record.hash) = some version ∧
        sendMetadata s.state (syncKey record.hash) =
          some (metadataMessage (syncKey record.hash) version) ∧
        ((lastWrite newer (syncKey record.hash) = none ∧
            version = ⟨record.version, record.length, name⟩) ∨
          ∃ w, lastWrite newer (syncKey record.hash) = some w ∧ version = w.version) := by
  have hindexed := Indexed.run ops fresh_indexed hrun
  rw [List.append_nil] at hindexed
  obtain ⟨newer, older, hws, hnewer⟩ := hindexed.files name record hrecord
  have hindex := hindexed.index (syncKey record.hash)
  rw [hws, lastWrite, List.find?_append, List.find?_cons, decide_eq_true rfl] at hindex
  refine ⟨newer, older, hws, hnewer, ?_⟩
  cases hlast : lastWrite newer (syncKey record.hash) with
  | none =>
    rw [lastWrite] at hlast
    rw [hlast] at hindex
    refine ⟨_, hindex, ?_, Or.inl ⟨rfl, rfl⟩⟩
    rw [sendMetadata, hindex]
    rfl
  | some w =>
    rw [lastWrite] at hlast
    rw [hlast] at hindex
    refine ⟨_, hindex, ?_, Or.inr ⟨w, rfl, rfl⟩⟩
    rw [sendMetadata, hindex]
    rfl

def announced : List Op :=
  [.fileOpen [0x61], .append [0x61] [1], .flush [0x61] [] true, .reopen,
    .metadata (syncKey (Sha256.hash [1]) ++ [1, 1, 0x61] ++ List.replicate 16 0) true]

theorem committed_file_indexed_announced : ∃ s record, run announced Session.fresh = some s ∧
    s.state.db.files [0x61] = some record ∧ record.length = 1 ∧
      ∃ version, s.state.db.index (syncKey record.hash) = some version := by
  have hends : (run announced Session.fresh).bind (fun s =>
      (s.state.db.files [0x61]).map FileRecord.length) = some 1 := by
    decide +kernel
  obtain ⟨s, hrun, hlength⟩ := Option.bind_eq_some_iff.mp hends
  obtain ⟨record, hrecord, hlength⟩ := Option.map_eq_some_iff.mp hlength
  obtain ⟨-, -, -, -, version, hversion, -⟩ :=
    committed_file_indexed announced s hrun [0x61] record hrecord
  exact ⟨s, record, hrun, hrecord, hlength, version, hversion⟩

def twins : List Op :=
  [.fileOpen [0x61], .append [0x61] [1], .flush [0x61] [] true,
    .fileOpen [0x62], .append [0x62] [1], .flush [0x62] [] true]

theorem twin_not_indexed : ∃ s record version, run twins Session.fresh = some s ∧
    s.state.db.files [0x61] = some record ∧ record.length ≠ 0 ∧
      s.state.db.index (syncKey record.hash) = some version ∧ version.name ≠ [0x61] := by
  have hends : (run twins Session.fresh).bind (fun s =>
    (s.state.db.files [0x61]).bind fun record =>
      (s.state.db.index (syncKey record.hash)).map fun version =>
        (record.length, version.name)) = some (1, [0x62]) := by
    decide +kernel
  obtain ⟨s, hrun, hs⟩ := Option.bind_eq_some_iff.mp hends
  obtain ⟨record, hrecord, hs⟩ := Option.bind_eq_some_iff.mp hs
  obtain ⟨version, hversion, hs⟩ := Option.map_eq_some_iff.mp hs
  obtain ⟨hlength, hname⟩ := Prod.mk.inj hs
  refine ⟨s, record, version, hrun, hrecord, ?_, hversion, ?_⟩
  · rw [hlength]
    decide
  · rw [hname]
    decide

end Succinct.MetadataIndex
