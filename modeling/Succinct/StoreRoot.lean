import Succinct.NativeStore
import Mathlib.Data.Finset.Fold
import Mathlib.Data.List.GetD

/-!
The store over its whole life: files are opened, appended to, flushed and
closed, metadata arrives, and the store is closed and opened again. The root
hash is the exclusive or of the hashes of all files, as long as the names of
the files differ in the part that the store keeps of them.
-/
namespace Succinct.StoreRoot

open NativeStore
open Sha256 (Sees)

/-- The store with its open files. The last two fields are the history: what
was committed to each file, and what was appended to it since. -/
structure Session where
  state : DbState
  files : Name → Option FileData
  contents : Name → List UInt8
  pending : Name → List UInt8

def Session.fresh : Session where
  state := openDb emptyDatabase
  files := fun _ => none
  contents := fun _ => []
  pending := fun _ => []

inductive Op where
  | fileOpen (name : Name)
  | fileClose (name : Name)
  | append (name : Name) (data : List UInt8)
  | flush (name : Name) (expectedHash : List UInt8) (commits : Bool)
  | metadata (msg : List UInt8) (commits : Bool)
  | reopen

def flushFile (s : Session) (name : Name) (file : FileData) (expectedHash : List UInt8)
    (commits : Bool) : Session :=
  let result := fileFlush s.state file expectedHash commits
  { state := result.2.1
    files := Function.update s.files name (some result.2.2)
    contents := if result.1 = 1 then
        Function.update s.contents name (s.contents name ++ s.pending name)
      else s.contents
    pending := Function.update s.pending name [] }

/-- A name is opened once, and used while it is open. -/
def step (s : Session) : Op → Option Session
  | .fileOpen name =>
    match s.files name with
    | some _ => none
    | none => do
      let file ← fileOpen s.state name
      some { s with files := Function.update s.files name (some file)
                    pending := Function.update s.pending name [] }
  | .fileClose name => some { s with files := Function.update s.files name none }
  | .append name data => do
    let file ← s.files name
    some { s with files := Function.update s.files name (some (fileAppend file data))
                  pending := Function.update s.pending name (s.pending name ++ data) }
  | .flush name expectedHash commits => do
    let file ← s.files name
    some (flushFile s name file expectedHash commits)
  | .metadata msg commits => do
    let state ← receiveMetadata s.state msg commits
    some { s with state := state }
  | .reopen => some { s with state := openDb s.state.db }

def run : List Op → Session → Option Session
  | [], s => some s
  | op :: rest, s => (step s op).bind (run rest)

def Op.names : Op → List Name
  | .fileOpen name => [name]
  | .fileClose name => [name]
  | .append name _ => [name]
  | .flush name _ _ => [name]
  | .metadata _ _ => []
  | .reopen => []

def DistinctNames (ops : List Op) : Prop :=
  ∀ a ∈ ops.flatMap Op.names, ∀ b ∈ ops.flatMap Op.names, fileKey a = fileKey b → a = b

def xorHashes (files : Finset Name) (contents : Name → List UInt8) : List UInt8 :=
  (List.range 32).map fun i =>
    files.fold (fun a b : UInt8 => a ^^^ b) 0 fun name => (Sha256.hash (contents name)).getD i 0

structure RootOfFiles (s : Session) (files : Finset Name) : Prop where
  nonempty : ∀ name, name ∈ files ↔ s.contents name ≠ []
  memory : s.state.root.hash = xorHashes files s.contents
  persisted : ∀ root, s.state.db.root = some root → root.hash = xorHashes files s.contents
  absent : s.state.db.root = none → files = ∅

theorem xor_cancel (a b c : UInt8) : a ^^^ b ^^^ c ^^^ a = c ^^^ b := by
  rw [UInt8.xor_comm _ a, UInt8.xor_assoc a, ← UInt8.xor_assoc a a,
    UInt8.xor_self, UInt8.zero_xor, UInt8.xor_comm]

/-- One value in a fold of exclusive ors is replaced. -/
theorem fold_xor_update (files : Finset Name) (f : Name → UInt8) (name : Name) (v : UInt8) :
    (insert name files).fold (fun a b : UInt8 => a ^^^ b) 0 (Function.update f name v) =
      files.fold (fun a b : UInt8 => a ^^^ b) 0 f ^^^ v ^^^ (if name ∈ files
        then f name else 0) := by
  have hrest : ∀ s : Finset Name, name ∉ s →
      s.fold (fun a b : UInt8 => a ^^^ b) 0 (Function.update f name v) =
        s.fold (fun a b : UInt8 => a ^^^ b) 0 f := by
    intro s hname
    apply Finset.fold_congr
    intro x hx
    rw [Function.update_of_ne]
    rintro rfl
    exact hname hx
  by_cases hmem : name ∈ files
  · have herase : name ∉ files.erase name := Finset.notMem_erase name files
    have hfiles : insert name files = insert name (files.erase name) := by
      rw [Finset.insert_erase hmem, Finset.insert_eq_of_mem hmem]
    have hfold : files.fold (fun a b : UInt8 => a ^^^ b) 0 f =
        f name ^^^ (files.erase name).fold (fun a b : UInt8 => a ^^^ b) 0 f := by
      conv_lhs => rw [← Finset.insert_erase hmem]
      exact Finset.fold_insert herase
    rw [hfiles, Finset.fold_insert herase, Function.update_self, hrest _ herase,
      if_pos hmem, hfold, xor_cancel]
  · rw [Finset.fold_insert hmem, Function.update_self, hrest _ hmem, if_neg hmem, UInt8.xor_zero,
      UInt8.xor_comm]

theorem length_xorHashes (files : Finset Name) (contents : Name → List UInt8) :
    (xorHashes files contents).length = 32 := by
  rw [xorHashes, List.length_map, List.length_range]

theorem getD_xorHashes (files : Finset Name) (contents : Name → List UInt8)
    {i : ℕ} (hi : i < 32) :
    (xorHashes files contents).getD i 0 = files.fold (fun a b : UInt8 => a ^^^ b) 0
      fun name => (Sha256.hash (contents name)).getD i 0 := by
  have hlen : i < (xorHashes files contents).length := by
    rw [length_xorHashes]
    exact hi
  rw [List.getD_eq_getElem _ _ hlen]
  simp only [xorHashes, List.getElem_map, List.getElem_range]

theorem getD_hashMemory (record : FileRecord) (h : record.hash.length = 32)
    {i : ℕ} (hi : i < 32) :
    (hashMemory record).getD i 0 = record.hash.getD i 0 := by
  rw [hashMemory, List.getD_append _ _ _ _ (by omega)]

/-- The byte past the hash does not reach the root. -/
theorem flushedRoot_hash {root : RootState} {file : FileData} {content pending : List UInt8}
    (h : Tracks file content pending) (hroot : root.hash.length = 32) :
    (flushedRoot root file).hash = (List.range 32).map fun i =>
      root.hash.getD i 0 ^^^ (Sha256.hash (content ++ pending)).getD i 0 ^^^
        (fileHash content).getD i 0 := by
  have hnew : (flushed file).hash = Sha256.hash (content ++ pending) := h.newHash.final
  have hold : file.hash = fileHash content := h.holds.hash
  have hrange : (List.range 33).take 32 = List.range 32 := by decide
  simp only [flushedRoot, xorRoot, ← List.map_take, hrange]
  apply List.map_congr_left
  intro i hi
  have hi := List.mem_range.mp hi
  rw [List.getD_append _ _ _ _ (by omega),
    getD_hashMemory _ (by rw [hnew, Sha256.length_hash]) hi,
    getD_hashMemory _ (by rw [hold, length_fileHash]) hi, hnew, hold]

/-- A flush replaces the hash of one file in the root. -/
theorem flushedRoot_xorHashes {root : RootState} {file : FileData} {files : Finset Name}
    {contents : Name → List UInt8} {name : Name} {pending : List UInt8}
    (h : Tracks file (contents name) pending)
    (hfiles : name ∈ files ↔ contents name ≠ []) (hroot : root.hash = xorHashes files contents) :
    (flushedRoot root file).hash =
      xorHashes (insert name files)
        (Function.update contents name (contents name ++ pending)) := by
  have hlen : root.hash.length = 32 := by
    rw [hroot, length_xorHashes]
  rw [flushedRoot_hash h hlen, xorHashes]
  apply List.map_congr_left
  intro i hi
  have hi := List.mem_range.mp hi
  have hupdate : (fun n => (Sha256.hash (Function.update contents name
      (contents name ++ pending) n)).getD i 0) =
        Function.update (fun n => (Sha256.hash (contents n)).getD i 0) name
          ((Sha256.hash (contents name ++ pending)).getD i 0) := by
    funext n
    by_cases hn : n = name
    · subst hn
      rw [Function.update_self, Function.update_self]
    · rw [Function.update_of_ne hn, Function.update_of_ne hn]
  have hbyte : root.hash.getD i 0 = files.fold (fun a b : UInt8 => a ^^^ b) 0
      fun n => (Sha256.hash (contents n)).getD i 0 := by
    rw [hroot, getD_xorHashes _ _ hi]
  have hold : (fileHash (contents name)).getD i 0 =
      if name ∈ files then (Sha256.hash (contents name)).getD i 0 else 0 := by
    by_cases hnil : contents name = []
    · have hzero : zeroHash.getD i 0 = 0 := by
        rw [zeroHash, List.getD_replicate _ hi]
      rw [if_neg (fun hmem => hfiles.mp hmem hnil), fileHash, if_pos hnil, hzero]
    · rw [if_pos (hfiles.mpr hnil), fileHash, if_neg hnil]
  rw [hupdate, fold_xor_update, hbyte, hold]

structure Consistent (names : List Name) (s : Session) : Prop where
  absent : ∀ name ∈ names, s.state.db.files (fileKey name) = none → s.contents name = []
  record : ∀ name ∈ names, ∀ record, s.state.db.files (fileKey name) = some record →
    Holds record (s.contents name)
  tracks : ∀ name ∈ names, ∀ file, s.files name = some file →
    Tracks file (s.contents name) (s.pending name) ∧ file.name = fileKey name
  version : s.state.root.version = VERSION
  stored : s.state.db.root = some s.state.root ∨
    (s.state.db.root = none ∧ s.state.root.hash = zeroHash ∧ ∀ name, s.contents name = [])
  root : ∃ files, (∀ name, name ∈ files ↔ s.contents name ≠ []) ∧
    s.state.root.hash = xorHashes files s.contents

theorem xorHashes_empty (contents : Name → List UInt8) : xorHashes ∅ contents = zeroHash := by
  simp only [xorHashes, Finset.fold_empty]
  rfl

theorem fresh_consistent (names : List Name) : Consistent names Session.fresh where
  absent _ _ _ := rfl
  record _ _ _ h := by cases h
  tracks _ _ _ h := by cases h
  version := rfl
  stored := Or.inr ⟨rfl, rfl, fun _ => rfl⟩
  root := ⟨∅, by simp [Session.fresh], (xorHashes_empty _).symm⟩

theorem openDb_eq {state : DbState} (hversion : state.root.version = VERSION)
    (h : state.db.root = some state.root ∨ (state.db.root = none ∧ state.root.hash = zeroHash)) :
    openDb state.db = state := by
  obtain ⟨db, hash, version⟩ := state
  rcases h with h | ⟨h, hzero⟩
  · simp only at h hversion
    subst hversion
    simp [openDb, h]
  · simp only at h hversion hzero
    subst hversion hzero
    simp [openDb, h]

namespace Consistent

variable {names : List Name} {s : Session}

theorem reopen (h : Consistent names s) : openDb s.state.db = s.state := by
  refine openDb_eq h.version ?_
  rcases h.stored with hroot | ⟨hroot, hzero, -⟩
  · exact Or.inl hroot
  · exact Or.inr ⟨hroot, hzero⟩

/-- Only the open files change. -/
theorem with_file (h : Consistent names s) (name : Name) (file : Option FileData)
    (pending : List UInt8)
    (hfile : name ∈ names → ∀ f, file = some f →
      Tracks f (s.contents name) pending ∧ f.name = fileKey name) :
    Consistent names { s with files := Function.update s.files name file
                              pending := Function.update s.pending name pending } where
  absent := h.absent
  record := h.record
  tracks := by
    intro n hn f hf
    by_cases heq : n = name
    · subst heq
      simp only [Function.update_self] at hf ⊢
      exact hfile hn f hf
    · simp only [Function.update_of_ne heq] at hf ⊢
      exact h.tracks n hn f hf
  version := h.version
  stored := h.stored
  root := h.root

theorem flush (h : Consistent names s)
    (hnames : ∀ a ∈ names, ∀ b ∈ names, fileKey a = fileKey b → a = b) {name : Name}
    (hname : name ∈ names) {file : FileData} (hfile : s.files name = some file)
    (expectedHash : List UInt8) (commits : Bool) :
    Consistent names (flushFile s name file expectedHash commits) := by
  obtain ⟨htracks, hkey⟩ := h.tracks name hname file hfile
  rcases fileFlush_cases htracks s.state expectedHash commits with
    ⟨hpending, hflush⟩ | ⟨hpending, hflush⟩ | ⟨hpending, -, hflush⟩
  · rw [flushFile, hflush]
    refine h.with_file name (some file) [] ?_
    rintro - f hf
    obtain rfl := Option.some.inj hf
    rw [← hpending]
    exact ⟨htracks, hkey⟩
  · rw [flushFile, hflush]
    refine h.with_file name _ [] ?_
    rintro - f hf
    obtain rfl := Option.some.inj hf
    exact ⟨htracks.rewind, hkey⟩
  · obtain ⟨files, hfiles, hroot⟩ := h.root
    have hnew := htracks.flushed hpending
    rw [flushFile, hflush]
    refine ⟨?_, ?_, ?_, rfl, Or.inl rfl, insert name files, ?_, ?_⟩
    · intro n hn hnone
      simp only [commitFile, hkey, if_true] at hnone ⊢
      by_cases heq : n = name
      · subst heq
        rw [Function.update_self] at hnone
        cases hnone
      · rw [Function.update_of_ne (fun hk => heq (hnames n hn name hname hk))] at hnone
        rw [Function.update_of_ne heq]
        exact h.absent n hn hnone
    · intro n hn record hrecord
      simp only [commitFile, hkey, if_true] at hrecord ⊢
      by_cases heq : n = name
      · subst heq
        rw [Function.update_self] at hrecord
        obtain rfl := Option.some.inj hrecord
        rw [Function.update_self]
        exact hnew.holds
      · rw [Function.update_of_ne (fun hk => heq (hnames n hn name hname hk))] at hrecord
        rw [Function.update_of_ne heq]
        exact h.record n hn record hrecord
    · intro n hn f hf
      simp only [if_true] at hf ⊢
      by_cases heq : n = name
      · subst heq
        rw [Function.update_self] at hf
        obtain rfl := Option.some.inj hf
        rw [Function.update_self, Function.update_self]
        exact ⟨hnew, hkey⟩
      · rw [Function.update_of_ne heq] at hf
        rw [Function.update_of_ne heq, Function.update_of_ne heq]
        exact h.tracks n hn f hf
    · intro n
      simp only [if_true, Finset.mem_insert]
      by_cases heq : n = name
      · subst heq
        rw [Function.update_self]
        have hne : s.contents n ++ s.pending n ≠ [] := by
          intro hnil
          exact hpending (List.append_eq_nil_iff.mp hnil).2
        exact ⟨fun _ => hne, fun _ => Or.inl rfl⟩
      · rw [Function.update_of_ne heq, ← hfiles n]
        simp [heq]
    · simp only [if_true]
      exact flushedRoot_xorHashes htracks (hfiles name) hroot

theorem with_index (h : Consistent names s) (index : List UInt8 → Option FileVersion) :
    Consistent names { s with state := { s.state
      with db := { s.state.db with index := index } } } :=
  ⟨h.absent, h.record, h.tracks, h.version, h.stored, h.root⟩

theorem step (h : Consistent names s)
    (hnames : ∀ a ∈ names, ∀ b ∈ names, fileKey a = fileKey b → a = b) {op : Op}
    (hop : ∀ name ∈ op.names, name ∈ names) {s' : Session}
    (hstep : StoreRoot.step s op = some s') :
    Consistent names s' := by
  cases op with
  | fileOpen name =>
    have hname : name ∈ names := hop name List.mem_cons_self
    simp only [StoreRoot.step] at hstep
    split at hstep
    · cases hstep
    · obtain ⟨file, hopen, heq⟩ := Option.bind_eq_some_iff.mp hstep
      obtain rfl := Option.some.inj heq
      refine h.with_file name (some file) [] ?_
      rintro - f hf
      obtain rfl := Option.some.inj hf
      exact fileOpen_tracks hopen (h.absent name hname) (h.record name hname)
  | fileClose name =>
    obtain rfl := Option.some.inj hstep
    have hclose := h.with_file name none (s.pending name) (by
      rintro - f hf
      cases hf)
    rwa [Function.update_eq_self] at hclose
  | append name data =>
    obtain ⟨file, hfile, heq⟩ := Option.bind_eq_some_iff.mp hstep
    obtain rfl := Option.some.inj heq
    refine h.with_file name _ _ ?_
    intro hname f hf
    obtain rfl := Option.some.inj hf
    obtain ⟨htracks, hkey⟩ := h.tracks name hname file hfile
    exact ⟨htracks.append data, hkey⟩
  | flush name expectedHash commits =>
    obtain ⟨file, hfile, heq⟩ := Option.bind_eq_some_iff.mp hstep
    obtain rfl := Option.some.inj heq
    exact h.flush hnames (hop name List.mem_cons_self) hfile expectedHash commits
  | metadata msg commits =>
    obtain ⟨state, hreceive, heq⟩ := Option.bind_eq_some_iff.mp hstep
    obtain rfl := Option.some.inj heq
    rw [receiveMetadata] at hreceive
    split at hreceive
    · obtain rfl := Option.some.inj hreceive
      exact h
    · simp only [Option.bind_eq_bind, Option.bind_eq_some_iff] at hreceive
      obtain ⟨⟨key, version⟩, -, hreceive⟩ := hreceive
      split at hreceive
      · obtain rfl := Option.some.inj hreceive
        exact h.with_index _
      · obtain rfl := Option.some.inj hreceive
        exact h
  | reopen =>
    obtain rfl := Option.some.inj hstep
    rw [h.reopen]
    exact h

theorem run (ops : List Op) (h : Consistent names s)
    (hnames : ∀ a ∈ names, ∀ b ∈ names, fileKey a = fileKey b → a = b)
    (hops : ∀ name ∈ ops.flatMap Op.names, name ∈ names) {s' : Session}
    (hrun : StoreRoot.run ops s = some s') : Consistent names s' := by
  induction ops generalizing s with
  | nil =>
    obtain rfl := Option.some.inj hrun
    exact h
  | cons op rest ih =>
    obtain ⟨s1, hstep, hrest⟩ := Option.bind_eq_some_iff.mp hrun
    refine ih (h.step hnames ?_ hstep) ?_ hrest
    · intro name hname
      exact hops name (List.mem_flatMap.mpr ⟨op, List.mem_cons_self, hname⟩)
    · intro name hname
      obtain ⟨op', hop', hin⟩ := List.mem_flatMap.mp hname
      exact hops name (List.mem_flatMap.mpr ⟨op', List.mem_cons_of_mem op hop', hin⟩)

theorem rootOfFiles (h : Consistent names s) : ∃ files, RootOfFiles s files := by
  obtain ⟨files, hfiles, hroot⟩ := h.root
  refine ⟨files, hfiles, hroot, ?_, ?_⟩
  · intro root hsome
    rcases h.stored with hstored | ⟨hnone, -⟩
    · rw [hstored] at hsome
      rw [← Option.some.inj hsome, hroot]
    · rw [hnone] at hsome
      cases hsome
  · intro hnone
    rcases h.stored with hstored | ⟨-, -, hempty⟩
    · rw [hstored] at hnone
      cases hnone
    · apply Finset.eq_empty_of_forall_notMem
      intro name hname
      exact (hfiles name).mp hname (hempty name)

end Consistent

theorem run_rootOfFiles {ops : List Op} (hnames : DistinctNames ops) {s : Session}
    (hrun : run ops Session.fresh = some s) : ∃ files, RootOfFiles s files :=
  ((fresh_consistent _).run ops hnames (fun _ h => h) hrun).rootOfFiles

/-- In every run over names that the store can tell apart, the root hash is a
function of the committed contents. -/
theorem root_hash_of_contents (ops : List Op) (hnames : DistinctNames ops) (s : Session)
    (hrun : run ops Session.fresh = some s) :
    (∃ files, RootOfFiles s files) ∧
      ∀ ops' s', DistinctNames ops' → run ops' Session.fresh = some s' →
        s'.contents = s.contents → s'.state.root.hash = s.state.root.hash := by
  refine ⟨run_rootOfFiles hnames hrun, ?_⟩
  intro ops' s' hnames' hrun' hcontents
  obtain ⟨files, hroot⟩ := run_rootOfFiles hnames hrun
  obtain ⟨files', hroot'⟩ := run_rootOfFiles hnames' hrun'
  have hfiles : files' = files := by
    ext name
    rw [hroot'.nonempty, hroot.nonempty, hcontents]
  rw [hroot'.memory, hroot.memory, hfiles, hcontents]

def oneFlush : List Op :=
  [.fileOpen [0x61], .append [0x61] [1, 2], .flush [0x61] [] true, .fileOpen [0x62],
    .append [0x62] [3], .flush [0x62] [] true]

def twoFlushes : List Op :=
  [.fileOpen [0x62], .append [0x62] [3], .flush [0x62] [] true, .fileOpen [0x61],
    .append [0x61] [1], .flush [0x61] [] true, .reopen, .append [0x61] [2],
      .flush [0x61] [9] true,
    .append [0x61] [2], .flush [0x61] [] true]

theorem root_hash_of_contents_flushes : ∃ s s', run oneFlush Session.fresh = some s ∧
    run twoFlushes Session.fresh = some s' ∧ s.contents [0x61] = [1, 2] ∧
      s'.contents [0x61] = [1, 2] ∧ (∃ files, RootOfFiles s files) ∧
        ∃ files, RootOfFiles s' files := by
  have hends : (run oneFlush Session.fresh).map (fun s => s.contents [0x61]) = some [1, 2] ∧
      (run twoFlushes Session.fresh).map (fun s => s.contents [0x61]) = some [1, 2] := by
    decide +kernel
  obtain ⟨s, hrun, hs⟩ := Option.map_eq_some_iff.mp hends.1
  obtain ⟨s', hrun', hs'⟩ := Option.map_eq_some_iff.mp hends.2
  exact ⟨s, s', hrun, hrun', hs, hs',
    (root_hash_of_contents oneFlush (by unfold DistinctNames; decide) s hrun).1,
    (root_hash_of_contents twoFlushes (by unfold DistinctNames; decide) s' hrun').1⟩

/-- Nothing is committed to a file that is not used. -/
theorem contents_unused (ops : List Op) (name : Name) (hname : name ∉ ops.flatMap Op.names)
    {s s' : Session} (hrun : run ops s = some s') : s'.contents name = s.contents name := by
  induction ops generalizing s with
  | nil =>
    obtain rfl := Option.some.inj hrun
    rfl
  | cons op rest ih =>
    rw [List.flatMap_cons, List.mem_append, not_or] at hname
    obtain ⟨s1, hstep, hrest⟩ := Option.bind_eq_some_iff.mp hrun
    rw [ih hname.2 hrest]
    cases op with
    | fileOpen n =>
      simp only [step] at hstep
      split at hstep
      · cases hstep
      · obtain ⟨file, -, heq⟩ := Option.bind_eq_some_iff.mp hstep
        obtain rfl := Option.some.inj heq
        rfl
    | fileClose n =>
      obtain rfl := Option.some.inj hstep
      rfl
    | append n data =>
      obtain ⟨file, -, heq⟩ := Option.bind_eq_some_iff.mp hstep
      obtain rfl := Option.some.inj heq
      rfl
    | flush n expectedHash commits =>
      obtain ⟨file, -, heq⟩ := Option.bind_eq_some_iff.mp hstep
      obtain rfl := Option.some.inj heq
      have hne : name ≠ n := by
        rintro rfl
        exact hname.1 List.mem_cons_self
      simp only [flushFile]
      split
      · rw [Function.update_of_ne hne]
      · rfl
    | metadata msg commits =>
      obtain ⟨state, -, heq⟩ := Option.bind_eq_some_iff.mp hstep
      obtain rfl := Option.some.inj heq
      rfl
    | reopen =>
      obtain rfl := Option.some.inj hstep
      rfl

def longName (last : UInt8) : Name := List.replicate 255 0x61 ++ [last]

def longNames : List Op :=
  [.fileOpen (longName 0x62), .append (longName 0x62) [1], .flush (longName 0x62) [] true,
    .fileClose (longName 0x62), .fileOpen (longName 0x63), .append (longName 0x63) [2],
    .flush (longName 0x63) [] true]

theorem longNames_ends : (run longNames Session.fresh).map (fun s =>
    (s.contents (longName 0x62), s.contents (longName 0x63), s.state.root.hash.getD 0 0)) =
      some ([1], [2], 0xa1) := by
  decide +kernel

theorem root_hash_of_long_names : ∃ s, run longNames Session.fresh = some s ∧
    ¬ ∃ files, RootOfFiles s files := by
  obtain ⟨s, hrun, hs⟩ := Option.map_eq_some_iff.mp longNames_ends
  simp only [Prod.mk.injEq] at hs
  obtain ⟨hfirst, hsecond, hbyte⟩ := hs
  refine ⟨s, hrun, ?_⟩
  rintro ⟨files, hroot⟩
  have hfiles : files = {longName 0x62, longName 0x63} := by
    ext name
    rw [hroot.nonempty, Finset.mem_insert, Finset.mem_singleton]
    constructor
    · intro hname
      by_contra hother
      apply hname
      refine contents_unused longNames name ?_ hrun
      simpa [longNames, Op.names] using hother
    · rintro (rfl | rfl)
      · simp [hfirst]
      · simp [hsecond]
  have hne : longName 0x62 ∉ ({longName 0x63} : Finset Name) := by
    rw [Finset.mem_singleton, longName, longName, List.append_cancel_left_eq]
    decide
  have hxor : s.state.root.hash.getD 0 0 = (Sha256.hash [1]).getD 0 0 ^^^
    (Sha256.hash [2]).getD 0 0 := by
    rw [hroot.memory, hfiles, getD_xorHashes _ _ (by omega), Finset.fold_insert hne,
      Finset.fold_singleton, hfirst, hsecond, UInt8.xor_zero]
  rw [hbyte] at hxor
  revert hxor
  decide +kernel

end Succinct.StoreRoot
