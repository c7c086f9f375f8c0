import Succinct.Provenance
import Succinct.StoreRoot

/-!
What is left of a team when its process ends. A flush that succeeds writes the
record of its file, its entry in the index and the root in one transaction, so
the store that is opened next has the committed bytes of every file and no
others.
-/
namespace Succinct.TeamRestarts

open NativeStore RecordStore RecordRefinement Provenance
open Sha256 (Sees)

/-- What a call writes to the native store: nothing, or the transaction of one
flush. -/
inductive Commits (s : Store) (a a' : AppendOnly) (state : DbState) : Prop where
  | nothing (hstate : state = s.state) (hcommitted : a'.committed = a.committed)
  | flush (record : FileRecord) (root : RootState)
      (hstate : state = commitFile s.state s.file.name record root)
      (hrecord : Holds record a'.committed) (hcontent : a'.committed ≠ [])
      (hversion : root.version = VERSION)

theorem flush_commits {s : Store} {a : AppendOnly} (h : Mirrors s a)
    (expectedHash : Option (List UInt8)) (commits : Bool) :
    Commits s a (a.applyAll (flush s expectedHash commits).effects)
      (flush s expectedHash commits).store.state := by
  rw [flush]
  rcases jniFlush_cases h expectedHash commits with
    ⟨-, hflush⟩ | ⟨-, hflush⟩ | ⟨hpending, hflush, -⟩
  · rw [hflush]
    exact .nothing rfl rfl
  · rw [hflush]
    exact .nothing rfl rfl
  · rw [hflush]
    refine .flush (flushed s.file).toFileRecord (flushedRoot s.state.root s.file) rfl
      (h.tracks.flushed hpending).holds ?_ rfl
    intro hnil
    exact hpending (List.append_eq_nil_iff.mp hnil).2

theorem finishTransfer_commits {s : Store} {a : AppendOnly} (h : Mirrors s a) (commits : Bool) :
    Commits s a (a.applyAll (finishTransfer s commits).effects)
      (finishTransfer s commits).store.state := by
  rw [finishTransfer]
  split
  · exact .nothing rfl rfl
  split
  case isTrue transfer _ _ =>
    have hflush := flush_commits h (some transfer.expectedHash) commits
    dsimp only
    split
    · exact hflush
    · exact hflush
  case isFalse =>
    exact .nothing rfl rfl

/-- A call that appends first writes what the call after it writes. -/
theorem Commits.of_appends {s : Store} {a a' : AppendOnly} {c : Call} {state : DbState}
    (h : Commits c.store (a.applyAll c.effects) a' state) (hc : Appends s c) :
    Commits s a a' state := by
  have hcommitted : (a.applyAll c.effects).committed = a.committed := by
    rcases hc.effects with heffects | ⟨data, heffects⟩
    · rw [heffects]
      rfl
    · rw [heffects]
      rfl
  cases h with
  | nothing hstate hsame => exact .nothing (hstate.trans hc.state) (hsame.trans hcommitted)
  | flush record root hstate hrecord hcontent hversion =>
    rw [hc.state, hc.name] at hstate
    exact .flush record root hstate hrecord hcontent hversion

theorem Commits.of_append {s : Store} {a : AppendOnly} {c : Call} (hc : Appends s c) :
    Commits s a (a.applyAll c.effects) c.store.state :=
  of_appends (.nothing rfl rfl) hc

theorem call_commits {s : Store} {a : AppendOnly} (h : Mirrors s a) (op : Op) :
    Commits s a (a.applyAll (call s op).effects) (call s op).store.state := by
  cases op with
  | append bytes offset length => exact Commits.of_append (append_appends s bytes offset length)
  | appendAt fileOffset bytes commits =>
    rw [call, appendAt]
    split
    · exact .nothing rfl rfl
    have happends := append_appends s bytes (toInt (s.appendOffset - fileOffset))
      (toInt (bytes.length - toInt (s.appendOffset - fileOffset)))
    have hmirrors := append_mirrors h bytes (toInt (s.appendOffset - fileOffset))
      (toInt (bytes.length - toInt (s.appendOffset - fileOffset)))
    dsimp only
    split
    · exact Commits.of_append happends
    · rw [AppendOnly.applyAll_append]
      exact Commits.of_appends (finishTransfer_commits hmirrors commits) happends
  | appendRecord record commits =>
    have happends := append_appends s (completeRecord record) 0 (completeRecord record).length
    have hmirrors := append_mirrors h (completeRecord record) 0 (completeRecord record).length
    rw [call, appendRecord]
    dsimp only
    split
    · exact Commits.of_append happends
    · rw [AppendOnly.applyAll_append]
      exact Commits.of_appends (flush_commits hmirrors none commits) happends
  | flush expectedHash commits => exact flush_commits h expectedHash commits
  | setTranfer transfer =>
    refine .nothing ?_ rfl
    rw [call, setTranfer]
    split
    · rfl
    · rfl
  | cancel transfer =>
    refine .nothing ?_ rfl
    rw [call, cancel]
    split
    · rfl
    · rfl

section

variable {Path : Type}

def committed (t : Team Path) (name : Name) : List UInt8 := bytesOf (t.history name).committed

def pending (t : Team Path) (name : Name) : List UInt8 := bytesOf (t.history name).pending

/-- The native store has a record for the committed bytes of each file, and is
left as it is when it is opened again. -/
structure Durable (names : List Name) (t : Team Path) : Prop where
  absent : ∀ name ∈ names, t.state.db.files (fileKey name) = none → committed t name = []
  record : ∀ name ∈ names, ∀ record, t.state.db.files (fileKey name) = some record →
    Holds record (committed t name)
  version : t.state.root.version = VERSION
  root : t.state.db.root = some t.state.root ∨
    (t.state.db.root = none ∧ t.state.root.hash = zeroHash)

def restart (t : Team Path) : Team Path where
  state := openDb t.state.db
  disk := t.disk
  stores := fun _ => none
  history := fun name => History.start (committed t name)

theorem restart_state {names : List Name} {t : Team Path} (h : Durable names t) :
    (restart t).state = t.state :=
  StoreRoot.openDb_eq h.version h.root

theorem committed_restart (t : Team Path) (name : Name) :
    committed (restart t) name = committed t name := bytesOf_tag _ _

theorem pending_restart (t : Team Path) (name : Name) : pending (restart t) name = [] := rfl

theorem restart_durable {names : List Name} {t : Team Path} (h : Durable names t) :
    Durable names (restart t) where
  absent name hname := by
    rw [restart_state h, committed_restart]
    exact h.absent name hname
  record name hname := by
    rw [restart_state h, committed_restart]
    exact h.record name hname
  version := by
    rw [restart_state h]
    exact h.version
  root := by
    rw [restart_state h]
    exact h.root

variable {resolve : Name → Path}

/-- The bytes on disk start with what is committed and pending. -/
theorem disk_starts {base : Name → List UInt8} {names : List Name} {t : Team Path}
    (h : Sound resolve base names t) {name : Name} (hname : name ∈ names) :
    committed t name ++ pending t name <+: t.disk (resolve name) := by
  cases hstore : t.stores name with
  | none =>
    obtain ⟨hhistory, -, -, hdisk⟩ := h.closed name hname hstore
    rw [committed, pending, hhistory]
    simp only [History.start, bytesOf_tag]
    rw [bytesOf, List.map_nil, List.append_nil]
    exact hdisk
  | some s => exact (h.opened name hname s hstore).1.disk

theorem restart_sound {base : Name → List UInt8} {names : List Name} {t : Team Path}
    (h : Sound resolve base names t) (hd : Durable names t) :
    Sound resolve (committed t) names (restart t) := by
  apply StartsWith.sound
  refine ⟨rfl, rfl, ?_, ?_, ?_⟩
  · intro name hname
    rw [restart_state hd]
    exact hd.absent name hname
  · intro name hname
    rw [restart_state hd]
    exact hd.record name hname
  · intro name hname
    exact (List.prefix_append _ _).trans (disk_starts h hname)

/-- What a step does: it makes a call on the file that it names, and the other
files keep their stores and their histories. -/
structure Stepped (resolve : Name → Path) (t : Team Path) (op : TeamOp)
    (s : Store) (t' : Team Path) :
    Prop where
  opened : Provenance.openFile resolve t op.name = some s
  mirrors : Mirrors s ⟨committed t op.name, pending t op.name, s.file.version⟩
  name : s.file.name = fileKey op.name
  state : s.state = t.state
  store : t'.stores op.name = some (call s op.op).store
  after : t'.state = (call s op.op).store.state
  history :
    ∃ version, (⟨committed t op.name, pending t op.name, s.file.version⟩ : AppendOnly).applyAll
    (call s op.op).effects = ⟨committed t' op.name, pending t' op.name, version⟩
  others : ∀ name ≠ op.name, t'.stores name = t.stores name ∧ t'.history name = t.history name

theorem teamStep_stepped [DecidableEq Path] {base : Name → List UInt8} {names : List Name}
    {t t' : Team Path} (h : Sound resolve base names t) {op : TeamOp} (hname : op.name ∈ names)
    (hstep : teamStep resolve t op = some t') : ∃ s, Stepped resolve t op s t' := by
  obtain ⟨s, hopen, heq⟩ := Option.bind_eq_some_iff.mp hstep
  obtain rfl := Option.some.inj heq
  obtain ⟨hmirrors, hkey, hstate⟩ := openFile_mirrors h hname hopen
  refine ⟨s, hopen, hmirrors, hkey, hstate, Function.update_self .., rfl, ?_, ?_⟩
  · obtain ⟨version, hfile⟩ := file_applyAll op.origin (call s op.op).effects
      (t.history op.name) s.file.version
    refine ⟨version, ?_⟩
    simp only [committed, pending, Function.update_self]
    exact hfile
  · intro name hne
    exact ⟨Function.update_of_ne hne _ _, Function.update_of_ne hne _ _⟩

variable {t t' : Team Path} {op : TeamOp} {s : Store}

theorem Stepped.commits (h : Stepped resolve t op s t') :
    Commits s ⟨committed t op.name, pending t op.name, s.file.version⟩
      ⟨committed t' op.name, pending t' op.name, s.file.version⟩ t'.state := by
  obtain ⟨version, hhistory⟩ := h.history
  have hcommits := call_commits h.mirrors op.op
  rw [hhistory, ← h.after] at hcommits
  cases hcommits with
  | nothing hstate hcommitted => exact .nothing hstate hcommitted
  | flush record root hstate hrecord hcontent hversion =>
    exact .flush record root hstate hrecord hcontent hversion

theorem Stepped.committed_others (h : Stepped resolve t op s t') {name : Name}
    (hne : name ≠ op.name) :
    committed t' name = committed t name ∧ pending t' name = pending t name := by
  obtain ⟨-, hhistory⟩ := h.others name hne
  rw [committed, committed, pending, pending, hhistory]
  exact ⟨rfl, rfl⟩

theorem files_commitFile (state : DbState) (name key : Name) (record : FileRecord)
    (root : RootState) :
    (commitFile state name record root).db.files key =
      if key = name then some record else state.db.files key :=
  Function.update_apply ..

theorem Stepped.durable {names : List Name} (h : Stepped resolve t op s t') (hd : Durable names t)
    (hdistinct : ∀ a ∈ names, ∀ b ∈ names, a ≠ b → fileKey a ≠ fileKey b)
    (hname : op.name ∈ names) :
    Durable names t' := by
  have hother : ∀ name ∈ names, name ≠ op.name → fileKey name ≠ s.file.name := by
    intro name hn hne
    rw [h.name]
    exact hdistinct name hn op.name hname hne
  cases h.commits with
  | nothing hstate hcommitted =>
    rw [h.state] at hstate
    have hsame : ∀ name, committed t' name = committed t name := by
      intro name
      by_cases hne : name = op.name
      · rw [hne]
        exact hcommitted
      · exact (h.committed_others hne).1
    refine ⟨?_, ?_, ?_, ?_⟩
    · intro name hn
      rw [hstate, hsame]
      exact hd.absent name hn
    · intro name hn
      rw [hstate, hsame]
      exact hd.record name hn
    · rw [hstate]
      exact hd.version
    · rw [hstate]
      exact hd.root
  | flush record root hstate hrecord hcontent hversion =>
    rw [h.state] at hstate
    refine ⟨?_, ?_, ?_, ?_⟩
    · intro name hn hnone
      by_cases hne : name = op.name
      · rw [hstate, files_commitFile, h.name, hne, if_pos rfl] at hnone
        cases hnone
      · rw [hstate, files_commitFile, if_neg (hother name hn hne)] at hnone
        rw [(h.committed_others hne).1]
        exact hd.absent name hn hnone
    · intro name hn r hr
      by_cases hne : name = op.name
      · rw [hstate, files_commitFile, h.name, hne, if_pos rfl] at hr
        obtain rfl := Option.some.inj hr
        rw [hne]
        exact hrecord
      · rw [hstate, files_commitFile, if_neg (hother name hn hne)] at hr
        rw [(h.committed_others hne).1]
        exact hd.record name hn r hr
    · rw [hstate]
      exact hversion
    · rw [hstate]
      exact Or.inl rfl

end

end Succinct.TeamRestarts
