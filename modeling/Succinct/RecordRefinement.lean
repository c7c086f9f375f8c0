import Succinct.RecordStore

/-!
A RecordStore refines a file that is only appended to, and whose pending bytes
are committed all together or not at all. The offsets of Java, the lengths and
hashes of the native file and the bytes on disk always tell the same content;
only the hash of a file that was never flushed is not that of its content.
-/
namespace Succinct.RecordRefinement

open NativeStore RecordStore
open Sha256 (Sees)

structure AppendOnly where
  committed : List UInt8
  pending : List UInt8
  version : UInt32

namespace AppendOnly

/-- A flush that succeeds commits all pending bytes, one that fails discards
them, and one without pending bytes does nothing. -/
def apply (a : AppendOnly) : Effect → AppendOnly
  | .append data => { a with pending := a.pending ++ data }
  | .flush _ ret =>
    if ret > 0 then ⟨a.committed ++ a.pending, [], a.version + 1⟩ else { a with pending := [] }

def applyAll (a : AppendOnly) (effects : List Effect) : AppendOnly := effects.foldl apply a

theorem applyAll_append (a : AppendOnly) (l₁ l₂ : List Effect) :
    a.applyAll (l₁ ++ l₂) = (a.applyAll l₁).applyAll l₂ := List.foldl_append

end AppendOnly

structure Mirrors (s : Store) (a : AppendOnly) : Prop where
  tracks : Tracks s.file a.committed a.pending
  eof : s.EOF = s.file.length
  offset : s.appendOffset = s.file.newLength
  disk : a.committed ++ a.pending <+: s.disk
  fileHash : s.fileHash = s.file.hash
  version : s.file.version = a.version

namespace Mirrors

variable {s : Store} {a : AppendOnly}

theorem eof_eq (h : Mirrors s a) : s.EOF = a.committed.length := h.eof.trans h.tracks.holds.length

theorem offset_eq (h : Mirrors s a) : s.appendOffset = (a.committed ++ a.pending).length := by
  rw [h.offset, h.tracks.newLength, List.length_append]

end Mirrors

theorem writeAt_prefix {disk content : List UInt8} (h : content <+: disk) (data : List UInt8) :
    content ++ data <+: writeAt disk content.length data := by
  obtain ⟨rest, rfl⟩ := h
  have hcut : setLength ((content ++ rest).take content.length) content.length = content := by
    rw [List.take_left, setLength, List.take_length, Nat.sub_self]
    exact List.append_nil content
  rw [writeAt, hcut]
  exact List.prefix_append _ _

theorem append_mirrors {s : Store} {a : AppendOnly} (h : Mirrors s a) (bytes : List UInt8)
    (offset length : ℤ) :
    Mirrors (append s bytes offset length).store
      (a.applyAll (append s bytes offset length).effects) := by
  rw [append]
  split
  · exact h
  split
  · exact h
  · refine ⟨h.tracks.append _, h.eof, ?_, ?_, h.fileHash, h.version⟩
    · exact congrArg (fun n => n + _) h.offset
    · change a.committed ++ (a.pending ++ _) <+: writeAt s.disk s.appendOffset _
      rw [← List.append_assoc, h.offset_eq]
      exact writeAt_prefix h.disk _

def Matches (expectedHash content : List UInt8) : Prop :=
  expectedHash.take 32 = (Sha256.hash content).take expectedHash.length

theorem matches_of_memory {record : FileRecord} {expectedHash content : List UInt8}
    (h : expectedHash = [] ∨ expectedHash =
      (hashMemory { record with hash := Sha256.hash content }).take expectedHash.length) :
    Matches expectedHash content := by
  rcases h with rfl | h
  · rfl
  · have hlen := Sha256.length_hash content
    rw [Matches]
    conv_lhs => rw [h, hashMemory]
    rw [List.take_take, List.take_append_of_le_length (by
      change _ ≤ (Sha256.hash content).length
      omega)]
    change (Sha256.hash content).take _ = _
    rw [← List.take_take, List.take_of_length_le (by rw [List.length_take]; omega)]

def rewound (s : Store) : Store :=
  { s with disk := setLength s.disk s.file.length
           appendOffset := s.file.length
           EOF := s.file.length
           fileHash := s.file.hash
           file := { s.file with newLength := s.file.length, newHash := s.file.partialHash } }

def committed (s : Store) : Store :=
  { s with state := commitFile s.state s.file.name (flushed s.file).toFileRecord
             (flushedRoot s.state.root s.file)
           appendOffset := s.file.newLength
           EOF := s.file.newLength
           fileHash := (flushed s.file).hash
           file := flushed s.file }

theorem setLength_prefix {disk content : List UInt8} (h : content <+: disk) :
    setLength disk content.length = content := by
  obtain ⟨rest, rfl⟩ := h
  have hle : content.length - (content ++ rest).length = 0 := by
    rw [List.length_append]
    omega
  rw [setLength, List.take_left, hle]
  exact List.append_nil content

theorem rewound_mirrors {s : Store} {a : AppendOnly} (h : Mirrors s a) :
    Mirrors (rewound s) { a with pending := [] } ∧ (rewound s).disk = a.committed := by
  have hdisk : (rewound s).disk = a.committed := by
    change setLength s.disk s.file.length = _
    rw [h.tracks.holds.length]
    exact setLength_prefix ((List.prefix_append _ _).trans h.disk)
  refine ⟨⟨h.tracks.rewind, rfl, rfl, ?_, rfl, h.version⟩, hdisk⟩
  rw [hdisk, List.append_nil]

theorem committed_mirrors {s : Store} {a : AppendOnly} (h : Mirrors s a)
    (hpending : a.pending ≠ []) :
    Mirrors (committed s) ⟨a.committed ++ a.pending, [], a.version + 1⟩ := by
  refine ⟨h.tracks.flushed hpending, rfl, rfl, ?_, rfl, congrArg (fun v => v + 1) h.version⟩
  rw [List.append_nil]
  exact h.disk

/-- All that a flush can do to the store. -/
theorem jniFlush_cases {s : Store} {a : AppendOnly} (h : Mirrors s a)
    (expectedHash : Option (List UInt8)) (commits : Bool) :
    (a.pending = [] ∧ jniFlush s expectedHash commits = (0, s)) ∨
    (a.pending ≠ [] ∧ jniFlush s expectedHash commits = (-1, rewound s)) ∨
    (a.pending ≠ [] ∧ jniFlush s expectedHash commits = (1, committed s) ∧
      Matches (expectedHash.getD []) (a.committed ++ a.pending)) := by
  rcases fileFlush_cases h.tracks s.state (expectedHash.getD []) commits with
    ⟨hpending, hflush⟩ | ⟨hpending, hflush⟩ | ⟨hpending, hmatch, hflush⟩
  · left
    rw [jniFlush, hflush]
    exact ⟨hpending, rfl⟩
  · have hlt : s.appendOffset > s.file.length := by
      have hpos := List.length_pos_iff.mpr hpending
      rw [h.offset, h.tracks.newLength, h.tracks.holds.length]
      omega
    right
    left
    refine ⟨hpending, ?_⟩
    simp only [jniFlush, hflush, jniCallback]
    rw [if_pos (by decide), if_pos hlt]
    rfl
  · have hge : ¬ s.appendOffset > (flushed s.file).length := by
      change ¬ s.appendOffset > s.file.newLength
      rw [h.offset]
      exact lt_irrefl _
    right
    right
    refine ⟨hpending, ?_, matches_of_memory hmatch⟩
    simp only [jniFlush, hflush, jniCallback]
    rw [if_pos (by decide), if_neg hge]
    rfl

theorem flush_mirrors {s : Store} {a : AppendOnly} (h : Mirrors s a)
    (expectedHash : Option (List UInt8)) (commits : Bool) :
    Mirrors (flush s expectedHash commits).store
      (a.applyAll (flush s expectedHash commits).effects) := by
  rw [flush]
  rcases jniFlush_cases h expectedHash commits with
    ⟨hpending, hflush⟩ | ⟨hpending, hflush⟩ | ⟨hpending, hflush, -⟩
  · rw [hflush]
    have hsame : { a with pending := [] } = a := by rw [← hpending]
    change Mirrors s { a with pending := [] }
    rw [hsame]
    exact h
  · rw [hflush]
    exact (rewound_mirrors h).1
  · rw [hflush]
    exact committed_mirrors h hpending

/-- A flush returns when there is nothing to commit, or its transaction takes place
and the hash is the one it was given. -/
theorem flush_returned_iff {s : Store} {a : AppendOnly} (h : Mirrors s a)
    (expectedHash : Option (List UInt8)) (commits : Bool) :
    (flush s expectedHash commits).returned = true ↔ s.appendOffset = s.EOF ∨
      (commits = true ∧ expectedHash.getD [] = (hashMemory { s.file.toFileRecord with
        hash := Sha256.hash (a.committed ++ a.pending) }).take
          (expectedHash.getD []).length) := by
  have hreturned : (flush s expectedHash commits).returned =
      decide ((fileFlush s.state s.file (expectedHash.getD []) commits).1 ≥ 0) := rfl
  have hlength : s.file.length = s.file.newLength ↔ s.appendOffset = s.EOF := by
    rw [h.offset, h.eof, eq_comm]
  have hminus : ¬ (-1 : ℤ) ≥ 0 := by decide
  have hone : (1 : ℤ) ≥ 0 := by decide
  rw [hreturned, decide_eq_true_eq, fileFlush]
  by_cases hnone : s.file.length = s.file.newLength
  · rw [if_pos hnone]
    exact iff_of_true (le_refl _) (Or.inl (hlength.mp hnone))
  · rw [if_neg hnone, ← hlength, h.tracks.newHash.final]
    dsimp only
    split
    case isTrue hmismatch =>
      refine iff_of_false hminus ?_
      rintro (heq | ⟨-, heq⟩)
      · exact hnone heq
      · exact hmismatch.2 heq
    case isFalse hmismatch =>
      have hhash : expectedHash.getD [] = (hashMemory { s.file.toFileRecord with
          hash := Sha256.hash (a.committed ++ a.pending) }).take
            (expectedHash.getD []).length := by
        by_cases hnil : expectedHash.getD [] = []
        · rw [hnil]
          rfl
        · by_contra hne
          exact hmismatch ⟨hnil, hne⟩
      cases commits with
      | false =>
        refine iff_of_false hminus ?_
        rintro (heq | ⟨heq, -⟩)
        · exact hnone heq
        · cases heq
      | true => exact iff_of_true hone (Or.inr ⟨rfl, hhash⟩)

theorem Mirrors.with_transfer {s : Store} {a : AppendOnly} (h : Mirrors s a)
    (transfer : Option PeerTransfer) : Mirrors { s with activeTransfer := transfer } a :=
  ⟨h.tracks, h.eof, h.offset, h.disk, h.fileHash, h.version⟩

theorem finishTransfer_mirrors {s : Store} {a : AppendOnly} (h : Mirrors s a) (commits : Bool) :
    Mirrors (finishTransfer s commits).store (a.applyAll (finishTransfer s commits).effects) := by
  rw [finishTransfer]
  split
  · exact h
  split
  · have hflush := flush_mirrors h
    dsimp only
    split
    · exact (hflush _ commits).with_transfer none
    · exact hflush _ commits
  · exact h

/-- A call does to the file what its effects say. -/
theorem call_mirrors {s : Store} {a : AppendOnly} (h : Mirrors s a) (op : Op) :
    Mirrors (call s op).store (a.applyAll (call s op).effects) := by
  cases op with
  | append bytes offset length => exact append_mirrors h bytes offset length
  | appendAt fileOffset bytes commits =>
    rw [call, appendAt]
    split
    · exact h
    have happend := append_mirrors h bytes (toInt (s.appendOffset - fileOffset))
      (toInt (bytes.length - toInt (s.appendOffset - fileOffset)))
    dsimp only
    split
    · exact happend
    · rw [AppendOnly.applyAll_append]
      exact finishTransfer_mirrors happend commits
  | appendRecord record commits =>
    have happend := append_mirrors h (completeRecord record) 0 (completeRecord record).length
    rw [call, appendRecord]
    dsimp only
    split
    · exact happend
    · rw [AppendOnly.applyAll_append]
      exact flush_mirrors happend none commits
  | flush expectedHash commits => exact flush_mirrors h expectedHash commits
  | setTranfer transfer =>
    rw [call, setTranfer]
    split
    · exact h
    · exact h.with_transfer _
  | cancel transfer =>
    rw [call, cancel]
    split
    · exact h.with_transfer _
    · exact h

/-- A record is committed whole or not at all. -/
theorem appendRecord_mirrors {s : Store} {content : List UInt8} {version : UInt32}
    (h : Mirrors s ⟨content, [], version⟩) (record : List UInt8) (commits : Bool) :
    (appendRecord s record commits).returned = commits ∧
      Mirrors (appendRecord s record commits).store
        (if commits then ⟨content ++ completeRecord record, [], version + 1⟩
          else ⟨content, [], version⟩) := by
  have hlen : (completeRecord record).length ≠ 0 := by simp [completeRecord]
  have hpos : ¬ ((completeRecord record).length : ℤ) ≤ 0 := by omega
  have hinside : ¬ ((0 : ℤ) < 0 ∨
    0 + ((completeRecord record).length : ℤ) > (completeRecord record).length) := by
    omega
  have hdata : ((completeRecord record).drop (0 : ℤ).toNat).take
      ((completeRecord record).length : ℤ).toNat = completeRecord record := by
    simp
  have happend := append_mirrors h (completeRecord record) 0 (completeRecord record).length
  rw [append, if_neg hpos, if_neg hinside, hdata] at happend
  obtain ⟨mid, hmid⟩ : ∃ mid : Store, mid =
      { s with disk := writeAt s.disk s.appendOffset (completeRecord record)
               appendOffset := s.appendOffset + (completeRecord record).length
               file := fileAppend s.file (completeRecord record) } := ⟨_, rfl⟩
  have hcall : appendRecord s record commits =
      { flush mid none commits with
        effects := [.append (completeRecord record)] ++ (flush mid none commits).effects } := by
    rw [appendRecord, append, if_neg hpos, if_neg hinside, hdata, hmid]
    rfl
  have hmirrors : Mirrors mid ⟨content, completeRecord record, version⟩ := by
    rw [hmid]
    exact happend
  have hne : completeRecord record ≠ [] := by
    intro hnil
    exact hlen (by rw [hnil]; rfl)
  have hreturned : (flush mid none commits).returned = commits := by
    have hiff := flush_returned_iff hmirrors none commits
    have hoffset : ¬ mid.appendOffset = mid.EOF := by
      rw [hmirrors.offset_eq, hmirrors.eof_eq, List.length_append]
      dsimp only
      omega
    rw [Bool.eq_iff_iff, hiff]
    constructor
    · rintro (heq | ⟨hcommits, -⟩)
      · exact absurd heq hoffset
      · exact hcommits
    · intro hcommits
      exact Or.inr ⟨hcommits, rfl⟩
  rw [hcall]
  refine ⟨hreturned, ?_⟩
  rw [flush] at hreturned ⊢
  rcases jniFlush_cases hmirrors none commits with
    ⟨hpending, -⟩ | ⟨-, hflush⟩ | ⟨-, hflush, -⟩
  · exact absurd hpending hne
  · rw [hflush] at hreturned ⊢
    obtain rfl : false = commits := hreturned
    exact (rewound_mirrors hmirrors).1
  · rw [hflush] at hreturned ⊢
    obtain rfl : true = commits := hreturned
    exact committed_mirrors hmirrors hne

/-- What a flush comes to: it does nothing without pending bytes,
commits all of them, or fails and leaves the store, its record and the bytes on
disk as they were committed. -/
def FlushResult (s : Store) (a : AppendOnly) (c : Call) (ret : ℤ) : Prop :=
  (ret = 0 ∧ a.pending = [] ∧ c.returned = true) ∨
  (ret = 1 ∧ a.pending ≠ [] ∧ c.returned = true) ∨
  (ret = -1 ∧ a.pending ≠ [] ∧ c.returned = false ∧ c.store.state = s.state ∧
    c.store.file.toFileRecord = s.file.toFileRecord ∧ c.store.disk = a.committed)

theorem flush_ends {s : Store} {a : AppendOnly} (h : Mirrors s a)
    (expectedHash : Option (List UInt8)) (commits : Bool) :
    ∃ ret, (flush s expectedHash commits).effects = [.flush expectedHash ret] ∧
      FlushResult s a (flush s expectedHash commits) ret := by
  rcases jniFlush_cases h expectedHash commits with
    ⟨hpending, hflush⟩ | ⟨hpending, hflush⟩ | ⟨hpending, hflush, -⟩
  · refine ⟨0, ?_, Or.inl ⟨rfl, hpending, ?_⟩⟩
    · rw [flush, hflush]
    · rw [flush, hflush]
      rfl
  · refine ⟨-1, ?_, Or.inr (Or.inr ⟨rfl, hpending, ?_⟩)⟩
    · rw [flush, hflush]
    · rw [flush, hflush]
      exact ⟨rfl, rfl, rfl, (rewound_mirrors h).2⟩
  · refine ⟨1, ?_, Or.inr (Or.inl ⟨rfl, hpending, ?_⟩)⟩
    · rw [flush, hflush]
    · rw [flush, hflush]
      rfl

def Ends (s : Store) (a : AppendOnly) (c : Call) : Prop :=
  ∀ before expectedHash ret, c.effects = before ++ [.flush expectedHash ret] →
    FlushResult s (a.applyAll before) c ret

theorem ends_of_flush {s s₁ : Store} {a : AppendOnly} {c : Call} {before : List Effect}
    {expectedHash : Option (List UInt8)} {ret : ℤ}
    (heffects : c.effects = before ++ [.flush expectedHash ret])
    (hresult : FlushResult s₁ (a.applyAll before) c ret) (hstate : s₁.state = s.state)
    (hrecord : s₁.file.toFileRecord = s.file.toFileRecord) : Ends s a c := by
  intro before' expectedHash' ret' heffects'
  rw [heffects] at heffects'
  obtain ⟨rfl, heq⟩ := List.append_singleton_inj.mp heffects'
  obtain ⟨-, rfl⟩ := Effect.flush.inj heq
  rw [FlushResult, hstate, hrecord] at hresult
  exact hresult

structure Appends (s : Store) (c : Call) : Prop where
  effects : c.effects = [] ∨ ∃ data, c.effects = [.append data]
  state : c.store.state = s.state
  record : c.store.file.toFileRecord = s.file.toFileRecord
  name : c.store.file.name = s.file.name

theorem append_appends (s : Store) (bytes : List UInt8) (offset length : ℤ) :
    Appends s (append s bytes offset length) := by
  rw [append]
  split
  · exact ⟨Or.inl rfl, rfl, rfl, rfl⟩
  split
  · exact ⟨Or.inl rfl, rfl, rfl, rfl⟩
  · exact ⟨Or.inr ⟨_, rfl⟩, rfl, rfl, rfl⟩

theorem ends_of_append {s : Store} {a : AppendOnly} {c : Call}
    (h : c.effects = [] ∨ ∃ data, c.effects = [.append data]) : Ends s a c := by
  intro before expectedHash ret heffects
  rcases h with h | ⟨data, h⟩
  · rw [h] at heffects
    exact absurd heffects.symm (List.append_ne_nil_of_right_ne_nil _ (List.cons_ne_nil _ _))
  · rw [h, ← List.nil_append [Effect.append data]] at heffects
    obtain ⟨-, heq⟩ := List.append_singleton_inj.mp heffects
    cases heq

theorem finishTransfer_ends {s : Store} {a : AppendOnly} (h : Mirrors s a) (commits : Bool) :
    (finishTransfer s commits).effects = [] ∨ ∃ expectedHash ret,
      (finishTransfer s commits).effects = [.flush expectedHash ret] ∧
        FlushResult s a (finishTransfer s commits) ret := by
  rw [finishTransfer]
  split
  · exact Or.inl rfl
  split
  case isTrue transfer _ _ =>
    obtain ⟨ret, heffects, hresult⟩ := flush_ends h (some transfer.expectedHash) commits
    refine Or.inr ⟨some transfer.expectedHash, ret, heffects, ?_⟩
    rcases hresult with hresult | hresult | ⟨hret, hpending, hreturned, hrest⟩
    · exact Or.inl hresult
    · exact Or.inr (Or.inl hresult)
    · refine Or.inr (Or.inr ⟨hret, hpending, hreturned, ?_⟩)
      dsimp only
      rw [if_neg (by rw [hreturned]; decide)]
      exact hrest
  case isFalse =>
    exact Or.inl rfl

theorem call_ends {s : Store} {a : AppendOnly} (h : Mirrors s a) (op : Op) :
    Ends s a (call s op) := by
  cases op with
  | append bytes offset length =>
    exact ends_of_append (append_appends s bytes offset length).effects
  | appendAt fileOffset bytes commits =>
    rw [call, appendAt]
    split
    · exact ends_of_append (Or.inl rfl)
    have happend := append_mirrors h bytes (toInt (s.appendOffset - fileOffset))
      (toInt (bytes.length - toInt (s.appendOffset - fileOffset)))
    have hframe := append_appends s bytes (toInt (s.appendOffset - fileOffset))
      (toInt (bytes.length - toInt (s.appendOffset - fileOffset)))
    dsimp only
    split
    · exact ends_of_append hframe.effects
    · rcases finishTransfer_ends happend commits
        with heffects | ⟨expectedHash, ret, heffects, hresult⟩
      · refine ends_of_append ?_
        dsimp only
        rw [heffects, List.append_nil]
        exact hframe.effects
      · exact ends_of_flush (congrArg (fun effects => _ ++ effects) heffects) hresult hframe.state
          hframe.record
  | appendRecord record commits =>
    have happend := append_mirrors h (completeRecord record) 0 (completeRecord record).length
    have hframe := append_appends s (completeRecord record) 0 (completeRecord record).length
    rw [call, appendRecord]
    dsimp only
    split
    · exact ends_of_append hframe.effects
    · obtain ⟨ret, heffects, hresult⟩ := flush_ends happend none commits
      exact ends_of_flush (congrArg (fun effects => _ ++ effects) heffects) hresult hframe.state
        hframe.record
  | flush expectedHash commits =>
    obtain ⟨ret, heffects, hresult⟩ := flush_ends h expectedHash commits
    have heffects' : (flush s expectedHash commits).effects = [] ++ [.flush expectedHash ret] :=
      heffects
    exact ends_of_flush heffects' hresult rfl rfl
  | setTranfer transfer => exact ends_of_append (Or.inl rfl)
  | cancel transfer => exact ends_of_append (Or.inl rfl)

def run : List Op → Store → List Effect × Store
  | [], s => ([], s)
  | op :: rest, s =>
    let (effects, s') := run rest (call s op).store
    ((call s op).effects ++ effects, s')

theorem run_mirrors (ops : List Op) {s : Store} {a : AppendOnly} (h : Mirrors s a) :
    Mirrors (run ops s).2 (a.applyAll (run ops s).1) := by
  induction ops generalizing s a with
  | nil => exact h
  | cons op rest ih =>
    rw [run, AppendOnly.applyAll_append]
    exact ih (call_mirrors h op)

theorem openStore_mirrors {state : DbState} {disk content : List UInt8} {name : Name} {s : Store}
    (hopen : openStore state disk name = some s)
    (hnone : state.db.files (fileKey name) = none → content = [])
    (hsome : ∀ record, state.db.files (fileKey name) = some record → Holds record content)
    (hdisk : content <+: disk) : Mirrors s ⟨content, [], s.file.version⟩ := by
  obtain ⟨file, hfile, heq⟩ := Option.bind_eq_some_iff.mp hopen
  obtain rfl := Option.some.inj heq
  obtain ⟨htracks, -⟩ := fileOpen_tracks hfile hnone hsome
  refine ⟨htracks, rfl, ?_, ?_, rfl, rfl⟩
  · change file.length = file.newLength
    rw [htracks.newLength, htracks.holds.length]
    rfl
  · rw [List.append_nil]
    have hzero : ¬ 0 > file.length := Nat.not_lt_zero _
    simp only [jniCallback, if_neg hzero]
    exact hdisk

structure Refines (s : Store) (a : AppendOnly) : Prop where
  offsets : (s.EOF, s.appendOffset) = (s.file.length, s.file.newLength)
  disk : s.disk.take s.EOF = a.committed
  pending : (s.disk.drop s.EOF).take (s.appendOffset - s.EOF) = a.pending
  hash : s.file.hash = fileHash a.committed
  partialHash : Sees s.file.partialHash a.committed
  version : s.file.version = a.version

theorem Mirrors.refines {s : Store} {a : AppendOnly} (h : Mirrors s a) : Refines s a := by
  have heof := h.eof_eq
  have hoffset := h.offset_eq
  obtain ⟨rest, hdisk⟩ := h.disk
  refine ⟨?_, ?_, ?_, h.tracks.holds.hash, h.tracks.holds.partialHash, h.version⟩
  · rw [h.eof, h.offset]
  · rw [heof, ← hdisk, List.append_assoc, List.take_left]
  · have hlen : s.appendOffset - s.EOF = a.pending.length := by
      rw [hoffset, heof, List.length_append]
      omega
    rw [hlen, heof, ← hdisk, List.append_assoc, List.drop_left, List.take_left]

/-- After any calls on a store, opened over any committed content, and after one
call more: all parts agree with the append-only file, and a flush is all or
nothing. -/
theorem record_store_refines (state : DbState) (name : Name) (disk content : List UInt8)
    (hnone : state.db.files (fileKey name) = none → content = [])
    (hsome : ∀ record, state.db.files (fileKey name) = some record → Holds record content)
    (hdisk : content <+: disk) (s₀ : Store) (hopen : openStore state disk name = some s₀)
    (ops : List Op) (op : Op) :
    ∃ a : AppendOnly, a = (AppendOnly.mk content [] s₀.file.version).applyAll (run ops s₀).1 ∧
      Refines (run ops s₀).2 a ∧
      Refines (call (run ops s₀).2 op).store (a.applyAll (call (run ops s₀).2 op).effects) ∧
      Ends (run ops s₀).2 a (call (run ops s₀).2 op) := by
  have hmirrors := run_mirrors ops (openStore_mirrors hopen hnone hsome hdisk)
  exact ⟨_, rfl, hmirrors.refines, (call_mirrors hmirrors op).refines, call_ends hmirrors op⟩

/-- A record that is committed, and a block for which the hash is wrong. -/
theorem record_store_refines_new : ∃ s₀, openStore (openDb emptyDatabase) [] [0x61] = some s₀ ∧
    ∃ a : AppendOnly,
      a = (AppendOnly.mk [] [] s₀.file.version).applyAll (run [.appendRecord [7] true] s₀).1 ∧
      Refines (run [.appendRecord [7] true] s₀).2 a := by
  obtain ⟨a, ha, hrefines, -⟩ := record_store_refines (openDb emptyDatabase) [0x61] [] []
    (fun _ => rfl) (fun _ h => by cases h) List.prefix_rfl _ rfl [.appendRecord [7] true]
    (.flush (some [0]) true)
  exact ⟨_, rfl, a, ha, hrefines⟩

/-- The hash of a new file is not that of its content, which is empty. -/
theorem new_file_hash : ∃ s₀, openStore (openDb emptyDatabase) [] [0x61] = some s₀ ∧
    s₀.disk.take s₀.EOF = [] ∧ s₀.file.hash ≠ Sha256.hash [] := by
  refine ⟨_, rfl, rfl, ?_⟩
  decide +kernel

end Succinct.RecordRefinement
