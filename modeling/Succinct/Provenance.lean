import Succinct.RecordRefinement

/-!
Where the bytes of a team's files come from. Blocks from peers and the records
of the own device are appended to the same files; a block may come for any
file, with or without a transfer. A flush for a transfer checks the hash of the
whole file, a flush of an own record checks nothing, and commits what is there.

The operating system decides which file on disk a name stands for: resolve is
a parameter.
-/
namespace Succinct.Provenance

open NativeStore RecordStore RecordRefinement

inductive Origin where
  | own
  | network
  deriving DecidableEq

/-- The bytes that a flush has committed, the hash it was given, and the whole
content after it. -/
structure Commit where
  data : List (UInt8 × Origin)
  expectedHash : Option (List UInt8)
  content : List UInt8

/-- What has happened to a file: the bytes committed and pending with their
origin, and the commits, the last one first. -/
structure History where
  committed : List (UInt8 × Origin)
  pending : List (UInt8 × Origin)
  commits : List Commit

def bytesOf (data : List (UInt8 × Origin)) : List UInt8 := data.map Prod.fst

namespace History

def start (content : List UInt8) : History := ⟨content.map fun b => (b, .own), [], []⟩

def apply (origin : Origin) (h : History) : Effect → History
  | .append data => { h with pending := h.pending ++ data.map fun b => (b, origin) }
  | .flush expectedHash ret =>
    if ret > 0 then
      { committed := h.committed ++ h.pending
        pending := []
        commits := ⟨h.pending, expectedHash, bytesOf (h.committed ++ h.pending)⟩ :: h.commits }
    else { h with pending := [] }

def applyAll (origin : Origin) (h : History) (effects : List Effect) : History :=
  effects.foldl (apply origin) h

def file (h : History) (version : UInt32) : AppendOnly :=
  ⟨bytesOf h.committed, bytesOf h.pending, version⟩

end History

structure Team (Path : Type) where
  state : DbState
  disk : Path → List UInt8
  stores : Name → Option Store
  history : Name → History

inductive TeamOp where
  | processData (name : Name) (offset : ℤ) (data : List UInt8) (commits : Bool)
  | call (name : Name) (op : Op)

def TeamOp.name : TeamOp → Name
  | .processData name _ _ _ => name
  | .call name _ => name

def TeamOp.op : TeamOp → Op
  | .processData _ offset data commits => .appendAt offset data commits
  | .call _ op => op

def TeamOp.origin : TeamOp → Origin
  | .processData _ _ _ _ => .network
  | .call _ _ => .own

section

variable {Path : Type} [DecidableEq Path] (resolve : Name → Path)

/-- Storage.openFile: a store is opened once, and shares the native store and
the disk with the others. -/
def openFile (t : Team Path) (name : Name) : Option Store :=
  match t.stores name with
  | none => openStore t.state (t.disk (resolve name)) name
  | some s => some { s with state := t.state, disk := t.disk (resolve name) }

def teamStep (t : Team Path) (op : TeamOp) : Option (Team Path) := do
  let s ← openFile resolve t op.name
  let c := call s op.op
  some { state := c.store.state
         disk := Function.update t.disk (resolve op.name) c.store.disk
         stores := Function.update t.stores op.name (some c.store)
         history := Function.update t.history op.name
           ((t.history op.name).applyAll op.origin c.effects) }

def teamRun : List TeamOp → Team Path → Option (Team Path)
  | [], t => some t
  | op :: rest, t => (teamStep resolve t op).bind (teamRun rest)

def Tells (base : List UInt8) : List Commit → List (UInt8 × Origin) → Prop
  | [], committed => committed = base.map fun b => (b, .own)
  | c :: older, committed => c.content = bytesOf committed ∧
      ∃ before, Tells base older before ∧ committed = before ++ c.data

/-- A commit of bytes from the network was given a hash, and the hash matched. -/
def Commit.Verified (c : Commit) : Prop :=
  (∃ b, (b, Origin.network) ∈ c.data) → ∃ h, c.expectedHash = some h ∧ Matches h c.content

/-- What lies below the end of an open file was committed, and what of it came
from the network was verified. -/
def OnlyVerified (base : Name → List UInt8) (t : Team Path) : Prop :=
  ∀ name s, t.stores name = some s →
    (t.disk (resolve name)).take s.EOF = bytesOf (t.history name).committed ∧
      Tells (base name) (t.history name).commits (t.history name).committed ∧
      ∀ c ∈ (t.history name).commits, c.Verified

def flushesUnchecked : Op → Bool
  | .appendRecord _ commits => commits
  | .flush none commits => commits
  | _ => false

/-- No flush without a hash is made while bytes from the network are pending. -/
def NoUncheckedFlush (ops : List TeamOp) (t : Team Path) : Prop :=
  ∀ before op after, ops = before ++ op :: after →
    ∀ t', teamRun resolve before t = some t' → flushesUnchecked op.op = true →
      ∀ x ∈ (t'.history op.name).pending, x.2 = Origin.own

/-- The names that are used stand for different files, to the store and on disk. -/
def DistinctFiles (ops : List TeamOp) : Prop :=
  ∀ a ∈ ops.map TeamOp.name, ∀ b ∈ ops.map TeamOp.name, a ≠ b →
    fileKey a ≠ fileKey b ∧ resolve a ≠ resolve b

structure StartsWith (base : Name → List UInt8) (names : List Name) (t : Team Path) : Prop where
  stores : t.stores = fun _ => none
  history : t.history = fun name => History.start (base name)
  absent : ∀ name ∈ names, t.state.db.files (fileKey name) = none → base name = []
  record : ∀ name ∈ names, ∀ record, t.state.db.files (fileKey name) = some record →
    Holds record (base name)
  disk : ∀ name ∈ names, base name <+: t.disk (resolve name)

end

theorem bytesOf_append (l₁ l₂ : List (UInt8 × Origin)) :
    bytesOf (l₁ ++ l₂) = bytesOf l₁ ++ bytesOf l₂ := List.map_append

theorem bytesOf_tag (data : List UInt8) (origin : Origin) :
    bytesOf (data.map fun b => (b, origin)) = data := by
  rw [bytesOf, List.map_map]
  exact List.map_id data

theorem file_apply (origin : Origin) (h : History) (version : UInt32) (effect : Effect) :
    ∃ version', (h.file version).apply effect = (h.apply origin effect).file version' := by
  cases effect with
  | append data =>
    refine ⟨version, ?_⟩
    simp only [History.file, AppendOnly.apply, History.apply, bytesOf_append, bytesOf_tag]
  | flush expectedHash ret =>
    simp only [AppendOnly.apply, History.apply]
    split
    · refine ⟨version + 1, ?_⟩
      simp only [History.file, bytesOf_append]
      rfl
    · exact ⟨version, rfl⟩

theorem file_applyAll (origin : Origin) (effects : List Effect) (h : History) (version : UInt32) :
    ∃ version', (h.file version).applyAll effects =
      (h.applyAll origin effects).file version' := by
  induction effects generalizing h version with
  | nil => exact ⟨version, rfl⟩
  | cons effect rest ih =>
    obtain ⟨version₁, hfirst⟩ := file_apply origin h version effect
    obtain ⟨version₂, hrest⟩ := ih (h.apply origin effect) version₁
    refine ⟨version₂, ?_⟩
    change ((h.file version).apply effect).applyAll rest = _
    rw [hfirst, hrest]
    rfl

/-- A flush, if one is made. One that commits either was given a hash that
matched, or is one that the operation makes without a hash. Of the store it
writes only the record of its file. -/
structure Flushes (s : Store) (a : AppendOnly) (unchecked : Bool) (c : Call) : Prop where
  effects : c.effects = [] ∨ ∃ expectedHash ret, c.effects = [.flush expectedHash ret] ∧
    (ret > 0 → (expectedHash = none → unchecked = true) ∧
      Matches (expectedHash.getD []) (a.committed ++ a.pending))
  name : c.store.file.name = s.file.name
  files : ∀ key ≠ s.file.name, c.store.state.db.files key = s.state.db.files key

structure Shape (s : Store) (a : AppendOnly) (unchecked : Bool) (c : Call) : Prop where
  effects : ∃ first last, c.effects = first ++ last ∧
    (first = [] ∨ ∃ data, first = [.append data]) ∧
    (last = [] ∨ ∃ expectedHash ret, last = [.flush expectedHash ret] ∧
      (ret > 0 → (expectedHash = none → unchecked = true) ∧
        Matches (expectedHash.getD [])
          ((a.applyAll first).committed ++ (a.applyAll first).pending)))
  name : c.store.file.name = s.file.name
  files : ∀ key ≠ s.file.name, c.store.state.db.files key = s.state.db.files key

namespace Shape

variable {s : Store} {a : AppendOnly} {unchecked : Bool} {c last : Call}

theorem of_appends (h : Appends s c) : Shape s a unchecked c where
  effects := ⟨c.effects, [], (List.append_nil _).symm, h.effects, Or.inl rfl⟩
  name := h.name
  files := by
    intro key _
    rw [h.state]

theorem of_flushes (h : Flushes s a unchecked c) : Shape s a unchecked c where
  effects := ⟨[], c.effects, rfl, Or.inl rfl, h.effects⟩
  name := h.name
  files := h.files

/-- Append first, then a flush. -/
theorem of_both (h : Appends s c)
    (hlast : Flushes c.store (a.applyAll c.effects) unchecked last) :
    Shape s a unchecked { last with effects := c.effects ++ last.effects } where
  effects := ⟨c.effects, last.effects, rfl, h.effects, hlast.effects⟩
  name := hlast.name.trans h.name
  files := by
    intro key hkey
    rw [← h.name] at hkey
    rw [hlast.files key hkey, h.state]

end Shape

theorem jniFlush_committed {s : Store} {expectedHash : Option (List UInt8)} {commits : Bool}
    (h : (jniFlush s expectedHash commits).1 > 0) : commits = true := by
  cases commits with
  | true => rfl
  | false =>
    have hfailed := fileFlush_failed s.state s.file (expectedHash.getD [])
    exact absurd h (not_lt.mpr hfailed)

theorem flush_flushes {s : Store} {a : AppendOnly} (h : Mirrors s a)
    (expectedHash : Option (List UInt8)) (commits unchecked : Bool)
    (hunchecked : expectedHash = none → commits = true → unchecked = true) :
    Flushes s a unchecked (flush s expectedHash commits) := by
  have hcommitted : (jniFlush s expectedHash commits).1 > 0 → commits = true := jniFlush_committed
  rw [flush]
  rcases jniFlush_cases h expectedHash commits with
    ⟨-, hflush⟩ | ⟨-, hflush⟩ | ⟨-, hflush, hmatches⟩
  · rw [hflush]
    refine ⟨Or.inr ⟨expectedHash, 0, rfl, ?_⟩, rfl, fun _ _ => rfl⟩
    intro hret
    exact absurd hret (by decide)
  · rw [hflush]
    refine ⟨Or.inr ⟨expectedHash, -1, rfl, ?_⟩, rfl, fun _ _ => rfl⟩
    intro hret
    exact absurd hret (by decide)
  · rw [hflush] at hcommitted ⊢
    refine ⟨Or.inr ⟨expectedHash, 1, rfl, ?_⟩, rfl, ?_⟩
    · intro hret
      exact ⟨fun hnone => hunchecked hnone (hcommitted hret), hmatches⟩
    · intro key hkey
      exact Function.update_of_ne hkey _ _

theorem finishTransfer_flushes {s : Store} {a : AppendOnly} (h : Mirrors s a)
    (commits unchecked : Bool) : Flushes s a unchecked (finishTransfer s commits) := by
  rw [finishTransfer]
  split
  · exact ⟨Or.inl rfl, rfl, fun _ _ => rfl⟩
  split
  case isTrue transfer _ _ =>
    have hflush := flush_flushes h (some transfer.expectedHash) commits unchecked (by
      intro hnone
      cases hnone)
    refine ⟨hflush.effects, ?_, ?_⟩
    · dsimp only
      split
      · exact hflush.name
      · exact hflush.name
    · dsimp only
      split
      · exact hflush.files
      · exact hflush.files
  case isFalse =>
    exact ⟨Or.inl rfl, rfl, fun _ _ => rfl⟩

theorem call_shape {s : Store} {a : AppendOnly} (h : Mirrors s a) (op : Op) :
    Shape s a (flushesUnchecked op) (call s op) := by
  cases op with
  | append bytes offset length => exact Shape.of_appends (append_appends s bytes offset length)
  | appendAt fileOffset bytes commits =>
    rw [call, appendAt]
    split
    · exact Shape.of_appends ⟨Or.inl rfl, rfl, rfl, rfl⟩
    have happends := append_appends s bytes (toInt (s.appendOffset - fileOffset))
      (toInt (bytes.length - toInt (s.appendOffset - fileOffset)))
    have hmirrors := append_mirrors h bytes (toInt (s.appendOffset - fileOffset))
      (toInt (bytes.length - toInt (s.appendOffset - fileOffset)))
    dsimp only
    split
    · exact Shape.of_appends happends
    · exact Shape.of_both happends (finishTransfer_flushes hmirrors commits _)
  | appendRecord record commits =>
    have happends := append_appends s (completeRecord record) 0 (completeRecord record).length
    have hmirrors := append_mirrors h (completeRecord record) 0 (completeRecord record).length
    rw [call, appendRecord]
    dsimp only
    split
    · exact Shape.of_appends happends
    · exact Shape.of_both happends (flush_flushes hmirrors none commits _ (fun _ hc => hc))
  | flush expectedHash commits =>
    refine Shape.of_flushes (flush_flushes h expectedHash commits _ ?_)
    rintro rfl hc
    exact hc
  | setTranfer transfer =>
    refine Shape.of_appends ⟨Or.inl rfl, ?_, ?_, ?_⟩
    all_goals
      simp only [call, setTranfer]
      split
      · rfl
      · rfl
  | cancel transfer =>
    refine Shape.of_appends ⟨Or.inl rfl, ?_, ?_, ?_⟩
    all_goals
      simp only [call, cancel]
      split
      · rfl
      · rfl

/-- Appending changes only the pending bytes. -/
theorem applyAll_first {origin : Origin} {h : History} {first : List Effect}
    (hfirst : first = [] ∨ ∃ data, first = [.append data]) :
    (h.applyAll origin first).committed = h.committed ∧
      (h.applyAll origin first).commits = h.commits ∧
      ∀ x ∈ (h.applyAll origin first).pending, x ∈ h.pending ∨ x.2 = origin := by
  rcases hfirst with rfl | ⟨data, rfl⟩
  · exact ⟨rfl, rfl, fun x hx => Or.inl hx⟩
  · refine ⟨rfl, rfl, ?_⟩
    intro x hx
    rcases List.mem_append.mp hx with hx | hx
    · exact Or.inl hx
    · obtain ⟨b, -, rfl⟩ := List.mem_map.mp hx
      exact Or.inr rfl

/-- A call keeps the story of the file, and commits what it has verified. -/
theorem history_call {base : List UInt8} {origin : Origin} {h : History} {version : UInt32}
    {s : Store} {c : Call} {unchecked : Bool} (hshape : Shape s (h.file version) unchecked c)
    (hunchecked : unchecked = true → origin = .own ∧ ∀ x ∈ h.pending, x.2 = Origin.own)
    (htells : Tells base h.commits h.committed) (hverified : ∀ k ∈ h.commits, k.Verified) :
    Tells base (h.applyAll origin c.effects).commits (h.applyAll origin c.effects).committed ∧
      ∀ k ∈ (h.applyAll origin c.effects).commits, k.Verified := by
  obtain ⟨first, last, heffects, hfirst, hlast⟩ := hshape.effects
  have hpart := @applyAll_first origin h first hfirst
  obtain ⟨hcommitted, hcommits, hpending⟩ := hpart
  obtain ⟨version', hfile⟩ := file_applyAll origin first h version
  have hsplit : h.applyAll origin c.effects = (h.applyAll origin first).applyAll origin last := by
    rw [heffects]
    exact List.foldl_append
  rw [hsplit]
  generalize h.applyAll origin first = h₁ at hcommitted hcommits hpending hfile
  rw [← hcommitted, ← hcommits] at htells
  rw [← hcommits] at hverified
  rcases hlast with rfl | ⟨expectedHash, ret, rfl, hflush⟩
  · exact ⟨htells, hverified⟩
  change Tells base (h₁.apply origin (.flush expectedHash ret)).commits
    (h₁.apply origin (.flush expectedHash ret)).committed ∧
      ∀ k ∈ (h₁.apply origin (.flush expectedHash ret)).commits, k.Verified
  by_cases hret : ret > 0
  · obtain ⟨hnone, hmatches⟩ := hflush hret
    have hcommit : h₁.apply origin (.flush expectedHash ret) =
        { committed := h₁.committed ++ h₁.pending
          pending := []
          commits := ⟨h₁.pending, expectedHash, bytesOf (h₁.committed ++ h₁.pending)⟩ ::
            h₁.commits } := if_pos hret
    rw [hcommit]
    refine ⟨⟨rfl, h₁.committed, htells, rfl⟩, ?_⟩
    intro k hk
    rcases List.mem_cons.mp hk with rfl | hk
    · rintro ⟨b, hb⟩
      cases expectedHash with
      | none =>
        obtain ⟨horigin, hown⟩ := hunchecked (hnone rfl)
        rcases hpending _ hb with hmem | hmem
        · cases hown _ hmem
        · rw [horigin] at hmem
          cases hmem
      | some expected =>
        refine ⟨expected, rfl, ?_⟩
        change Matches expected (bytesOf (h₁.committed ++ h₁.pending))
        rw [bytesOf_append]
        rw [hfile] at hmatches
        exact hmatches
    · exact hverified k hk
  · have hdiscard : h₁.apply origin (.flush expectedHash ret) = { h₁ with pending := [] } :=
      if_neg hret
    rw [hdiscard]
    exact ⟨htells, hverified⟩

section

variable {Path : Type} {resolve : Name → Path}

structure Sound (resolve : Name → Path) (base : Name → List UInt8) (names : List Name)
    (t : Team Path) : Prop where
  unused : ∀ name, name ∉ names → t.stores name = none
  closed : ∀ name ∈ names, t.stores name = none → t.history name = History.start (base name) ∧
    (t.state.db.files (fileKey name) = none → base name = []) ∧
    (∀ record, t.state.db.files (fileKey name) = some record → Holds record (base name)) ∧
    base name <+: t.disk (resolve name)
  opened : ∀ name ∈ names, ∀ s, t.stores name = some s →
    Mirrors { s with state := t.state, disk := t.disk (resolve name) }
      ((t.history name).file s.file.version) ∧ s.file.name = fileKey name
  verified : ∀ name ∈ names,
    Tells (base name) (t.history name).commits (t.history name).committed ∧
    ∀ c ∈ (t.history name).commits, c.Verified

theorem StartsWith.sound {base : Name → List UInt8} {names : List Name} {t : Team Path}
    (h : StartsWith resolve base names t) : Sound resolve base names t where
  unused name _ := by rw [h.stores]
  closed name hname _ := by
    rw [h.history]
    exact ⟨rfl, h.absent name hname, h.record name hname, h.disk name hname⟩
  opened name _ s hs := by
    rw [h.stores] at hs
    cases hs
  verified name _ := by
    rw [h.history]
    exact ⟨rfl, fun c hc => absurd hc List.not_mem_nil⟩

theorem openFile_mirrors {base : Name → List UInt8} {names : List Name} {t : Team Path}
    (h : Sound resolve base names t) {name : Name} (hname : name ∈ names) {s : Store}
    (hopen : openFile resolve t name = some s) :
    Mirrors s ((t.history name).file s.file.version) ∧ s.file.name = fileKey name ∧
      s.state = t.state := by
  rw [openFile] at hopen
  cases hsome : t.stores name with
  | none =>
    rw [hsome] at hopen
    obtain ⟨hhistory, habsent, hrecord, hdisk⟩ := h.closed name hname hsome
    have hmirrors := openStore_mirrors hopen habsent hrecord hdisk
    obtain ⟨file, hfile, heq⟩ := Option.bind_eq_some_iff.mp hopen
    obtain ⟨-, hkey⟩ := fileOpen_tracks hfile habsent hrecord
    obtain rfl := Option.some.inj heq
    refine ⟨?_, hkey, rfl⟩
    rw [hhistory, History.file]
    simp only [History.start, bytesOf_tag]
    exact hmirrors
  | some s₀ =>
    rw [hsome] at hopen
    obtain rfl := Option.some.inj hopen
    obtain ⟨hmirrors, hkey⟩ := h.opened name hname s₀ hsome
    exact ⟨hmirrors, hkey, rfl⟩

theorem teamStep_sound [DecidableEq Path] {base : Name → List UInt8}
    {names : List Name} {t t' : Team Path}
    (h : Sound resolve base names t) {op : TeamOp} (hname : op.name ∈ names)
    (hdistinct : ∀ a ∈ names, ∀ b ∈ names, a ≠ b → fileKey a ≠ fileKey b ∧ resolve a ≠ resolve b)
    (hunchecked : flushesUnchecked op.op = true →
      ∀ x ∈ (t.history op.name).pending, x.2 = Origin.own)
    (hstep : teamStep resolve t op = some t') : Sound resolve base names t' := by
  obtain ⟨s, hopen, heq⟩ := Option.bind_eq_some_iff.mp hstep
  obtain rfl := Option.some.inj heq
  obtain ⟨hmirrors, hkey, hstate⟩ := openFile_mirrors h hname hopen
  have hshape := call_shape hmirrors op.op
  have hcall := call_mirrors hmirrors op.op
  have hown : flushesUnchecked op.op = true → op.origin = .own ∧
      ∀ x ∈ (t.history op.name).pending, x.2 = Origin.own := by
    intro hflush
    refine ⟨?_, hunchecked hflush⟩
    cases op with
    | processData name offset data commits => cases hflush
    | call name op => rfl
  have hfiles : ∀ name ∈ names, name ≠ op.name →
      (call s op.op).store.state.db.files (fileKey name) = t.state.db.files (fileKey name) := by
    intro name hn hne
    rw [← hstate]
    apply hshape.files
    rw [hkey]
    exact (hdistinct name hn op.name hname hne).1
  have hdisk : ∀ name ∈ names, name ≠ op.name →
      Function.update t.disk (resolve op.name) (call s op.op).store.disk (resolve name) =
        t.disk (resolve name) := by
    intro name hn hne
    exact Function.update_of_ne (hdistinct name hn op.name hname hne).2 _ _
  refine ⟨?_, ?_, ?_, ?_⟩
  · intro name hn
    have hne : name ≠ op.name := by
      rintro rfl
      exact hn hname
    dsimp only
    rw [Function.update_of_ne hne]
    exact h.unused name hn
  · intro name hn hnone
    dsimp only at hnone ⊢
    by_cases hne : name = op.name
    · rw [hne, Function.update_self] at hnone
      cases hnone
    · rw [Function.update_of_ne hne] at hnone
      rw [Function.update_of_ne hne, hfiles name hn hne, hdisk name hn hne]
      exact h.closed name hn hnone
  · intro name hn s' hs'
    dsimp only at hs' ⊢
    by_cases hne : name = op.name
    · subst hne
      rw [Function.update_self] at hs'
      obtain rfl := Option.some.inj hs'
      rw [Function.update_self, Function.update_self]
      obtain ⟨version, hfile⟩ := file_applyAll op.origin (call s op.op).effects
        (t.history op.name) s.file.version
      rw [hfile] at hcall
      have hversion : (call s op.op).store.file.version = version := hcall.version
      rw [hversion]
      exact ⟨hcall, hshape.name.trans hkey⟩
    · rw [Function.update_of_ne hne] at hs'
      rw [Function.update_of_ne hne, hdisk name hn hne]
      obtain ⟨hother, hkey'⟩ := h.opened name hn s' hs'
      exact ⟨⟨hother.tracks, hother.eof, hother.offset, hother.disk,
        hother.fileHash, hother.version⟩, hkey'⟩
  · intro name hn
    dsimp only
    by_cases hne : name = op.name
    · subst hne
      rw [Function.update_self]
      obtain ⟨htells, hverified⟩ := h.verified op.name hname
      exact history_call hshape hown htells hverified
    · rw [Function.update_of_ne hne]
      exact h.verified name hn

theorem teamRun_sound [DecidableEq Path] (ops : List TeamOp) {base : Name → List UInt8}
    {names : List Name}
    {t t' : Team Path} (h : Sound resolve base names t) (hnames : ∀ op ∈ ops, op.name ∈ names)
    (hdistinct : ∀ a ∈ names, ∀ b ∈ names, a ≠ b → fileKey a ≠ fileKey b ∧ resolve a ≠ resolve b)
    (hunchecked : NoUncheckedFlush resolve ops t) (hrun : teamRun resolve ops t = some t') :
    Sound resolve base names t' := by
  induction ops generalizing t with
  | nil =>
    obtain rfl := Option.some.inj hrun
    exact h
  | cons op rest ih =>
    obtain ⟨t₁, hstep, hrest⟩ := Option.bind_eq_some_iff.mp hrun
    have hfirst := teamStep_sound h (hnames op List.mem_cons_self) hdistinct
      (hunchecked [] op rest rfl t rfl) hstep
    refine ih hfirst (fun o ho => hnames o (List.mem_cons_of_mem op ho)) ?_ hrest
    intro before o after hsplit t₂ hbefore
    refine hunchecked (op :: before) o after (by rw [hsplit]; rfl) t₂ ?_
    rw [teamRun, hstep, Option.bind_some, hbefore]

theorem Sound.onlyVerified {base : Name → List UInt8} {names : List Name} {t : Team Path}
    (h : Sound resolve base names t) : OnlyVerified resolve base t := by
  intro name s hs
  have hname : name ∈ names := by
    by_contra hn
    rw [h.unused name hn] at hs
    cases hs
  obtain ⟨hmirrors, -⟩ := h.opened name hname s hs
  exact ⟨hmirrors.refines.disk, h.verified name hname⟩

end

/-- As long as no flush without a hash is made while bytes from the network are
pending, and the names in use stand for different files, all that came from the
network and was committed has been verified. -/
theorem committed_blocks_verified {Path : Type} [DecidableEq Path] (resolve : Name → Path)
    (base : Name → List UInt8) (ops : List TeamOp) (t : Team Path)
    (hstart : StartsWith resolve base (ops.map TeamOp.name) t)
    (hdistinct : DistinctFiles resolve ops) (hunchecked : NoUncheckedFlush resolve ops t)
    (before after : List TeamOp) (hsplit : ops = before ++ after) (t' : Team Path)
    (hrun : teamRun resolve before t = some t') : OnlyVerified resolve base t' := by
  refine (teamRun_sound before hstart.sound ?_ hdistinct ?_ hrun).onlyVerified
  · intro op hop
    rw [hsplit]
    exact List.mem_map_of_mem (List.mem_append_left after hop)
  · intro before' op after' hsplit' t₁ hbefore
    refine hunchecked before' op (after' ++ after) ?_ t₁ hbefore
    rw [hsplit, hsplit', List.append_assoc, List.cons_append]

def newTeam : Team Name where
  state := openDb emptyDatabase
  disk := fun _ => []
  stores := fun _ => none
  history := fun _ => History.start []

theorem newTeam_starts (names : List Name) : StartsWith id (fun _ => []) names newTeam where
  stores := rfl
  history := rfl
  absent _ _ _ := rfl
  record _ _ _ h := by cases h
  disk _ _ := List.prefix_rfl

def announcedBlocks : List TeamOp :=
  [.call [0x61] (.setTranfer ⟨0, 2, (Sha256.hash [1, 2]).take 8⟩), .processData [0x61] 0 [1] true,
    .processData [0x61] 0 [1, 2] true]

def ownRecord : TeamOp := .call [0x61] (.appendRecord [7] true)

theorem announcedBlocks_ends : (teamRun id announcedBlocks newTeam).map (fun t =>
    (t.history [0x61]).pending) = some [] := by
  decide +kernel

theorem ownRecord_ends : (teamRun id (announcedBlocks ++ [ownRecord]) newTeam).map (fun t =>
    (t.history [0x61]).commits.map fun c => (c.data.map Prod.snd, c.expectedHash.isSome)) =
      some [(List.replicate 9 .own, false), ([.network, .network], true)] := by
  decide +kernel

theorem announcedBlocks_unchecked :
    NoUncheckedFlush id (announcedBlocks ++ [ownRecord]) newTeam := by
  intro before op after hsplit t hrun hflush
  have hchecked : ∀ op ∈ announcedBlocks, flushesUnchecked op.op = false := by
    simp [announcedBlocks, TeamOp.op, flushesUnchecked]
  obtain ⟨hbefore, hop⟩ : before = announcedBlocks ∧ op = ownRecord := by
    rcases List.append_eq_append_iff.mp hsplit
      with ⟨rest, hbefore, hrest⟩ | ⟨rest, hblocks, hrest⟩
    · cases rest with
      | nil => exact ⟨by rw [hbefore, List.append_nil], (List.cons.inj hrest).1.symm⟩
      | cons e rest => simp at hrest
    · cases rest with
      | nil => exact ⟨by rw [hblocks, List.append_nil], (List.cons.inj hrest).1⟩
      | cons e rest =>
        have hmem : op ∈ announcedBlocks := by
          rw [hblocks, (List.cons.inj hrest).1]
          simp
        rw [hchecked op hmem] at hflush
        cases hflush
  obtain ⟨t', hrun', hpending⟩ := Option.map_eq_some_iff.mp announcedBlocks_ends
  rw [hbefore, hrun'] at hrun
  obtain rfl := Option.some.inj hrun
  intro x hx
  rw [hop, ownRecord, TeamOp.name, hpending] at hx
  exact absurd hx List.not_mem_nil

theorem committed_blocks_verified_announced :
    ∃ t, teamRun id (announcedBlocks ++ [ownRecord]) newTeam = some t ∧
    (t.history [0x61]).commits.map (fun c => (c.data.map Prod.snd, c.expectedHash.isSome)) =
      [(List.replicate 9 .own, false), ([.network, .network], true)] ∧
      OnlyVerified id (fun _ => []) t := by
  obtain ⟨t, hrun, hcommits⟩ := Option.map_eq_some_iff.mp ownRecord_ends
  refine ⟨t, hrun, hcommits, ?_⟩
  refine committed_blocks_verified id (fun _ => []) (announcedBlocks ++ [ownRecord]) newTeam
    (newTeam_starts _) ?_
    announcedBlocks_unchecked _ [] (List.append_nil _).symm t hrun
  intro a ha b hb hne
  simp only [announcedBlocks, ownRecord, List.cons_append, List.nil_append,
    List.map_cons, List.map_nil,
    TeamOp.name, List.mem_cons, List.not_mem_nil, or_false, or_self] at ha hb
  exact absurd (ha.trans hb.symm) hne

def unsolicitedBlock : List TeamOp :=
  [.processData [0x61] 0 [1] true, .call [0x61] (.appendRecord [7] true)]

theorem unsolicitedBlock_ends : (teamRun id unsolicitedBlock newTeam).map (fun t =>
    (t.stores [0x61]).isSome) = some true ∧ (teamRun id unsolicitedBlock newTeam).map (fun t =>
      (t.history [0x61]).commits.map fun c => (c.data.take 1, c.expectedHash.isSome)) =
        some [([(1, .network)], false)] := by
  decide +kernel

theorem unsolicited_block_committed : ∃ t, teamRun id unsolicitedBlock newTeam = some t ∧
    ¬ OnlyVerified id (fun _ => []) t := by
  obtain ⟨hopen, hcommits⟩ := unsolicitedBlock_ends
  obtain ⟨t, hrun, hopen⟩ := Option.map_eq_some_iff.mp hopen
  rw [hrun, Option.map_some, Option.some.injEq] at hcommits
  obtain ⟨s, hs⟩ := Option.isSome_iff_exists.mp hopen
  refine ⟨t, hrun, fun hverified => ?_⟩
  obtain ⟨-, -, hall⟩ := hverified [0x61] s hs
  obtain ⟨c, rest, hc, hfirst, -⟩ := List.map_eq_cons_iff.mp hcommits
  obtain ⟨hdata, hnone⟩ := Prod.mk.inj hfirst
  have hmem : ((1 : UInt8), Origin.network) ∈ c.data := by
    have htake : ((1 : UInt8), Origin.network) ∈ c.data.take 1 := by
      rw [hdata]
      exact List.mem_cons_self
    exact List.mem_of_mem_take htake
  obtain ⟨h, hsome, -⟩ := hall c (by rw [hc]; exact List.mem_cons_self) ⟨1, hmem⟩
  rw [hsome] at hnone
  cases hnone

end Succinct.Provenance
