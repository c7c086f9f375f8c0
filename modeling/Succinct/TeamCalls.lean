import Succinct.PeerTransfers
import Succinct.ReceivedBlocks
import Succinct.AuthoredLogs

/-!
What the calls of a device do to the files of its team: to the bytes that are
committed and pending, and to the slots of the transfers. One lemma for each
call says all that it can do.
-/
namespace Succinct.TeamCalls

open NativeStore RecordStore RecordRefinement Provenance TeamRestarts PeerTransfers

section Views

variable {Path : Type}

def slot (t : Team Path) (name : Name) : Option PeerTransfer :=
  (t.stores name).bind Store.activeTransfer

def content (t : Team Path) (name : Name) : List UInt8 := committed t name ++ pending t name

def Distinct (resolve : Name → Path) (names : List Name) : Prop :=
  ∀ a ∈ names, ∀ b ∈ names, a ≠ b → fileKey a ≠ fileKey b ∧ resolve a ≠ resolve b

/-- The files of the team agree with their histories, and the native store with
what is committed. -/
structure Kept (resolve : Name → Path) (names : List Name) (t : Team Path) : Prop where
  sound : ∃ base, Sound resolve base names t
  own : ∀ name ∈ names, ∀ x ∈ (t.history name).pending, x.2 = Origin.own
  durable : Durable names t

structure Same (t t' : Team Path) : Prop where
  committed : ∀ name, committed t' name = committed t name
  pending : ∀ name, pending t' name = pending t name
  state : t'.state = t.state

theorem Same.refl (t : Team Path) : Same t t := ⟨fun _ => rfl, fun _ => rfl, rfl⟩

theorem Same.trans {t t' t'' : Team Path} (h : Same t t') (h' : Same t' t'') : Same t t'' :=
  ⟨fun name => (h'.committed name).trans (h.committed name),
    fun name => (h'.pending name).trans (h.pending name), h'.state.trans h.state⟩

theorem Same.content {t t' : Team Path} (h : Same t t') (name : Name) :
    content t' name = content t name := by
  rw [TeamCalls.content, TeamCalls.content, h.committed, h.pending]

end Views

theorem own_applyAll (effects : List Effect) {h : History}
    (hown : ∀ x ∈ h.pending, x.2 = Origin.own) :
    ∀ x ∈ (h.applyAll .own effects).pending, x.2 = Origin.own := by
  induction effects generalizing h with
  | nil => exact hown
  | cons effect rest ih =>
    apply ih
    cases effect with
    | append data =>
      intro x hx
      rcases List.mem_append.mp hx with hx | hx
      · exact hown x hx
      · obtain ⟨b, -, rfl⟩ := List.mem_map.mp hx
        rfl
    | flush expectedHash ret =>
      rw [History.apply]
      split
      · exact fun x hx => absurd hx List.not_mem_nil
      · exact fun x hx => absurd hx List.not_mem_nil

/-- The store tells what is committed and pending. -/
theorem mirrors_unique {s : Store} {a a' : AppendOnly} (h : Mirrors s a) (h' : Mirrors s a') :
    a.committed = a'.committed ∧ a.pending = a'.pending := by
  obtain ⟨rest, hrest⟩ := h.disk
  obtain ⟨rest', hrest'⟩ := h'.disk
  have hcontent : a.committed ++ a.pending = a'.committed ++ a'.pending :=
    List.append_inj_left (hrest.trans hrest'.symm) (h.offset_eq.symm.trans h'.offset_eq)
  exact List.append_inj hcontent (h.eof_eq.symm.trans h'.eof_eq)

section Calls

variable {Path : Type} {resolve : Name → Path} {names : List Name}
    {t t' : Team Path} {name : Name}
  {s : Store}

structure Shows (t : Team Path) (name : Name) (s : Store) : Prop where
  mirrors : Mirrors s ⟨committed t name, pending t name, s.file.version⟩
  eof : s.EOF = (committed t name).length
  offset : s.appendOffset = (content t name).length
  slot : s.activeTransfer = slot t name
  bytes : s.disk.take s.EOF = committed t name
  read : s.disk.take s.appendOffset = content t name

theorem openFile_shows (h : Kept resolve names t) (hname : name ∈ names)
    (hopen : openFile resolve t name = some s) : Shows t name s := by
  obtain ⟨base, hsound⟩ := h.sound
  obtain ⟨hmirrors, -, -⟩ := openFile_mirrors hsound hname hopen
  have hslot : s.activeTransfer = slot t name := by
    rw [openFile] at hopen
    rw [slot]
    cases hstore : t.stores name with
    | none =>
      rw [hstore] at hopen
      obtain ⟨file, -, heq⟩ := Option.bind_eq_some_iff.mp hopen
      rw [← Option.some.inj heq]
      rfl
    | some s₀ =>
      rw [hstore] at hopen
      rw [← Option.some.inj hopen]
      rfl
  obtain ⟨rest, hrest⟩ := hmirrors.disk
  refine ⟨hmirrors, hmirrors.eof_eq, hmirrors.offset_eq, hslot, ?_, ?_⟩
  · rw [hmirrors.eof_eq, ← hrest, List.append_assoc, List.take_left]
    rfl
  · rw [hmirrors.offset_eq, ← hrest, List.take_left]
    rfl

/-- Only a file without a name cannot be opened. -/
theorem openFile_total (resolve : Name → Path) (t : Team Path) {name : Name} (hname : name ≠ []) :
    ∃ s, openFile resolve t name = some s := by
  have hkey : fileKey name ≠ [] := by
    rw [fileKey, Ne, List.take_eq_nil_iff]
    rintro (h | h)
    · cases h
    · exact hname h
  rw [openFile]
  cases t.stores name with
  | none =>
    dsimp only
    rw [openStore, fileOpen]
    dsimp only
    rw [if_neg hkey]
    exact ⟨_, rfl⟩
  | some s => exact ⟨_, rfl⟩

theorem restart_kept (h : Kept resolve names t) :
    Kept resolve names (TeamRestarts.restart t) := by
  obtain ⟨base, hsound⟩ := h.sound
  refine ⟨⟨_, restart_sound hsound h.durable⟩, ?_, restart_durable h.durable⟩
  intro name _ x hx
  exact absurd hx List.not_mem_nil

/-- All that a call does: to its own file what its effects say, and nothing to
the others. -/
structure Called (resolve : Name → Path) (t : Team Path) (name : Name) (op : Op) (s : Store)
    (t' : Team Path) : Prop where
  opened : openFile resolve t name = some s
  shows : Shows t name s
  mirrors : Mirrors (call s op).store
    ⟨committed t' name, pending t' name, (call s op).store.file.version⟩
  effects : ∃ version, (⟨committed t name, pending t name, s.file.version⟩ : AppendOnly).applyAll
    (call s op).effects = ⟨committed t' name, pending t' name, version⟩
  slot : slot t' name = (call s op).store.activeTransfer
  state : s.state = t.state
  after : t'.state = (call s op).store.state
  commits : Commits s ⟨committed t name, pending t name, s.file.version⟩
    ⟨committed t' name, pending t' name, s.file.version⟩ t'.state
  key : s.file.name = fileKey name
  others : ∀ n ≠ name, committed t' n = committed t n ∧ pending t' n = pending t n ∧
    TeamCalls.slot t' n = TeamCalls.slot t n

variable [DecidableEq Path]

theorem call_spec (h : Kept resolve names t) (hdistinct : Distinct resolve names)
    (hname : name ∈ names) {op : Op} (hstep : teamStep resolve t (.call name op) = some t') :
    Kept resolve names t' ∧ ∃ s, Called resolve t name op s t' := by
  obtain ⟨base, hsound⟩ := h.sound
  have hname' : (TeamOp.call name op).name ∈ names := hname
  obtain ⟨s, hstepped⟩ := teamStep_stepped hsound hname' hstep
  have hdurable :=
    hstepped.durable h.durable (fun a ha b hb hne => (hdistinct a ha b hb hne).1) hname'
  have hsound' := teamStep_sound hsound hname' hdistinct (fun _ => h.own name hname) hstep
  have hshows : Shows t name s := openFile_shows h hname hstepped.opened
  have hstore : t'.stores name = some (call s op).store := hstepped.store
  obtain ⟨version, hhistory⟩ : ∃ version, (⟨committed t name, pending t name, s.file.version⟩ :
      AppendOnly).applyAll (call s op).effects = ⟨committed t' name, pending t' name, version⟩ :=
    hstepped.history
  refine ⟨⟨⟨base, hsound'⟩, ?_, hdurable⟩, s, hstepped.opened, hshows, ?_,
    ⟨version, hhistory⟩, ?_, hstepped.state, hstepped.after, hstepped.commits, hstepped.name, ?_⟩
  · intro n hn
    by_cases hne : n = name
    · subst hne
      obtain ⟨s', -, heq⟩ := Option.bind_eq_some_iff.mp hstep
      obtain rfl := Option.some.inj heq
      dsimp only [TeamOp.name]
      rw [Function.update_self]
      exact own_applyAll _ (h.own n hn)
    · rw [(hstepped.others n hne).2]
      exact h.own n hn
  · have hcall := call_mirrors hshows.mirrors op
    rw [hhistory] at hcall
    have hversion := hcall.version
    dsimp only at hversion
    rw [← hversion] at hcall
    exact hcall
  · rw [TeamCalls.slot, hstore]
    rfl
  · intro n hne
    obtain ⟨hcommitted, hpending⟩ := hstepped.committed_others hne
    refine ⟨hcommitted, hpending, ?_⟩
    rw [TeamCalls.slot, TeamCalls.slot, (hstepped.others n hne).1]

omit [DecidableEq Path] in
theorem Called.same {op : Op} (h : Called resolve t name op s t')
    (heffects : (call s op).effects = [])
    (hstate : (call s op).store.state = s.state) : Same t t' := by
  obtain ⟨version, hhistory⟩ := h.effects
  rw [heffects] at hhistory
  obtain ⟨hcommitted, hpending, -⟩ := AppendOnly.mk.inj hhistory
  refine ⟨?_, ?_, ?_⟩
  · intro n
    by_cases hne : n = name
    · rw [hne]
      exact hcommitted.symm
    · exact (h.others n hne).1
  · intro n
    by_cases hne : n = name
    · rw [hne]
      exact hpending.symm
    · exact (h.others n hne).2.1
  · rw [h.after, hstate, h.state]

omit [DecidableEq Path] in
theorem applyAll_committed (effects : List Effect) (a : AppendOnly) :
    a.committed <+: (a.applyAll effects).committed := by
  induction effects generalizing a with
  | nil => exact List.prefix_rfl
  | cons effect rest ih =>
    refine List.IsPrefix.trans ?_ (ih (a.apply effect))
    cases effect with
    | append data => exact List.prefix_rfl
    | flush expectedHash ret =>
      rw [AppendOnly.apply]
      split
      · exact List.prefix_append _ _
      · exact List.prefix_rfl

omit [DecidableEq Path] in
/-- What is committed stays. -/
theorem Called.committed_prefix {op : Op} (h : Called resolve t name op s t') (n : Name) :
    committed t n <+: committed t' n := by
  by_cases hne : n = name
  · subst hne
    obtain ⟨version, hhistory⟩ := h.effects
    have hcommitted :=
      applyAll_committed (call s op).effects ⟨committed t n, pending t n, s.file.version⟩
    rw [hhistory] at hcommitted
    exact hcommitted
  · rw [(h.others n hne).1]

theorem openIn_total (resolve : Name → Path) (t : Team Path) {name : Name} (hname : name ≠ []) :
    ∃ s t', openIn resolve t name = some (s, t') := by
  obtain ⟨s, hs⟩ := openFile_total resolve t hname
  rw [openIn, hs]
  exact ⟨_, _, rfl⟩

theorem teamStep_total (resolve : Name → Path) (t : Team Path) {name : Name}
    (hname : name ≠ []) (op : Op) :
    ∃ t', teamStep resolve t (.call name op) = some t' := by
  obtain ⟨s, hs⟩ := openFile_total resolve t hname
  rw [teamStep, TeamOp.name, hs]
  exact ⟨_, rfl⟩

theorem openIn_eq (hopen : openIn resolve t name = some (s, t')) :
    openFile resolve t name = some s ∧
    teamStep resolve t (.call name (.append [] 0 0)) = some t' := by
  obtain ⟨s', hfile, heq⟩ := Option.bind_eq_some_iff.mp hopen
  obtain ⟨rfl, rfl⟩ := Prod.mk.inj (Option.some.inj heq)
  refine ⟨hfile, ?_⟩
  rw [teamStep]
  dsimp only [TeamOp.name]
  rw [hfile]
  have hcall : call s' (.append [] 0 0) = ⟨true, [], s'⟩ := rfl
  simp only [TeamOp.op, hcall, Option.bind_eq_bind, Option.bind_some, History.applyAll,
    List.foldl_nil, Function.update_eq_self]

theorem openIn_spec (h : Kept resolve names t) (hdistinct : Distinct resolve names)
    (hname : name ∈ names) (hopen : openIn resolve t name = some (s, t')) :
    Kept resolve names t' ∧ Same t t' ∧ Shows t name s ∧ slot t' = slot t := by
  obtain ⟨hfile, hstep⟩ := openIn_eq hopen
  obtain ⟨hkept, s', hcalled⟩ := call_spec h hdistinct hname hstep
  have hshows := openFile_shows h hname hfile
  obtain rfl := Option.some.inj (hfile.symm.trans hcalled.opened)
  refine ⟨hkept, hcalled.same rfl rfl, hshows, ?_⟩
  funext n
  by_cases hne : n = name
  · rw [hne]
    exact hcalled.slot.trans hshows.slot
  · exact (hcalled.others n hne).2.2

theorem setTranfer_spec (h : Kept resolve names t) (hdistinct : Distinct resolve names)
    (hname : name ∈ names) {transfer : PeerTransfer}
    (hstep : teamStep resolve t (.call name (.setTranfer transfer)) = some t') :
    Kept resolve names t' ∧ Same t t' ∧
      slot t' = Function.update (slot t) name ((slot t name).or (some transfer)) := by
  obtain ⟨hkept, s, hcalled⟩ := call_spec h hdistinct hname hstep
  have hstate : (call s (.setTranfer transfer)).store.state = s.state := by
    rw [call, setTranfer]
    split
    · rfl
    · rfl
  refine ⟨hkept, hcalled.same rfl hstate, ?_⟩
  funext n
  by_cases hne : n = name
  · subst hne
    rw [Function.update_self, hcalled.slot, ← hcalled.shows.slot, call, setTranfer]
    cases hactive : s.activeTransfer with
    | none => rfl
    | some active => exact hactive
  · rw [Function.update_of_ne hne, (hcalled.others n hne).2.2]

theorem cancel_spec (h : Kept resolve names t) (hdistinct : Distinct resolve names)
    (hname : name ∈ names) {transfer : PeerTransfer}
    (hstep : teamStep resolve t (.call name (.cancel transfer)) = some t') :
    Kept resolve names t' ∧ Same t t' ∧ slot t' =
      Function.update (slot t) name (if slot t name = some transfer then none
        else slot t name) := by
  obtain ⟨hkept, s, hcalled⟩ := call_spec h hdistinct hname hstep
  have hstate : (call s (.cancel transfer)).store.state = s.state := by
    rw [call, cancel]
    split
    · rfl
    · rfl
  refine ⟨hkept, hcalled.same rfl hstate, ?_⟩
  funext n
  by_cases hne : n = name
  · subst hne
    rw [Function.update_self, hcalled.slot, ← hcalled.shows.slot, call, cancel]
    split
    · rfl
    · rfl
  · rw [Function.update_of_ne hne, (hcalled.others n hne).2.2]

/-- A record on a file without pending bytes is committed whole or not at all. -/
theorem appendRecord_spec (h : Kept resolve names t) (hdistinct : Distinct resolve names)
    (hname : name ∈ names) {record : List UInt8} {commits : Bool} (hpending : pending t name = [])
    (hstep : teamStep resolve t (.call name (.appendRecord record commits)) = some t') :
    pending t' name = [] ∧
      committed t' name = committed t name ++
        (if commits then completeRecord record else []) := by
  obtain ⟨hkept, s, hcalled⟩ := call_spec h hdistinct hname hstep
  have hmirrors := hcalled.shows.mirrors
  rw [hpending] at hmirrors
  have hrecord := (appendRecord_mirrors hmirrors record commits).2
  obtain ⟨hcommitted, hpending'⟩ := mirrors_unique hcalled.mirrors hrecord
  dsimp only at hcommitted hpending'
  rw [hcommitted, hpending']
  cases commits with
  | false => simp
  | true => exact ⟨rfl, rfl⟩

end Calls

end Succinct.TeamCalls
