import Succinct.TransferLists

/-!
A device over a whole run: its peers announce files, ask for blocks and send
blocks, in any order and with any contents, own records are appended, links die
and the process is started again. A slot is never held by a transfer that no
peer answers for, unless its file has become as long as was announced.
-/
namespace Succinct.PeerSlots

open NativeStore RecordStore RecordRefinement Provenance TeamRestarts PeerTransfers TeamCalls
  TransferLists

inductive DeviceOp (Id : Type) where
  | peerHas (p : Id) (hash : List UInt8) (filename : Name) (length : ℤ) (connected : Bool)
  | processRequest (filename : Name) (offset length : BitVec 64) (connected : Bool)
  | processData (p : Id) (filename : Name) (offset : BitVec 64) (data : List UInt8)
    (connected commits : Bool)
  | linksDied (p : Id)
  | appendRecord (filename : Name) (record : List UInt8) (commits : Bool)
  | restart

def DeviceOp.filename {Id : Type} : DeviceOp Id → Option Name
  | .peerHas _ _ filename _ _ => some filename
  | .processRequest filename _ _ _ => some filename
  | .processData _ filename _ _ _ _ => some filename
  | .linksDied _ => none
  | .appendRecord filename _ _ => some filename
  | .restart => none

section

variable {Path Id : Type} [DecidableEq Path] [DecidableEq Id]

def deviceStep (resolve : Name → Path) (d : Device Path Id) : DeviceOp Id →
    Option (Device Path Id)
  | .peerHas p hash filename length connected =>
    (peerHas resolve d p hash filename length connected).map Outcome.device
  | .processRequest filename offset length connected =>
    (processRequest resolve d filename offset length connected).map Outcome.device
  | .processData p filename offset data connected commits =>
    (processData resolve d p filename offset data connected commits).map Outcome.device
  | .linksDied p => linksDied resolve d p
  | .appendRecord filename record commits => appendRecord resolve d filename record commits
  | .restart => some (restart d)

def deviceRun (resolve : Name → Path) : List (DeviceOp Id) → Device Path Id →
    Option (Device Path Id)
  | [], d => some d
  | op :: rest, d => (deviceStep resolve d op).bind (deviceRun resolve rest)

end

/-- Each listed transfer has a number of its own, and a slot is held by a listed
transfer, or by one that its file has outgrown. -/
structure Slots {Path Id : Type} (resolve : Name → Path) (names : List Name)
    (d : Device Path Id) :
    Prop where
  kept : Kept resolve names d.team
  names : ∀ p, ∀ x ∈ (d.peers p).possibleTransfers, x.filename ∈ names
  numbers : ∀ p, ∀ x ∈ (d.peers p).possibleTransfers, x.transfer.peer < d.made
  unique : ∀ p q, ∀ x ∈ (d.peers p).possibleTransfers, ∀ y ∈ (d.peers q).possibleTransfers,
    x.transfer.peer = y.transfer.peer → p = q ∧ x = y
  listed : ∀ name x, slot d.team name = some x →
    (∃ p, ⟨name, x⟩ ∈ (d.peers p).possibleTransfers) ∨ Outgrown d.team ⟨name, x⟩

theorem outgrown_mono {Path : Type} {t t' : Team Path} {x : Transfer} (h : Outgrown t x)
    (hstarts : committed t x.filename <+: committed t' x.filename) : Outgrown t' x := by
  have hle := hstarts.length_le
  rw [Outgrown] at h ⊢
  omega

def Released (s : Store) (c : Call) : Prop :=
  c.store.activeTransfer = s.activeTransfer ∨ c.store.activeTransfer = none

theorem append_slot (s : Store) (bytes : List UInt8) (offset length : ℤ) :
    (append s bytes offset length).store.activeTransfer = s.activeTransfer := by
  rw [append]
  split
  · rfl
  split
  · rfl
  · rfl

theorem finishTransfer_released (s : Store) (commits : Bool) :
    Released s (finishTransfer s commits) := by
  rw [finishTransfer]
  split
  · exact Or.inl rfl
  split
  case isTrue transfer _ _ =>
    rw [Released]
    dsimp only
    split
    · exact Or.inr rfl
    · exact Or.inl (TransferSlots.flush_activeTransfer s (some transfer.expectedHash) commits)
  case isFalse =>
    exact Or.inl rfl

theorem appendAt_released (s : Store) (fileOffset : ℤ) (bytes : List UInt8) (commits : Bool) :
    Released s (call s (.appendAt fileOffset bytes commits)) := by
  rw [call, appendAt]
  split
  · exact Or.inl rfl
  have happend := append_slot s bytes (toInt (s.appendOffset - fileOffset))
    (toInt (bytes.length - toInt (s.appendOffset - fileOffset)))
  dsimp only
  split
  · exact Or.inl happend
  · have hfinish := finishTransfer_released (append s bytes (toInt (s.appendOffset - fileOffset))
      (toInt (bytes.length - toInt (s.appendOffset - fileOffset)))).store commits
    rw [Released, happend] at hfinish
    exact hfinish

theorem appendRecord_released (s : Store) (record : List UInt8) (commits : Bool) :
    Released s (call s (.appendRecord record commits)) := by
  have happend := append_slot s (completeRecord record) 0 (completeRecord record).length
  unfold call RecordStore.appendRecord
  dsimp only
  split
  · exact Or.inl happend
  · left
    exact (TransferSlots.flush_activeTransfer _ none commits).trans happend

section Steps

variable {Path Id : Type} [DecidableEq Path] {resolve : Name → Path} {names : List Name}
  {t t' : Team Path} {d d' : Device Path Id}

structure Onward (t t' : Team Path) : Prop where
  slots : ∀ name x, slot t' name = some x → slot t name = some x
  committed : ∀ name, committed t name <+: committed t' name

omit [DecidableEq Path] in
theorem Onward.of_called {name : Name} {op : Op} {s : Store} (h : Called resolve t name op s t')
    (hreleased : Released s (call s op)) : Onward t t' where
  slots := by
    intro n x hx
    by_cases hne : n = name
    · subst hne
      rw [h.slot] at hx
      rw [← h.shows.slot]
      rcases hreleased with heq | hnone
      · exact heq.symm.trans hx
      · rw [hnone] at hx
        cases hx
    · rw [← (h.others n hne).2.2]
      exact hx
  committed := h.committed_prefix

omit [DecidableEq Path] in
theorem Onward.of_same (h : Same t t') (hslot : slot t' = slot t) : Onward t t' where
  slots := by
    intro name x hx
    rw [hslot] at hx
    exact hx
  committed := by
    intro name
    rw [h.committed]

theorem call_onward (h : Kept resolve names t) (hdistinct : Distinct resolve names) {name : Name}
    (hname : name ∈ names) {op : Op} (hreleased : ∀ s, Released s (call s op))
    (hstep : teamStep resolve t (.call name op) = some t') :
    Kept resolve names t' ∧ Onward t t' := by
  obtain ⟨hkept, s, hcalled⟩ := call_spec h hdistinct hname hstep
  exact ⟨hkept, Onward.of_called hcalled (hreleased s)⟩

omit [DecidableEq Path] in
theorem Slots.with_team (h : Slots resolve names d) (hkept : Kept resolve names t')
    (honward : Onward d.team t') : Slots resolve names { d with team := t' } where
  kept := hkept
  names := h.names
  numbers := h.numbers
  unique := h.unique
  listed := by
    intro name x hx
    exact (h.listed name x (honward.slots name x hx)).imp_right
      fun hout => outgrown_mono hout (honward.committed name)

/-- A cancelled list holds no slot. -/
theorem cancelAll_spec (hdistinct : Distinct resolve names)
    (xs : List Transfer) {t t' : Team Path}
    (hkept : Kept resolve names t) (hnames : ∀ x ∈ xs, x.filename ∈ names)
    (hcancel : cancelAll resolve xs t = some t') :
    Kept resolve names t' ∧ Same t t' ∧
      ∀ name x, slot t' name = some x → slot t name = some x ∧ ⟨name, x⟩ ∉ xs := by
  induction xs generalizing t with
  | nil =>
    rw [← Option.some.inj hcancel]
    exact ⟨hkept, Same.refl t, fun name x hx => ⟨hx, List.not_mem_nil⟩⟩
  | cons y rest ih =>
    obtain ⟨t₁, hfirst, hrest⟩ := Option.bind_eq_some_iff.mp hcancel
    obtain ⟨hkept₁, hsame₁, hslot₁⟩ :=
      cancel_spec hkept hdistinct (hnames y List.mem_cons_self) hfirst
    obtain ⟨hkept', hsame', hslots⟩ :=
      ih hkept₁ (fun x hx => hnames x (List.mem_cons_of_mem y hx)) hrest
    refine ⟨hkept', hsame₁.trans hsame', ?_⟩
    intro name x hx
    obtain ⟨hx, hrest⟩ := hslots name x hx
    rw [hslot₁] at hx
    by_cases hname : name = y.filename
    · subst hname
      rw [Function.update_self] at hx
      by_cases hother : slot t y.filename = some y.transfer
      · rw [if_pos hother] at hx
        cases hx
      · rw [if_neg hother] at hx
        refine ⟨hx, ?_⟩
        intro hmem
        rcases List.mem_cons.mp hmem with heq | hmem
        · rw [hx, ← heq] at hother
          exact hother rfl
        · exact hrest hmem
    · rw [Function.update_of_ne hname] at hx
      refine ⟨hx, ?_⟩
      intro hmem
      rcases List.mem_cons.mp hmem with heq | hmem
      · exact hname (congrArg Transfer.filename heq)
      · exact hrest hmem

variable [DecidableEq Id]

theorem nextTransfer_slots (h : Slots resolve names d)
    (hdistinct : Distinct resolve names) (p : Id)
    (connected : Bool) {o : Outcome Path Id}
    (hnext : nextTransfer resolve d p connected = some o) :
    Slots resolve names o.device := by
  obtain ⟨turns, hloop, heq⟩ := Option.bind_eq_some_iff.mp hnext
  rw [← Option.some.inj heq]
  have hturned := nextTransferLoop_spec hdistinct connected (d.peers p).received
    (d.peers p).possibleTransfers h.kept (h.names p) hloop
  have hlist : ∀ q, ∀ x ∈ (Function.update d.peers p { d.peers p with
      possibleTransfers := turns.kept, requested := turns.requested } q).possibleTransfers,
      x ∈ (d.peers q).possibleTransfers := by
    intro q x hx
    by_cases hq : q = p
    · subst hq
      rw [Function.update_self] at hx
      exact hturned.listed.subset hx
    · rw [Function.update_of_ne hq] at hx
      exact hx
  refine ⟨hturned.kept, ?_, ?_, ?_, ?_⟩
  · exact fun q x hx => h.names q x (hlist q x hx)
  · exact fun q x hx => h.numbers q x (hlist q x hx)
  · exact fun q r x hx y hy => h.unique q r x (hlist q x hx) y (hlist r y hy)
  · intro name x hx
    have hkept : ⟨name, x⟩ ∈ turns.kept →
      ∃ q, ⟨name, x⟩ ∈ (Function.update d.peers p { d.peers p with
        possibleTransfers := turns.kept, requested := turns.requested } q).possibleTransfers := by
      intro hmem
      refine ⟨p, ?_⟩
      rw [Function.update_self]
      exact hmem
    dsimp only [Device.setPeer]
    rcases hturned.given name x hx with hx | hmem
    · rcases h.listed name x hx with ⟨q, hmem⟩ | hout
      · by_cases hq : q = p
        · subst hq
          rcases hturned.dropped ⟨name, x⟩ hmem with hmem | hout
          · exact Or.inl (hkept hmem)
          · exact Or.inr ((outgrown_iff hturned.same _).mpr hout)
        · left
          refine ⟨q, ?_⟩
          rw [Function.update_of_ne hq]
          exact hmem
      · exact Or.inr ((outgrown_iff hturned.same _).mpr hout)
    · exact Or.inl (hkept hmem)

omit [DecidableEq Path] in
/-- The counters of a peer change. -/
theorem Slots.with_counters (h : Slots resolve names d) (p : Id) (peer : Peer)
    (hlist : peer.possibleTransfers = (d.peers p).possibleTransfers) :
    Slots resolve names (d.setPeer p peer) := by
  have hsame : ∀ q, (Function.update d.peers p peer q).possibleTransfers =
      (d.peers q).possibleTransfers := by
    intro q
    by_cases hq : q = p
    · subst hq
      rw [Function.update_self, hlist]
    · rw [Function.update_of_ne hq]
  refine ⟨h.kept, ?_, ?_, ?_, ?_⟩
  all_goals
    dsimp only [Device.setPeer]
    simp only [hsame]
  · exact h.names
  · exact h.numbers
  · exact h.unique
  · exact h.listed

omit [DecidableEq Path] in
/-- A new transfer is listed. -/
theorem Slots.announce (h : Slots resolve names d) (p : Id) {filename : Name}
    (hname : filename ∈ names) (length : ℤ) (hash : List UInt8) :
    Slots resolve names { d.setPeer p { d.peers p with possibleTransfers :=
      (d.peers p).possibleTransfers ++ [⟨filename, d.made, length, hash⟩] }
        with made := d.made + 1 } := by
  have hlist : ∀ q x, x ∈ (Function.update d.peers p { d.peers p with possibleTransfers :=
      (d.peers p).possibleTransfers ++ [⟨filename, d.made, length, hash⟩] } q).possibleTransfers ↔
      x ∈ (d.peers q).possibleTransfers ∨ (q = p ∧ x = ⟨filename, d.made, length, hash⟩) := by
    intro q x
    by_cases hq : q = p
    · subst hq
      rw [Function.update_self, List.mem_append, List.mem_singleton]
      simp
    · rw [Function.update_of_ne hq]
      simp [hq]
  refine ⟨h.kept, ?_, ?_, ?_, ?_⟩
  · intro q x hx
    rcases (hlist q x).mp hx with hx | ⟨-, rfl⟩
    · exact h.names q x hx
    · exact hname
  · intro q x hx
    rcases (hlist q x).mp hx with hx | ⟨-, rfl⟩
    · exact Nat.lt_succ_of_lt (h.numbers q x hx)
    · exact Nat.lt_succ_self d.made
  · intro q r x hx y hy hnumber
    rcases (hlist q x).mp hx with hx | ⟨hq, rfl⟩
    · rcases (hlist r y).mp hy with hy | ⟨-, rfl⟩
      · exact h.unique q r x hx y hy hnumber
      · exact absurd hnumber (Nat.ne_of_lt (h.numbers q x hx))
    · rcases (hlist r y).mp hy with hy | ⟨hr, rfl⟩
      · exact absurd hnumber.symm (Nat.ne_of_lt (h.numbers r y hy))
      · exact ⟨hq.trans hr.symm, rfl⟩
  · intro name x hx
    rcases h.listed name x hx with ⟨q, hmem⟩ | hout
    · exact Or.inl ⟨q, (hlist q _).mpr (Or.inl hmem)⟩
    · exact Or.inr hout

theorem linksDied_slots (h : Slots resolve names d) (hdistinct : Distinct resolve names) {p : Id}
    (hdied : linksDied resolve d p = some d') :
    Slots resolve names d' ∧ Same d.team d'.team ∧ (d'.peers p).possibleTransfers = [] ∧
      ∀ name x, slot d'.team name = some x →
        (∃ q ≠ p, ⟨name, x⟩ ∈ (d.peers q).possibleTransfers) ∨ Outgrown d.team ⟨name, x⟩ := by
  obtain ⟨t, hcancel, heq⟩ := Option.bind_eq_some_iff.mp hdied
  obtain rfl := Option.some.inj heq
  obtain ⟨hkept, hsame, hslot⟩ :=
    cancelAll_spec hdistinct (d.peers p).possibleTransfers h.kept (h.names p) hcancel
  have hlist : ∀ q, ∀ x ∈ (Function.update d.peers p ⟨[], 0, 0⟩ q).possibleTransfers,
      q ≠ p ∧ x ∈ (d.peers q).possibleTransfers := by
    intro q x hx
    by_cases hq : q = p
    · subst hq
      rw [Function.update_self] at hx
      exact absurd hx List.not_mem_nil
    · rw [Function.update_of_ne hq] at hx
      exact ⟨hq, hx⟩
  have hleft : ∀ name x, slot t name = some x →
      (∃ q ≠ p, ⟨name, x⟩ ∈ (d.peers q).possibleTransfers) ∨ Outgrown d.team ⟨name, x⟩ := by
    intro name x hx
    obtain ⟨hx, hcancelled⟩ := hslot name x hx
    rcases h.listed name x hx with ⟨q, hmem⟩ | hout
    · left
      refine ⟨q, ?_, hmem⟩
      rintro rfl
      exact hcancelled hmem
    · exact Or.inr hout
  refine ⟨⟨hkept, ?_, ?_, ?_, ?_⟩, hsame, ?_, hleft⟩
  · exact fun q x hx => h.names q x (hlist q x hx).2
  · exact fun q x hx => h.numbers q x (hlist q x hx).2
  · exact fun q r x hx y hy => h.unique q r x (hlist q x hx).2 y (hlist r y hy).2
  · intro name x hx
    rcases hleft name x hx with ⟨q, hq, hmem⟩ | hout
    · left
      refine ⟨q, ?_⟩
      dsimp only [Device.setPeer]
      rw [Function.update_of_ne hq]
      exact hmem
    · exact Or.inr ((outgrown_iff hsame _).mpr hout)
  · dsimp only [Device.setPeer]
    rw [Function.update_self]

omit [DecidableEq Path] [DecidableEq Id] in
theorem restart_slots (h : Slots resolve names d) : Slots resolve names (restart d) := by
  refine ⟨restart_kept h.kept, ?_, ?_, ?_, ?_⟩
  · exact fun p x hx => absurd hx List.not_mem_nil
  · exact fun p x hx => absurd hx List.not_mem_nil
  · exact fun p q x hx => absurd hx List.not_mem_nil
  · intro name x hx
    cases hx

theorem deviceStep_slots (h : Slots resolve names d) (hdistinct : Distinct resolve names)
    {op : DeviceOp Id} (hname : ∀ filename ∈ op.filename, filename ∈ names)
    (hstep : deviceStep resolve d op = some d') : Slots resolve names d' := by
  cases op with
  | peerHas p hash filename length connected =>
    have hfile := hname filename rfl
    obtain ⟨o, hhas, rfl⟩ := Option.map_eq_some_iff.mp hstep
    obtain ⟨⟨s, t⟩, hopen, hhas⟩ := Option.bind_eq_some_iff.mp hhas
    obtain ⟨hkept, hsame, -, hslot⟩ := openIn_spec h.kept hdistinct hfile hopen
    have hopened := h.with_team hkept (Onward.of_same hsame hslot)
    dsimp only at hhas
    split at hhas
    · rw [← Option.some.inj hhas]
      exact hopened
    split at hhas
    · rw [← Option.some.inj hhas]
      exact hopened
    · exact nextTransfer_slots (hopened.announce p hfile length hash) hdistinct p connected hhas
  | processRequest filename offset length connected =>
    obtain ⟨o, hrequest, rfl⟩ := Option.map_eq_some_iff.mp hstep
    obtain ⟨⟨s, t⟩, hopen, hrequest⟩ := Option.bind_eq_some_iff.mp hrequest
    obtain ⟨hkept, hsame, -, hslot⟩ := openIn_spec h.kept hdistinct (hname filename rfl) hopen
    have hopened := h.with_team hkept (Onward.of_same hsame hslot)
    dsimp only at hrequest
    split at hrequest
    · rw [← Option.some.inj hrequest]
      exact hopened
    split at hrequest
    · rw [← Option.some.inj hrequest]
      exact hopened
    · rw [← Option.some.inj hrequest]
      exact hopened
  | processData p filename offset data connected commits =>
    obtain ⟨o, hdata, rfl⟩ := Option.map_eq_some_iff.mp hstep
    have hcounted := h.with_counters p
      { d.peers p with received := (d.peers p).received + data.length } rfl
    obtain ⟨s, -, hdata⟩ := Option.bind_eq_some_iff.mp hdata
    obtain ⟨t, hcall, hdata⟩ := Option.bind_eq_some_iff.mp hdata
    obtain ⟨hkept, honward⟩ := call_onward hcounted.kept hdistinct (hname filename rfl)
      (appendAt_released · offset.toInt data commits) hcall
    have hafter := hcounted.with_team hkept honward
    dsimp only at hdata
    split at hdata
    · rw [← Option.some.inj hdata]
      exact hafter
    · exact nextTransfer_slots hafter hdistinct p connected hdata
  | linksDied p => exact (linksDied_slots h hdistinct hstep).1
  | appendRecord filename record commits =>
    obtain ⟨t, hcall, heq⟩ := Option.bind_eq_some_iff.mp hstep
    rw [← Option.some.inj heq]
    obtain ⟨hkept, honward⟩ := call_onward h.kept hdistinct (hname filename rfl)
      (appendRecord_released · record commits) hcall
    exact h.with_team hkept honward
  | restart =>
    rw [← Option.some.inj hstep]
    exact restart_slots h

theorem deviceRun_slots (hdistinct : Distinct resolve names) (ops : List (DeviceOp Id))
    {d d' : Device Path Id} (h : Slots resolve names d)
    (hnames : ∀ op ∈ ops, ∀ filename ∈ op.filename, filename ∈ names)
    (hrun : deviceRun resolve ops d = some d') : Slots resolve names d' := by
  induction ops generalizing d with
  | nil =>
    rw [← Option.some.inj hrun]
    exact h
  | cons op rest ih =>
    obtain ⟨d₁, hstep, hrest⟩ := Option.bind_eq_some_iff.mp hrun
    exact ih (deviceStep_slots h hdistinct (hnames op List.mem_cons_self) hstep)
      (fun o ho => hnames o (List.mem_cons_of_mem op ho)) hrest

end Steps

structure Started {Path Id : Type} (resolve : Name → Path) (names : List Name)
    (base : Name → List UInt8) (d : Device Path Id) : Prop where
  files : StartsWith resolve base names d.team
  opened : ∃ db, d.team.state = openDb db
  peers : ∀ p, d.peers p = ⟨[], 0, 0⟩

theorem openDb_root (db : Database) : (openDb db).root.version = VERSION ∧
    ((openDb db).db.root = some (openDb db).root ∨
      ((openDb db).db.root = none ∧ (openDb db).root.hash = zeroHash)) := by
  rw [openDb]
  cases hroot : db.root with
  | none =>
    exact ⟨rfl, Or.inr ⟨hroot, rfl⟩⟩
  | some root =>
    dsimp only
    by_cases hversion : root.version ≠ VERSION
    · rw [if_pos hversion]
      exact ⟨rfl, Or.inr ⟨rfl, rfl⟩⟩
    · rw [if_neg hversion]
      refine ⟨rfl, Or.inl ?_⟩
      rw [hroot, ← not_not.mp hversion]

theorem Started.kept {Path Id : Type} {resolve : Name → Path} {names : List Name}
    {base : Name → List UInt8} {d : Device Path Id} (h : Started resolve names base d) :
    Kept resolve names d.team := by
  obtain ⟨db, hstate⟩ := h.opened
  obtain ⟨hversion, hroot⟩ := openDb_root db
  have hcommitted : ∀ name, committed d.team name = base name := by
    intro name
    rw [TeamRestarts.committed, h.files.history]
    exact bytesOf_tag _ _
  refine ⟨⟨base, h.files.sound⟩, ?_, ?_, ?_, ?_, ?_⟩
  · intro name _ x hx
    rw [h.files.history] at hx
    exact absurd hx List.not_mem_nil
  · intro name hname
    rw [hcommitted]
    exact h.files.absent name hname
  · intro name hname
    rw [hcommitted]
    exact h.files.record name hname
  · rw [hstate]
    exact hversion
  · rw [hstate]
    exact hroot

theorem Started.slots {Path Id : Type} {resolve : Name → Path} {names : List Name}
    {base : Name → List UInt8} {d : Device Path Id} (h : Started resolve names base d) :
    Slots resolve names d := by
  have hlist : ∀ p x, x ∉ (d.peers p).possibleTransfers := by
    intro p x
    rw [h.peers]
    exact List.not_mem_nil
  refine ⟨h.kept, ?_, ?_, ?_, ?_⟩
  · exact fun p x hx => absurd hx (hlist p x)
  · exact fun p x hx => absurd hx (hlist p x)
  · exact fun p q x hx => absurd hx (hlist p x)
  · intro name x hx
    rw [slot, h.files.stores] at hx
    cases hx

/-- In any run, a transfer that holds a slot is listed for exactly one peer, or
its file is as long as was announced. When the links of a peer die, its list is
emptied, no file changes, and a slot is only held for another peer, or for a
file that is long enough. -/
theorem slots_answered {Path Id : Type} [DecidableEq Path] [DecidableEq Id]
    (resolve : Name → Path)
    (names : List Name) (hdistinct : Distinct resolve names) (base : Name → List UInt8)
    (start : Device Path Id) (hstart : Started resolve names base start)
    (ops : List (DeviceOp Id))
    (hnames : ∀ op ∈ ops, ∀ filename ∈ op.filename, filename ∈ names) (d : Device Path Id)
    (hrun : deviceRun resolve ops start = some d) :
    (∀ name x, slot d.team name = some x →
      (∃! p, ⟨name, x⟩ ∈ (d.peers p).possibleTransfers) ∨ Outgrown d.team ⟨name, x⟩) ∧
    ∀ p d', linksDied resolve d p = some d' → (d'.peers p).possibleTransfers = [] ∧
      (∀ name, content d'.team name = content d.team name) ∧
      ∀ name x, slot d'.team name = some x →
        (∃ q ≠ p, ⟨name, x⟩ ∈ (d.peers q).possibleTransfers) ∨ Outgrown d.team ⟨name, x⟩ := by
  have hslots := deviceRun_slots hdistinct ops hstart.slots hnames hrun
  refine ⟨?_, ?_⟩
  · intro name x hx
    refine (hslots.listed name x hx).imp_left ?_
    rintro ⟨p, hp⟩
    exact ⟨p, hp, fun q hq => (hslots.unique q p _ hq _ hp rfl).1⟩
  · intro p d' hdied
    obtain ⟨-, hsame, hempty, hleft⟩ := linksDied_slots hslots hdistinct hdied
    exact ⟨hempty, hsame.content, hleft⟩

def newDevice : Device Name ℕ := ⟨newTeam, fun _ => ⟨[], 0, 0⟩, 0⟩

theorem newDevice_started (names : List Name) : Started id names (fun _ => []) newDevice where
  files := newTeam_starts names
  opened := ⟨emptyDatabase, rfl⟩
  peers _ := rfl

def announcedTwice : List (DeviceOp ℕ) :=
  [.peerHas 0 [1] [0x61] 2 true, .peerHas 1 [2] [0x61] 3 true]

theorem slots_answered_twice : ∃ d d', deviceRun id announcedTwice newDevice = some d ∧
    slot d.team [0x61] = some ⟨0, 2, [1]⟩ ∧ linksDied id d 0 = some d' ∧
    ∀ name x, slot d'.team name = some x →
      (∃ q ≠ 0, ⟨name, x⟩ ∈ (d.peers q).possibleTransfers) ∨ Outgrown d.team ⟨name, x⟩ := by
  have hends : (deviceRun id announcedTwice newDevice).map (fun d =>
      (slot d.team [0x61], (linksDied id d 0).isSome)) = some (some ⟨0, 2, [1]⟩, true) := by
    decide +kernel
  obtain ⟨d, hrun, hd⟩ := Option.map_eq_some_iff.mp hends
  obtain ⟨hslot, hdied⟩ := Prod.mk.inj hd
  obtain ⟨d', hdied⟩ := Option.isSome_iff_exists.mp hdied
  have hdistinct : Distinct id [[0x61]] := by
    intro a ha b hb hne
    rw [List.mem_singleton.mp ha, List.mem_singleton.mp hb] at hne
    exact absurd rfl hne
  have hnames : ∀ op ∈ announcedTwice, ∀ filename ∈ op.filename, filename ∈ [[0x61]] := by
    decide
  exact ⟨d, d', hrun, hslot, hdied, ((slots_answered id [[0x61]] hdistinct _ newDevice
    (newDevice_started _) announcedTwice hnames d hrun).2 0 d' hdied).2.2⟩

/-- After any run, once nextTransfer returns, whatever is still listed for the
peer waits for a slot that is taken, or more than the maximum is outstanding; and
what was asked for is what was counted. -/
theorem no_idle_slot {Path Id : Type} [DecidableEq Path] [DecidableEq Id] (resolve : Name → Path)
    (names : List Name) (hdistinct : Distinct resolve names) (base : Name → List UInt8)
    (start : Device Path Id) (hstart : Started resolve names base start)
    (ops : List (DeviceOp Id))
    (hnames : ∀ op ∈ ops, ∀ filename ∈ op.filename, filename ∈ names) (d : Device Path Id)
    (hrun : deviceRun resolve ops start = some d) (p : Id) (connected : Bool)
    (o : Outcome Path Id) (hnext : nextTransfer resolve d p connected = some o) :
    (o.returned = true → ∀ x ∈ (o.device.peers p).possibleTransfers,
      (slot o.device.team x.filename).isSome ∨
        maxRequest < (o.device.peers p).requested - (o.device.peers p).received) ∧
    ((∀ x ∈ (o.device.peers p).possibleTransfers, x.transfer.newLength < 2 ^ 63) →
      (o.device.peers p).requested = (d.peers p).requested + (o.messages.map asked).sum) := by
  have hslots := deviceRun_slots hdistinct ops hstart.slots hnames hrun
  obtain ⟨turns, hloop, heq⟩ := Option.bind_eq_some_iff.mp hnext
  have hbusy := nextTransferLoop_busy hdistinct connected (d.peers p).received
    (d.peers p).possibleTransfers hslots.kept (hslots.names p) hloop
  rw [← Option.some.inj heq]
  dsimp only [Device.setPeer]
  rw [Function.update_self]
  exact ⟨hbusy.listed, hbusy.sum⟩

/-- What a peer announced before it was connected is asked for then. -/
theorem no_idle_slot_announced : ∃ d o,
    deviceRun id [.peerHas 0 [1] [0x61] 2 false, .linksDied 1] newDevice = some d ∧
    nextTransfer id d 0 true = some o ∧ o.returned = true ∧
    ∀ x ∈ (o.device.peers 0).possibleTransfers, (slot o.device.team x.filename).isSome ∨
      maxRequest < (o.device.peers 0).requested - (o.device.peers 0).received := by
  have hends : (deviceRun id [.peerHas 0 [1] [0x61] 2 false, .linksDied 1] newDevice).bind
    (fun d =>
      (nextTransfer id d 0 true).map Outcome.returned) = some true := by
    decide +kernel
  obtain ⟨d, hrun, hd⟩ := Option.bind_eq_some_iff.mp hends
  obtain ⟨o, hnext, hreturned⟩ := Option.map_eq_some_iff.mp hd
  have hdistinct : Distinct id [[0x61]] := by
    intro a ha b hb hne
    rw [List.mem_singleton.mp ha, List.mem_singleton.mp hb] at hne
    exact absurd rfl hne
  exact ⟨d, o, hrun, hnext, hreturned, (no_idle_slot id [[0x61]] hdistinct _ newDevice
    (newDevice_started _) _ (by decide) d hrun 0 true o hnext).1 hreturned⟩

end Succinct.PeerSlots
