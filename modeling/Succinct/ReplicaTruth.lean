import Succinct.FileReplicas

/-!
What is true of one device as long as the blocks and the metadata that reach it
are true of the files. The files are given: what their authors have committed.
Each method keeps this, and sends nothing that is not true of the files.
-/
namespace Succinct.ReplicaTruth

open NativeStore RecordStore RecordRefinement Provenance TeamRestarts PeerTransfers TeamCalls
  TransferLists PeerSlots FileReplicas
open Messages (Message MessageType Heap create serialise)
open FileBlocks (FileBlock Within)
open PeerMetadata (peerMessage processDifference SYNC_MSG_KEY SYNC_MSG_REQ_METADATA)

section

variable {Path Dev : Type} (resolve : Name → Path) (names : List Name) (author : Name → Dev)

structure Truthful (D : Name → List UInt8) (hash : List UInt8) (name : Name)
    (length : ℕ) : Prop where
  file : name ∈ names
  positive : 0 < length
  within : length ≤ (D name).length
  hash : hash = syncKey (Sha256.hash ((D name).take length))

def TruthfulTransfer (D : Name → List UInt8) (name : Name) (x : PeerTransfer) : Prop :=
  ∃ length : ℕ, x.newLength = length ∧ Truthful names D x.expectedHash name length

def GoodMessage (D : Name → List UInt8) : Message → Prop
  | .fileBlock filename offset data => filename ∈ names ∧ ∃ o : ℕ, offset.toInt = o ∧
      o + data.length ≤ (D filename).length ∧ data = ReceivedBlocks.cut (D filename) o data.length
  | .requestBlock filename offset _ => filename ∈ names ∧ 0 ≤ offset.toInt
  | .syncMsg message => ∀ msg key version, message = SYNC_MSG_SEND_METADATA :: msg →
      parseMetadata msg = some (key, version) → Truthful names D key version.name version.length
  | _ => True

def GoodFrame (heap : Heap) (D : Name → List UInt8) (frame : Frame) : Prop :=
  ∀ m rest, create heap frame.1 frame.2 = (.ok m, rest) → GoodMessage names D m

/-- A team that has nothing but what is true of the files. -/
structure TeamOk (D : Name → List UInt8) (d : Dev) (t : Team Path) : Prop where
  kept : Kept resolve names t
  follows : ∀ name ∈ names, content t name <+: D name
  own : ∀ name ∈ names, author name = d → committed t name = D name
  index : ∀ key version, t.state.db.index key = some version →
    Truthful names D key version.name version.length
  files : ∀ key record, t.state.db.files key = some record → ∃ name ∈ names, key = fileKey name
  held : ∀ name x, slot t name = some x → TruthfulTransfer names D name x ∧ ¬ Outgrown t ⟨name, x⟩

structure DeviceOk (D : Name → List UInt8) (d : Dev) (device : Device Path Dev) : Prop where
  slots : Slots resolve names device
  team : TeamOk resolve names author D d device.team
  listed : ∀ p, ∀ x ∈ (device.peers p).possibleTransfers,
    TruthfulTransfer names D x.filename x.transfer

def BlocksOk (t : Team Path) (blocks : List FileBlock) : Prop :=
  ∀ b ∈ blocks, b.filename ∈ names ∧ Within (committed t b.filename) b

structure NodeOk (D : Name → List UInt8) (d : Dev) (n : Node Path Dev) : Prop where
  device : DeviceOk resolve names author D d n.device
  blocks : BlocksOk names n.device.team n.blocks

end

section Growth

variable {Path Dev : Type} {resolve : Name → Path} {names : List Name} {author : Name → Dev}
  {D D' : Name → List UInt8} (hgrow : ∀ name, D name <+: D' name)

include hgrow

theorem Truthful.grow {hash : List UInt8} {name : Name} {length : ℕ}
    (h : Truthful names D hash name length) : Truthful names D' hash name length := by
  obtain ⟨hname, hpositive, hlength, hhash⟩ := h
  have hle := (hgrow name).length_le
  refine ⟨hname, hpositive, by omega, ?_⟩
  obtain ⟨rest, hrest⟩ := hgrow name
  rw [hhash, ← hrest, List.take_append_of_le_length hlength]

theorem TruthfulTransfer.grow {name : Name} {x : PeerTransfer}
    (h : TruthfulTransfer names D name x) :
    TruthfulTransfer names D' name x := by
  obtain ⟨length, hlength, htruthful⟩ := h
  exact ⟨length, hlength, htruthful.grow hgrow⟩

theorem GoodMessage.grow {m : Message} (h : GoodMessage names D m) : GoodMessage names D' m := by
  cases m with
  | fileBlock filename offset data =>
    obtain ⟨hname, o, hoffset, hle, hdata⟩ := h
    have hlength := (hgrow filename).length_le
    refine ⟨hname, o, hoffset, by omega, ?_⟩
    obtain ⟨rest, hrest⟩ := hgrow filename
    rw [ReceivedBlocks.cut] at hdata
    rw [ReceivedBlocks.cut, ← hrest, List.drop_append_of_le_length (by omega),
      List.take_append_of_le_length (by rw [List.length_drop]; omega)]
    exact hdata
  | requestBlock filename offset length => exact h
  | syncMsg message =>
    intro msg key version hmessage hparse
    exact (h msg key version hmessage hparse).grow hgrow
  | _ => trivial

theorem GoodFrame.grow {heap : Heap} {frame : Frame} (h : GoodFrame names heap D frame) :
    GoodFrame names heap D' frame :=
  fun m rest hcreate => (h m rest hcreate).grow hgrow

/-- Files of other authors have grown. -/
theorem TeamOk.grow {d : Dev} {t : Team Path} (h : TeamOk resolve names author D d t)
    (hown : ∀ name ∈ names, author name = d → D' name = D name) :
    TeamOk resolve names author D' d t where
  kept := h.kept
  follows := fun name hname => (h.follows name hname).trans (hgrow name)
  own := by
    intro name hname hd
    rw [hown name hname hd]
    exact h.own name hname hd
  index := fun key version hindex => (h.index key version hindex).grow hgrow
  files := h.files
  held := fun name x hx => ⟨(h.held name x hx).1.grow hgrow, (h.held name x hx).2⟩

theorem NodeOk.grow {d : Dev} {n : Node Path Dev} (h : NodeOk resolve names author D d n)
    (hown : ∀ name ∈ names, author name = d → D' name = D name) :
    NodeOk resolve names author D' d n where
  device := {
    slots := h.device.slots
    team := h.device.team.grow hgrow hown
    listed := fun p x hx => (h.device.listed p x hx).grow hgrow }
  blocks := h.blocks

end Growth

section Teams

variable {Path Dev : Type} {resolve : Name → Path} {names : List Name} {author : Name → Dev}
  {D : Name → List UInt8} {d : Dev} {t t' : Team Path}

/-- Only the slots may have changed. -/
theorem TeamOk.same (h : TeamOk resolve names author D d t) (hkept : Kept resolve names t')
    (hsame : Same t t') (hheld : ∀ name x, slot t' name = some x →
      TruthfulTransfer names D name x ∧ ¬ Outgrown t ⟨name, x⟩) :
    TeamOk resolve names author D d t' where
  kept := hkept
  follows := by
    intro name hname
    rw [hsame.content]
    exact h.follows name hname
  own := by
    intro name hname hd
    rw [hsame.committed]
    exact h.own name hname hd
  index := by
    rw [hsame.state]
    exact h.index
  files := by
    rw [hsame.state]
    exact h.files
  held := by
    intro name x hx
    rw [outgrown_iff hsame]
    exact hheld name x hx

theorem TeamOk.restart (h : TeamOk resolve names author D d t) :
    TeamOk resolve names author D d (TeamRestarts.restart t) where
  kept := restart_kept h.kept
  follows := by
    intro name hname
    rw [content, committed_restart, pending_restart, List.append_nil]
    exact (List.prefix_append _ _).trans (h.follows name hname)
  own := by
    intro name hname hd
    rw [committed_restart]
    exact h.own name hname hd
  index := by
    rw [restart_state h.kept.durable]
    exact h.index
  files := by
    rw [restart_state h.kept.durable]
    exact h.files
  held := fun name x hx => by cases hx

/-- The author has no pending bytes and waits for none. -/
theorem TeamOk.author_settled (h : TeamOk resolve names author D d t) {name : Name}
    (hname : name ∈ names) (hd : author name = d) : pending t name = [] ∧ slot t name = none := by
  have hown := h.own name hname hd
  refine ⟨?_, ?_⟩
  · have hle := (h.follows name hname).length_le
    rw [content, List.length_append, hown] at hle
    exact List.eq_nil_of_length_eq_zero (by omega)
  · cases hslot : slot t name with
    | none => rfl
    | some x =>
      obtain ⟨⟨length, hlength, htruthful⟩, hout⟩ := h.held name x hslot
      have hwithin := htruthful.within
      exfalso
      apply hout
      rw [Outgrown, hown]
      dsimp only
      omega

theorem fileKey_eq {name : Name} (h : name.length < MAX_NAME) : fileKey name = name := by
  have hmax : MAX_NAME = 256 := rfl
  exact List.take_of_length_le (by omega)

/-- What a flush writes to the index is true of the file. -/
theorem called_index {name : Name} {op : Op} {s : Store} (hnames : Names resolve names)
    (h : Called resolve t name op s t') (hname : name ∈ names)
    (hstarts : committed t' name <+: D name)
    (hindex : ∀ key version, t.state.db.index key = some version →
      Truthful names D key version.name version.length) :
    ∀ key version, t'.state.db.index key = some version →
      Truthful names D key version.name version.length := by
  cases h.commits with
  | nothing hstate hcommitted =>
    rw [hstate, h.state]
    exact hindex
  | flush record root hstate hrecord hcontent hversion =>
    rw [hstate, h.state]
    intro key version hkey
    by_cases heq : key = syncKey record.hash
    · subst heq
      rw [commitFile] at hkey
      dsimp only at hkey
      rw [Function.update_self, h.key, fileKey_eq (hnames.short name hname)] at hkey
      rw [← Option.some.inj hkey]
      have hlength : record.length = (committed t' name).length := hrecord.length
      refine ⟨hname, ?_, ?_, ?_⟩
      · exact hlength ▸ List.length_pos_iff.mpr hcontent
      · dsimp only
        rw [hlength]
        exact hstarts.length_le
      · have hhash : record.hash = Sha256.hash (committed t' name) := by
          rw [hrecord.hash]
          exact if_neg hcontent
        dsimp only
        rw [hlength, ← List.prefix_iff_eq_take.mp hstarts, hhash]
    · rw [commitFile] at hkey
      dsimp only at hkey
      rw [Function.update_of_ne heq] at hkey
      exact hindex key version hkey

theorem called_files {name : Name} {op : Op} {s : Store} (h : Called resolve t name op s t')
    (hname : name ∈ names)
    (hfiles : ∀ key record, t.state.db.files key = some record →
      ∃ name ∈ names, key = fileKey name) :
    ∀ key record, t'.state.db.files key = some record → ∃ name ∈ names, key = fileKey name := by
  cases h.commits with
  | nothing hstate hcommitted =>
    rw [hstate, h.state]
    exact hfiles
  | flush record root hstate hrecord hcontent hversion =>
    rw [hstate, h.state]
    intro key r hkey
    rw [files_commitFile] at hkey
    by_cases heq : key = s.file.name
    · rw [if_pos heq] at hkey
      exact ⟨name, hname, heq.trans h.key⟩
    · rw [if_neg heq] at hkey
      exact hfiles key r hkey

variable [DecidableEq Path]

/-- The author appends a record: its file grows by it, or not at all. -/
theorem TeamOk.record (h : TeamOk resolve names author D d t) (hnames : Names resolve names)
    {name : Name} (hname : name ∈ names) (hd : author name = d)
    {record : List UInt8} {commits : Bool}
    (hstep : teamStep resolve t (.call name (.appendRecord record commits)) = some t') :
    (∀ n, D n <+: Function.update D name (committed t' name) n) ∧
      (committed t' name).length ≤ (D name).length + record.length + 8 ∧
      TeamOk resolve names author (Function.update D name (committed t' name)) d t' := by
  obtain ⟨hpending, hslot⟩ := h.author_settled hname hd
  obtain ⟨hpending', hcommitted⟩ := appendRecord_spec h.kept hnames.distinct hname hpending hstep
  obtain ⟨hkept, s, hcalled⟩ := call_spec h.kept hnames.distinct hname hstep
  have honward := Onward.of_called hcalled (appendRecord_released s record commits)
  have hown := h.own name hname hd
  have hgrow : ∀ n, D n <+: Function.update D name (committed t' name) n := by
    intro n
    by_cases hne : n = name
    · rw [hne, Function.update_self, ← hown]
      exact honward.committed name
    · rw [Function.update_of_ne hne]
  refine ⟨hgrow, ?_, hkept, ?_, ?_, ?_, ?_, ?_⟩
  · have hrecord : (completeRecord record).length = record.length + 8 := by
      simp [completeRecord]
      omega
    rw [hcommitted, List.length_append, hown]
    split
    · omega
    · rw [List.length_nil]
      omega
  · intro n hn
    by_cases hne : n = name
    · rw [hne, Function.update_self, content, hpending', List.append_nil]
    · rw [Function.update_of_ne hne, content, (hcalled.others n hne).1,
        (hcalled.others n hne).2.1]
      exact h.follows n hn
  · intro n hn hdn
    by_cases hne : n = name
    · rw [hne, Function.update_self]
    · rw [Function.update_of_ne hne, (hcalled.others n hne).1]
      exact h.own n hn hdn
  · refine called_index hnames hcalled hname ?_ fun key version hindex =>
      (h.index key version hindex).grow hgrow
    rw [Function.update_self]
  · exact called_files hcalled hname h.files
  · intro n x hx
    by_cases hne : n = name
    · rw [hne] at hx
      have hnone := honward.slots name x hx
      rw [hslot] at hnone
      cases hnone
    · rw [(hcalled.others n hne).2.2] at hx
      obtain ⟨htruthful, hout⟩ := h.held n x hx
      refine ⟨htruthful.grow hgrow, ?_⟩
      rw [Outgrown] at hout ⊢
      dsimp only at hout ⊢
      rw [(hcalled.others n hne).1]
      exact hout

/-- A block that is one of the file. -/
theorem TeamOk.appendAt (h : TeamOk resolve names author D d t) (hnames : Names resolve names)
    {name : Name} (hname : name ∈ names) (hsmall : (D name).length < 2147483648) (o n : ℕ)
    (hcut : o + n ≤ (D name).length) {commits : Bool}
    (hstep : teamStep resolve t (.call name
      (.appendAt o (ReceivedBlocks.cut (D name) o n) commits)) = some t') :
    TeamOk resolve names author D d t' := by
  have hfollows := h.follows name hname
  obtain ⟨hkept, s, hcalled⟩ := call_spec h.kept hnames.distinct hname hstep
  rcases BlockReceipts.appendAt_receipt h.kept hnames.distinct hname hsmall hfollows
    o n hcut hstep with
    ⟨-, hsame, hslot⟩ | ⟨-, hreceipt⟩
  · refine h.same hkept hsame ?_
    intro m x hx
    rw [hslot] at hx
    exact h.held m x hx
  have hcommitted : content t' name <+: D name ∧ (committed t' name = committed t name ∨
      committed t' name = (D name).take (max (content t name).length (o + n))) := by
    cases hreceipt with
    | kept hwaiting hsame hcontent _ =>
      refine ⟨?_, Or.inl hsame⟩
      rw [content, hsame, hcontent]
      exact List.take_prefix _ _
    | completed x _ _ hdone hpending _ =>
      refine ⟨?_, Or.inr hdone⟩
      rw [content, hdone, hpending, List.append_nil]
      exact List.take_prefix _ _
    | dropped x _ _ hsame hpending _ _ =>
      refine ⟨?_, Or.inl hsame⟩
      rw [content, hsame, hpending, List.append_nil]
      exact (List.prefix_append _ _).trans hfollows
  refine ⟨hkept, ?_, ?_, ?_, ?_, ?_⟩
  · intro m hm
    by_cases hne : m = name
    · rw [hne]
      exact hcommitted.1
    · rw [content, (hcalled.others m hne).1, (hcalled.others m hne).2.1]
      exact h.follows m hm
  · intro m hm hdm
    by_cases hne : m = name
    · subst hne
      have hown := h.own m hm hdm
      rcases hcommitted.2 with heq | heq
      · exact heq.trans hown
      · have hlength : (content t m).length = (D m).length := by
          rw [content, (h.author_settled hm hdm).1, List.append_nil, hown]
        rw [heq]
        exact List.take_of_length_le (by omega)
    · rw [(hcalled.others m hne).1]
      exact h.own m hm hdm
  · exact called_index hnames hcalled hname ((List.prefix_append _ _).trans hcommitted.1) h.index
  · exact called_files hcalled hname h.files
  · intro m x hx
    by_cases hne : m = name
    · subst hne
      have hkeeps : slot t' m = slot t m → committed t' m = committed t m →
          TruthfulTransfer names D m x ∧ ¬ Outgrown t' ⟨m, x⟩ := by
        intro hslot hsame
        rw [Outgrown]
        dsimp only
        rw [hsame]
        exact h.held m x (hslot.symm.trans hx)
      cases hreceipt with
      | kept _ hsame _ hslot => exact hkeeps hslot hsame
      | completed y _ _ _ _ hnone =>
        rw [hnone] at hx
        cases hx
      | dropped y hactive _ hsame _ hslot _ => exact hkeeps (hslot.trans hactive.symm) hsame
    · rw [(hcalled.others m hne).2.2] at hx
      rw [Outgrown]
      dsimp only
      rw [(hcalled.others m hne).1]
      exact h.held m x hx

/-- The hash check does not refuse what is true of the file. -/
theorem TruthfulTransfer.accepted {name : Name} {x : PeerTransfer}
    (h : TruthfulTransfer names D name x)
    {reached : ℕ} (hlength : x.newLength = ((D name).take reached).length) :
    x.expectedHash.length ≤ 32 ∧
      x.expectedHash = (Sha256.hash ((D name).take reached)).take x.expectedHash.length := by
  obtain ⟨length, hnew, htruthful⟩ := h
  have htake : (D name).take length = (D name).take reached := by
    have heq : length = ((D name).take reached).length := by omega
    rw [heq]
    exact (List.prefix_iff_eq_take.mp (List.take_prefix _ _)).symm
  have hhash := htruthful.hash
  rw [htake, syncKey] at hhash
  have hsize : x.expectedHash.length = 8 := by
    rw [hhash, List.length_take, Sha256.length_hash]
    rfl
  refine ⟨by omega, ?_⟩
  rw [hsize]
  exact hhash

/-- A block that brings the file to the length that was announced: the bytes are
committed, and the slot is free. -/
theorem TeamOk.completes (h : TeamOk resolve names author D d t) (hnames : Names resolve names)
    {name : Name} (hname : name ∈ names) (hsmall : (D name).length < 2147483648) {o n : ℕ}
    (hcut : o + n ≤ (D name).length) {x : PeerTransfer} (hslot : slot t name = some x)
    (hstart : o ≤ (content t name).length)
    (hreach : x.newLength = max (content t name).length (o + n))
    (hstep : teamStep resolve t (.call name
      (.appendAt o (ReceivedBlocks.cut (D name) o n) true)) = some t') :
    committed t' name = (D name).take (max (content t name).length (o + n)) ∧
    slot t' name = none := by
  have hfollows := h.follows name hname
  have hle := hfollows.length_le
  have hlength : x.newLength = ((D name).take (max (content t name).length (o + n))).length := by
    rw [hreach, List.length_take]
    omega
  rcases BlockReceipts.appendAt_receipt h.kept hnames.distinct hname hsmall hfollows
    o n hcut hstep with
    ⟨hbeyond, -, -⟩ | ⟨-, hreceipt⟩
  · omega
  cases hreceipt with
  | kept hwaiting _ _ _ => exact absurd hlength (hwaiting x hslot)
  | completed y _ _ hcommitted _ hfree => exact ⟨hcommitted, hfree⟩
  | dropped y hactive _ _ _ _ hmismatch =>
    obtain rfl := Option.some.inj (hslot.symm.trans hactive)
    obtain ⟨hshort, hmatch⟩ := (h.held name x hslot).1.accepted hlength
    exact absurd hmatch (hmismatch rfl hshort)

/-- A block that does not bring the file to that length is kept. -/
theorem TeamOk.waits (h : TeamOk resolve names author D d t) (hnames : Names resolve names)
    {name : Name} (hname : name ∈ names) (hsmall : (D name).length < 2147483648) {o n : ℕ}
    (hcut : o + n ≤ (D name).length) {x : PeerTransfer} (hslot : slot t name = some x)
    (hstart : o ≤ (content t name).length)
    (hreach : x.newLength ≠ max (content t name).length (o + n))
    {commits : Bool} (hstep : teamStep resolve t (.call name
      (.appendAt o (ReceivedBlocks.cut (D name) o n) commits)) = some t') :
    (content t' name).length = max (content t name).length (o + n) ∧ slot t' name = some x := by
  have hfollows := h.follows name hname
  have hle := hfollows.length_le
  have hlength : ((D name).take (max (content t name).length (o + n))).length =
      max (content t name).length (o + n) := by
    rw [List.length_take]
    omega
  have hother : ∀ y, slot t name = some y →
      y.newLength ≠ ((D name).take (max (content t name).length (o + n))).length := by
    intro y hy
    rw [← Option.some.inj (hslot.symm.trans hy), hlength]
    exact hreach
  rcases BlockReceipts.appendAt_receipt h.kept hnames.distinct hname hsmall hfollows
    o n hcut hstep with
    ⟨hbeyond, -, -⟩ | ⟨-, hreceipt⟩
  · omega
  cases hreceipt with
  | kept _ hcommitted hcontent hsame =>
    refine ⟨?_, hsame.trans hslot⟩
    rw [content, hcommitted, hcontent, hlength]
  | completed y hactive hreached _ _ _ => exact absurd hreached (hother y hactive)
  | dropped y hactive hreached _ _ _ _ => exact absurd hreached (hother y hactive)

end Teams

end Succinct.ReplicaTruth
