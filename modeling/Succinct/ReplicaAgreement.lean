import Succinct.ReplicaRuns

/-!
The devices refine logs with one author each: whatever they do, what they have of
the files, committed or not, changes as the content of such logs does. So any two
devices agree on what both have of a file.
-/
namespace Succinct.ReplicaAgreement

open NativeStore RecordStore Provenance TeamRestarts PeerTransfers TeamCalls TransferLists
  PeerSlots FileReplicas ReplicaTruth ReplicaMethods ReplicaRuns
open Messages (Message MessageType Heap create serialise)
open AuthoredLogs (Piece extend)

abbrev File (names : List Name) := {name : Name // name ∈ names}

section

variable {Path Dev : Type} (resolve : Name → Path) (heap : Heap) (names : List Name)
    (author : Name → Dev)

def Carries (frame : Frame) (p : Piece (File names) UInt8) : Prop :=
  ∃ offset rest, create heap frame.1 frame.2 = (.ok (.fileBlock p.log offset p.data), rest) ∧
    offset.toInt = p.offset

/-- What the devices have of the files, and the pieces in flight. -/
def logs (w : World Path Dev) : AuthoredLogs.State Dev (File names) UInt8 where
  content d file := content (w.nodes d).device.team file
  sent := {p | ∃ frame ∈ w.frames, Carries heap names frame p}

def Next [DecidableEq Path] [DecidableEq Dev] (w w' : World Path Dev) : Prop :=
  ∃ a, Permitted heap names author w a ∧ step resolve heap w a = some w'

end

def steps {Path Dev : Type} [DecidableEq Path] [DecidableEq Dev]
    (resolve : Name → Path) (heap : Heap) :
    List (Action Dev) → World Path Dev → Option (World Path Dev)
  | [], w => some w
  | a :: rest, w => (step resolve heap w a).bind (steps resolve heap rest)

theorem steps_run {Path Dev : Type} [DecidableEq Path] [DecidableEq Dev] {resolve : Name → Path}
    {heap : Heap} {names : List Name} {author : Name → Dev} (actions : List (Action Dev))
    {w w' : World Path Dev} (hpermitted : ∀ a ∈ actions, ∀ w : World Path Dev,
      Permitted heap names author w a)
    (h : steps resolve heap actions w = some w') :
    Relation.ReflTransGen (Next resolve heap names author) w w' := by
  induction actions generalizing w with
  | nil =>
    rw [← Option.some.inj h]
  | cons a rest ih =>
    obtain ⟨w₁, hstep, hrest⟩ := Option.bind_eq_some_iff.mp h
    exact .head ⟨a, hpermitted a List.mem_cons_self w, hstep⟩
      (ih (fun b hb => hpermitted b (List.mem_cons_of_mem a hb)) hrest)

section Steps

variable {Path Dev : Type} {resolve : Name → Path} {heap : Heap} {names : List Name}
    {author : Name → Dev}
  {D : Name → List UInt8} {d : Dev} {w w' : World Path Dev}

theorem content_le {t : Team Path} (h : TeamOk resolve names author D d t) {name : Name}
    (hname : name ∈ names) : committed t name <+: D name :=
  (List.prefix_append _ _).trans (h.follows name hname)

/-- A message that is sent in a frame of its own is no piece of a file. -/
theorem Sendable.not_carries {m : Message} (h : Sendable names heap D m) {body : List UInt8}
    (hbody : serialise bodyRoom m = some body) (p : Piece (File names) UInt8) :
    ¬ Carries heap names (m.type, body) p := by
  rintro ⟨offset, rest, hread, -⟩
  obtain ⟨m', hcreate, -, htype⟩ := h body hbody
  dsimp only at hread
  rw [hcreate] at hread
  have hm : m' = .fileBlock p.log offset p.data := Except.ok.inj (Prod.mk.inj hread).1
  rw [hm] at htype
  exact htype rfl

/-- Frames that carry nothing of the files add no pieces. -/
theorem sent_append {frames : List Frame}
    (hframes : ∀ frame ∈ frames, ∀ p, ¬ Carries heap names frame p) :
    (logs heap names { w with frames := w.frames ++ frames }).sent =
      (logs heap names w).sent := by
  ext p
  constructor
  · rintro ⟨frame, hframe, hcarries⟩
    rcases List.mem_append.mp hframe with hframe | hframe
    · exact ⟨frame, hframe, hcarries⟩
    · exact absurd hcarries (hframes frame hframe p)
  · rintro ⟨frame, hframe, hcarries⟩
    exact ⟨frame, List.mem_append_left _ hframe, hcarries⟩

theorem Wrote.carries_iff {t : Team Path} {b : FileBlocks.FileBlock}
    {data : List UInt8} {frame : Frame}
    (h : Wrote heap names t b data frame) (p : Piece (File names) UInt8) :
    Carries heap names frame p ↔ p = ⟨⟨b.filename, h.file⟩, b.offset + b.wrote, data⟩ := by
  constructor
  · rintro ⟨offset, rest, hread, hoffset⟩
    rw [h.read] at hread
    have hm := Except.ok.inj (Prod.mk.inj hread).1
    obtain ⟨hlog, hstart, hdata⟩ := Message.fileBlock.inj hm
    rw [← hstart, h.offset] at hoffset
    obtain ⟨⟨log, hlogName⟩, start, bytes⟩ := p
    obtain rfl : b.filename = log := hlog
    obtain rfl : data = bytes := hdata
    obtain rfl : b.offset + b.wrote = start := Int.ofNat.inj hoffset
    rfl
  · rintro rfl
    exact ⟨_, _, h.read, h.offset⟩

/-- The bytes of a frame are a piece of what the device has. -/
theorem Wrote.piece {t : Team Path} {b : FileBlocks.FileBlock} {data : List UInt8} {frame : Frame}
    (h : Wrote heap names t b data frame) :
    Piece.Of (⟨⟨b.filename, h.file⟩, b.offset + b.wrote, data⟩ : Piece (File names) UInt8)
      (content t b.filename) := by
  have hpiece : data <+: (committed t b.filename).drop (b.offset + b.wrote) := by
    rw [h.bytes, ReceivedBlocks.cut]
    exact List.take_prefix _ _
  have hwithin := h.within
  rw [Piece.Of, content]
  dsimp only
  rw [List.drop_append_of_le_length (by omega)]
  exact hpiece.trans (List.prefix_append _ _)

section Content

variable [DecidableEq Path]

/-- What a block of a file does to the files of a device: it is taken, or, if it
ends a transfer that fails, what was pending is lost with it. -/
inductive Taken (names : List Name) (author : Name → Dev) (d : Dev) (t t' : Team Path)
    (p : Piece (File names) UInt8) : Prop where
  | ignored (h : ∀ name, content t' name = content t name)
  | received (hothers : ∀ name ≠ p.log.val, content t' name = content t name)
    (hstart : p.offset ≤ (content t p.log).length)
      (h : content t' p.log = extend (content t p.log) p)
  | lost (hothers : ∀ name ≠ p.log.val, content t' name = content t name)
    (hauthor : author p.log ≠ d) (h : content t' p.log <+: content t p.log)

theorem appendAt_taken {t t' : Team Path} (h : TeamOk resolve names author D d t)
    (hnames : Names resolve names)
    (p : Piece (File names) UInt8) (hsmall : (D p.log).length < 2147483648)
    (hwithin : p.offset + p.data.length ≤ (D p.log).length)
    (hdata : p.data = ReceivedBlocks.cut (D p.log) p.offset p.data.length) {commits : Bool}
    (hstep : teamStep resolve t (.call p.log (.appendAt p.offset p.data commits)) = some t') :
    Taken names author d t t' p := by
  have hname := p.log.property
  have hfollows := h.follows p.log hname
  obtain ⟨-, s, hcalled⟩ := call_spec h.kept hnames.distinct hname hstep
  have hothers : ∀ name ≠ p.log.val, content t' name = content t name := by
    intro name hne
    rw [content, content, (hcalled.others name hne).1, (hcalled.others name hne).2.1]
  have hof : p.Of (D p.log) := by
    rw [Piece.Of, hdata, ReceivedBlocks.cut]
    exact List.take_prefix _ _
  rw [hdata] at hstep
  rcases BlockReceipts.appendAt_receipt h.kept hnames.distinct hname hsmall hfollows p.offset
    p.data.length hwithin hstep with ⟨-, hsame, -⟩ | ⟨hstart, hreceipt⟩
  · exact .ignored hsame.content
  have hextended := AuthoredLogs.extend_eq_take hfollows hof hstart
  cases hreceipt with
  | kept _ hcommitted hcontent _ =>
    refine .received hothers hstart ?_
    rw [hextended, ← hcontent, content, hcommitted]
  | completed x _ _ hcommitted hpending _ =>
    refine .received hothers hstart ?_
    rw [hextended, content, hcommitted, hpending, List.append_nil]
  | dropped x hactive _ hcommitted hpending _ _ =>
    refine .lost hothers ?_ ?_
    · intro hd
      rw [(h.author_settled hname hd).2] at hactive
      cases hactive
    · rw [content, hcommitted, hpending, List.append_nil]
      exact List.prefix_append _ _

end Content

variable [DecidableEq Dev]

/-- Only the files of one device matter to the logs. -/
theorem logs_put {n : Node Path Dev} (h : ∀ name, content n.device.team name =
    content (w.nodes d).device.team name) : logs heap names (w.put d n) = logs heap names w := by
  rw [logs, logs, World.put, AuthoredLogs.State.mk.injEq]
  refine ⟨?_, rfl⟩
  funext e file
  dsimp only
  by_cases he : e = d
  · rw [he, Function.update_self, h]
  · rw [Function.update_of_ne he]

/-- One device has more of one file, or less. -/
theorem logs_put_file {n : Node Path Dev} (file : File names) (h : ∀ name ≠ file.val,
      content n.device.team name = content (w.nodes d).device.team name) :
    logs heap names (w.put d n) =
      (logs heap names w).put d file (content n.device.team file) := by
  rw [logs, logs, World.put, AuthoredLogs.State.put, AuthoredLogs.State.mk.injEq]
  refine ⟨?_, rfl⟩
  funext e file'
  dsimp only
  by_cases he : e = d
  · rw [he, Function.update_self, Function.update_self]
    by_cases hfile : file' = file
    · rw [hfile, Function.update_self]
    · rw [Function.update_of_ne hfile]
      exact h file' fun heq => hfile (Subtype.ext heq)
  · rw [Function.update_of_ne he, Function.update_of_ne he]

/-- One device has less of its files. -/
theorem logs_put_less {n : Node Path Dev} :
    logs heap names (w.put d n) = { logs heap names w with
      content := Function.update (logs heap names w).content d fun file =>
        content n.device.team file } := by
  rw [logs, logs, World.put, AuthoredLogs.State.mk.injEq]
  refine ⟨?_, rfl⟩
  funext e file
  dsimp only
  by_cases he : e = d
  · rw [he, Function.update_self, Function.update_self]
  · rw [Function.update_of_ne he, Function.update_of_ne he]

omit [DecidableEq Dev] in
theorem logs_send {frames : List Frame}
    (hframes : ∀ frame ∈ frames, ∀ p, ¬ Carries heap names frame p) :
    logs heap names { w with frames := w.frames ++ frames } = logs heap names w := by
  rw [logs, AuthoredLogs.State.mk.injEq]
  exact ⟨rfl, sent_append hframes⟩

/-- A method that leaves the files as they were, after the team t. -/
theorem logs_after {t : Team Path} {o : Outcome Path Dev} {n : Node Path Dev}
    (ho : MethodOk resolve names author heap D d t o)
    (hn : ∀ name, content n.device.team name = content t name) :
    logs heap names (w.after d o) = logs heap names (w.put d n) := by
  have hframes : ∀ frame ∈ framesOf o.messages, ∀ p, ¬ Carries heap names frame p := by
    intro frame hframe
    obtain ⟨m, hm, body, hbody, rfl⟩ := mem_framesOf hframe
    exact Sendable.not_carries (ho.messages m hm) hbody
  have hcontent : ∀ name, content o.device.team name = content n.device.team name := by
    intro name
    rw [hn, content, content, ho.files.committed, ho.files.pending]
  have hafter : logs heap names (w.after d o) =
      logs heap names (w.put d ⟨o.device, (w.nodes d).blocks ++ o.blocks⟩) :=
    logs_send hframes
  rw [hafter, logs_put_less, logs_put_less]
  simp only [hcontent]

variable [DecidableEq Path]

theorem record_refines (h : WorldOk resolve heap names author D w) (hnames : Names resolve names)
    (file : File names) {record : List UInt8} {commits : Bool} {device : Device Path Dev}
    (hrecord : appendRecord resolve (w.nodes (author file)).device file record
      commits = some device) :
    AuthoredLogs.Step (fun file : File names => author file) (logs heap names w)
      (logs heap names (w.put (author file) ⟨device, (w.nodes (author file)).blocks⟩)) := by
  obtain ⟨t, hcall, heq⟩ := Option.bind_eq_some_iff.mp hrecord
  have hteam := (h.nodes (author file)).device.team
  obtain ⟨hpending, -⟩ := hteam.author_settled file.property rfl
  obtain ⟨hpending', hcommitted⟩ :=
    appendRecord_spec hteam.kept hnames.distinct file.property hpending hcall
  obtain ⟨-, s, hcalled⟩ := call_spec hteam.kept hnames.distinct file.property hcall
  rw [← Option.some.inj heq, logs_put_file file]
  · have hcontent : content t file = content (w.nodes (author file)).device.team file ++
        (if commits then RecordStore.completeRecord record else []) := by
      rw [content, content, hpending, hpending', hcommitted, List.append_nil, List.append_nil]
    rw [hcontent]
    exact .append (logs heap names w) file _
  · intro name hne
    rw [content, content, (hcalled.others name hne).1, (hcalled.others name hne).2.1]

omit [DecidableEq Path] in
/-- The next process has what was committed. -/
theorem restart_refines (h : WorldOk resolve heap names author D w) (d : Dev) :
    AuthoredLogs.Step (fun file : File names => author file) (logs heap names w)
      (logs heap names (w.put d ⟨restart (w.nodes d).device, []⟩)) := by
  have hcontent : ∀ name, content (restart (w.nodes d).device).team name =
      committed (w.nodes d).device.team name := by
    intro name
    rw [PeerTransfers.restart, content, committed_restart, pending_restart, List.append_nil]
  rw [logs_put_less]
  simp only [hcontent]
  refine .lose (logs heap names w) d _ (fun file => List.prefix_append _ _) ?_
  intro file hd
  have hsettled := (h.nodes d).device.team.author_settled file.property hd
  dsimp only [logs]
  rw [content, hsettled.1, List.append_nil]

omit [DecidableEq Path] in
/-- A frame of a block adds one piece. -/
theorem write_refines {n : Node Path Dev} {frame : Frame} {b : FileBlocks.FileBlock}
    {data : List UInt8} (hfiles : SameFiles (w.nodes d).device.team n.device.team)
    (hwrote : Wrote heap names (w.nodes d).device.team b data frame) :
    AuthoredLogs.Step (fun file : File names => author file) (logs heap names w)
      (logs heap names { w.put d n with frames := w.frames ++ [frame] }) := by
  have hput : logs heap names (w.put d n) = logs heap names w := by
    apply logs_put
    intro name
    rw [content, content, hfiles.committed, hfiles.pending]
  have hsent : logs heap names { w.put d n with frames := w.frames ++ [frame] } =
      { logs heap names w with
        sent := insert ⟨⟨b.filename, hwrote.file⟩, b.offset + b.wrote, data⟩
          (logs heap names w).sent } := by
    rw [← hput, logs, AuthoredLogs.State.mk.injEq]
    refine ⟨rfl, ?_⟩
    ext p
    rw [Set.mem_insert_iff, ← Wrote.carries_iff hwrote]
    constructor
    · rintro ⟨f, hf, hcarries⟩
      rcases List.mem_append.mp hf with hf | hf
      · exact Or.inr ⟨f, hf, hcarries⟩
      · rw [List.mem_singleton.mp hf] at hcarries
        exact Or.inl hcarries
    · rintro (hcarries | ⟨f, hf, hcarries⟩)
      · exact ⟨frame, List.mem_append_right _ (List.mem_singleton.mpr rfl), hcarries⟩
      · exact ⟨f, List.mem_append_left _ hf, hcarries⟩
  rw [hsent]
  exact .send (logs heap names w) d _ (Wrote.piece hwrote)

/-- What a method leaves of the files of a device: what it finds there, or that
with a block from a frame. -/
inductive Reached (resolve : Name → Path) (heap : Heap) (names : List Name)
    (w : World Path Dev) (d : Dev) (t : Team Path) : Prop where
  | quiet (hfiles : SameFiles (w.nodes d).device.team t)
  | block (p : Piece (File names) UInt8) (hsent : p ∈ (logs heap names w).sent) (commits : Bool)
    (hcall : teamStep resolve (w.nodes d).device.team
      (.call p.log (.appendAt p.offset p.data commits)) =
      some t)

inductive Happened (resolve : Name → Path) (heap : Heap) (names : List Name) (author : Name → Dev)
    (D : Name → List UInt8) (w w' : World Path Dev) : Prop where
  | recorded (file : File names) (record : List UInt8) (commits : Bool) (device : Device Path Dev)
    (hlong : (committed (w.nodes (author file)).device.team file).length +
      record.length + 8 < 2147483648)
    (hrecord : appendRecord resolve (w.nodes (author file)).device file record
      commits = some device)
    (h : w' = w.put (author file) ⟨device, (w.nodes (author file)).blocks⟩)
  | restarted (d : Dev) (h : w' = w.put d ⟨restart (w.nodes d).device, []⟩)
  | acted (d : Dev) (t : Team Path) (o : Outcome Path Dev)
    (hteam : Reached resolve heap names w d t)
    (hok : MethodOk resolve names author heap D d t o) (h : w' = w.after d o)
  | wrote (d : Dev) (n : Node Path Dev) (frame : Frame) (b : FileBlocks.FileBlock)
    (data : List UInt8)
    (hnode : NodeOk resolve names author D d n)
      (hfiles : SameFiles (w.nodes d).device.team n.device.team)
    (hwrote : Wrote heap names (w.nodes d).device.team b data frame)
    (h : w' = { w.put d n with frames := w.frames ++ [frame] })
  | heard (frames : List Frame) (hharmless : ∀ frame ∈ frames, ∀ m rest,
      create heap frame.1 frame.2 = (.ok m, rest) → Harmless names m)
    (h : w' = { w with frames := w.frames ++ frames })

theorem step_happened (h : WorldOk resolve heap names author D w) (hnames : Names resolve names)
    {a : Action Dev} (hpermitted : Permitted heap names author w a)
    (hstep : step resolve heap w a = some w') : Happened resolve heap names author D w w' := by
  cases a with
  | record d filename record commits =>
    obtain ⟨hname, rfl, hlong⟩ := hpermitted
    obtain ⟨device, hrecord, heq⟩ := Option.bind_eq_some_iff.mp hstep
    exact .recorded ⟨filename, hname⟩ record commits device hlong hrecord
      (Option.some.inj heq).symm
  | restart d => exact .restarted d (Option.some.inj hstep).symm
  | linksDied d p =>
    obtain ⟨device, hdied, heq⟩ := Option.bind_eq_some_iff.mp hstep
    obtain ⟨hdevice, hsame⟩ := linksDied_ok (h.nodes d).device hnames hdied
    refine .acted d _ ⟨true, device, [], []⟩ (.quiet (SameFiles.refl _))
      (methodOk_quiet true hdevice (SameFiles.of_same hsame)) ?_
    rw [← Option.some.inj heq, World.after, framesOf]
    simp only [List.append_nil, List.filterMap_nil]
    rfl
  | difference d p key connected =>
    obtain ⟨calls, hcalls, hstep⟩ := Option.bind_eq_some_iff.mp hstep
    obtain ⟨o, hmake, heq⟩ := Option.bind_eq_some_iff.mp hstep
    have hgood := processDifference_good (h.nodes d).device.team hnames hpermitted hcalls
    exact .acted d _ o (.quiet (SameFiles.refl _))
      (makeCalls_ok hnames h.small p connected calls (h.nodes d).device hgood hmake)
      (Option.some.inj heq).symm
  | deliver d p i connected commits =>
    obtain ⟨frame, hframe, hstep⟩ := Option.bind_eq_some_iff.mp hstep
    have hmem := List.mem_of_getElem? hframe
    cases hcreate : create heap frame.1 frame.2 with
    | mk result rest =>
      rw [hcreate] at hstep
      cases result with
      | error e =>
        refine .heard [] (fun _ hnone => absurd hnone List.not_mem_nil) ?_
        rw [← Option.some.inj hstep, List.append_nil]
      | ok m =>
        obtain ⟨o, hprocess, heq⟩ := Option.bind_eq_some_iff.mp hstep
        have hnarrow := BlockRequests.yields_create heap frame.1 frame.2 m rest hcreate
        have hgood := h.frames frame hmem m rest hcreate
        obtain ⟨t, harrived, hok⟩ := process_ok (h.nodes d).device hnames h.small p hgood hnarrow
          connected commits hprocess
        refine .acted d t o ?_ hok (Option.some.inj heq).symm
        cases harrived with
        | quiet hfiles => exact .quiet hfiles
        | block filename offset data hm hcall =>
          rw [hm] at hgood hcreate
          obtain ⟨hname, k, hk, -, -⟩ := hgood
          rw [hk] at hcall
          exact .block ⟨⟨filename, hname⟩, k, data⟩
            ⟨frame, hmem, offset, rest, hcreate, hk⟩ commits hcall
  | write d i room count =>
    obtain ⟨⟨frame, n⟩, hwrite, heq⟩ := Option.bind_eq_some_iff.mp hstep
    obtain ⟨hnode, hfiles, b, data, hwrote⟩ :=
      writeBlock_ok (h.nodes d) hnames h.small hpermitted hwrite
    exact .wrote d n frame b data hnode hfiles hwrote (Option.some.inj heq).symm
  | inject frame =>
    refine .heard [frame] ?_ (Option.some.inj hstep).symm
    intro f hf
    rw [List.mem_singleton.mp hf]
    exact hpermitted

omit [DecidableEq Path] [DecidableEq Dev] in
/-- The bytes of a piece in flight are those of the file. -/
theorem sent_good (h : WorldOk resolve heap names author D w) {p : Piece (File names) UInt8}
    (hsent : p ∈ (logs heap names w).sent) : p.offset + p.data.length ≤ (D p.log).length ∧
      p.data = ReceivedBlocks.cut (D p.log) p.offset p.data.length := by
  obtain ⟨frame, hframe, offset, rest, hread, hoffset⟩ := hsent
  obtain ⟨-, k, hk, hwithin, hdata⟩ := h.frames frame hframe _ _ hread
  obtain rfl : k = p.offset := by omega
  exact ⟨hwithin, hdata⟩

omit [DecidableEq Dev] in
theorem Reached.grows (h : WorldOk resolve heap names author D w) (hnames : Names resolve names)
    {t : Team Path} (hteam : Reached resolve heap names w d t) (name : Name) :
    committed (w.nodes d).device.team name <+: committed t name := by
  cases hteam with
  | quiet hfiles => exact hfiles.grows name
  | block p _ commits hcall =>
    exact (call_onward (h.nodes d).device.team.kept hnames.distinct p.log.property
      (appendAt_released · p.offset p.data commits) hcall).2.committed name

/-- Every step keeps the devices and the frames true of the files, which only
grow. -/
theorem Happened.ok (h : WorldOk resolve heap names author D w) (hnames : Names resolve names)
    (happened : Happened resolve heap names author D w w') :
    ∃ D', (∀ name, D name <+: D' name) ∧ WorldOk resolve heap names author D' w' := by
  have hsame : WorldOk resolve heap names author D w' →
      ∃ D', (∀ name, D name <+: D' name) ∧ WorldOk resolve heap names author D' w' :=
    fun hok => ⟨D, fun _ => List.prefix_rfl, hok⟩
  cases happened with
  | recorded file record commits device hlong hrecord heq =>
    rw [heq]
    obtain ⟨hok, hgrow⟩ := h.record hnames file.property hlong hrecord
    exact ⟨_, hgrow, hok⟩
  | restarted d heq =>
    apply hsame
    rw [heq]
    refine h.put ⟨⟨restart_slots (h.nodes d).device.slots,
      (h.nodes d).device.team.restart, ?_⟩, ?_⟩
    · exact fun p x hx => absurd hx List.not_mem_nil
    · exact fun b hb => absurd hb List.not_mem_nil
  | acted d t o hteam hok heq =>
    apply hsame
    rw [heq]
    exact h.after (Reached.grows h hnames hteam) hok
  | wrote d n frame b data hnode _ hwrote heq =>
    apply hsame
    rw [heq]
    refine WorldOk.send (h.put hnode) ?_
    intro f hf
    rw [List.mem_singleton.mp hf]
    exact hwrote.good (content_le (h.nodes d).device.team hwrote.file)
  | heard frames hharmless heq =>
    apply hsame
    rw [heq]
    exact h.send fun f hf m rest hread => harmless_good (hharmless f hf m rest hread)

/-- No step takes back what is committed. -/
theorem Happened.committed (h : WorldOk resolve heap names author D w)
    (hnames : Names resolve names)
    (happened : Happened resolve heap names author D w w') (d : Dev) (name : Name) :
    committed (w.nodes d).device.team name <+: committed (w'.nodes d).device.team name := by
  have hput : ∀ (e : Dev) (n : Node Path Dev), (∀ name,
      TeamRestarts.committed (w.nodes e).device.team name <+:
        TeamRestarts.committed n.device.team name) →
      TeamRestarts.committed (w.nodes d).device.team name <+:
        TeamRestarts.committed ((w.put e n).nodes d).device.team name := by
    intro e n hn
    dsimp only [World.put]
    by_cases hd : d = e
    · rw [hd, Function.update_self]
      exact hn name
    · rw [Function.update_of_ne hd]
  cases happened with
  | recorded file record commits device _ hrecord heq =>
    obtain ⟨t, hcall, hdevice⟩ := Option.bind_eq_some_iff.mp hrecord
    rw [heq, ← Option.some.inj hdevice]
    exact hput _ _ (call_onward (h.nodes _).device.team.kept hnames.distinct file.property
      (appendRecord_released · record commits) hcall).2.committed
  | restarted e heq =>
    rw [heq]
    apply hput
    intro n
    rw [PeerTransfers.restart, committed_restart]
  | acted e t o hteam hok heq =>
    rw [heq]
    exact hput e _ fun n => (Reached.grows h hnames hteam n).trans (hok.files.grows n)
  | wrote e n frame b data _ hfiles _ heq =>
    rw [heq]
    exact hput e n hfiles.grows
  | heard frames _ heq => rw [heq]

/-- A block that arrives. -/
theorem block_refines (h : WorldOk resolve heap names author D w) (hnames : Names resolve names)
    {p : Piece (File names) UInt8} (hsent : p ∈ (logs heap names w).sent)
    {n : Node Path Dev} {commits : Bool}
    (hcall : teamStep resolve (w.nodes d).device.team
      (.call p.log (.appendAt p.offset p.data commits)) =
      some n.device.team) :
    Relation.ReflGen (AuthoredLogs.Step (fun file : File names => author file))
      (logs heap names w) (logs heap names (w.put d n)) := by
  obtain ⟨hwithin, hdata⟩ := sent_good h hsent
  cases appendAt_taken (h.nodes d).device.team hnames p
    (h.small _ p.log.property) hwithin hdata hcall with
  | ignored hsame =>
    rw [logs_put hsame]
  | received hothers hstart hextended =>
    rw [logs_put_file p.log hothers, hextended]
    exact .single (.receive (logs heap names w) d p hsent hstart)
  | lost hothers hauthor hless =>
    rw [logs_put_less]
    refine .single (.lose (logs heap names w) d _ ?_ ?_)
    · intro file
      by_cases hfile : file.val = p.log.val
      · rw [Subtype.ext hfile]
        exact hless
      · rw [hothers file hfile]
        exact List.prefix_rfl
    · intro file hd
      apply hothers
      intro hfile
      rw [Subtype.ext hfile] at hd
      exact hauthor hd

/-- A step of the devices is a step of the logs, or changes nothing there. -/
theorem Happened.refines (h : WorldOk resolve heap names author D w)
    (hnames : Names resolve names) (happened : Happened resolve heap names author D w w') :
    Relation.ReflGen (AuthoredLogs.Step (fun file : File names => author file))
      (logs heap names w) (logs heap names w') := by
  cases happened with
  | recorded file record commits device _ hrecord heq =>
    rw [heq]
    exact .single (record_refines h hnames file hrecord)
  | restarted d heq =>
    rw [heq]
    exact .single (restart_refines h d)
  | acted d t o hteam hok heq =>
    rw [heq,
      logs_after (n := { w.nodes d with device := { (w.nodes d).device with team := t } }) hok
      fun _ => rfl]
    cases hteam with
    | quiet hfiles =>
      rw [logs_put]
      intro name
      dsimp only
      rw [content, content, hfiles.committed, hfiles.pending]
    | block p hsent commits hcall => exact block_refines h hnames hsent hcall
  | wrote d n frame b data _ hfiles hwrote heq =>
    rw [heq]
    exact .single (write_refines hfiles hwrote)
  | heard frames hharmless heq =>
    rw [heq, logs_send]
    rintro f hf p ⟨offset, rest, hread, -⟩
    exact hharmless f hf _ _ hread

end Steps

end Succinct.ReplicaAgreement
