import Succinct.ReplicaMethods
import Succinct.AuthoredLogs

/-!
The devices of a team over any run. What a device has of a file is a prefix of
what the author of the file has committed; the blocks and the metadata in flight
are true of the files; so is what is announced for every transfer. A transfer
whose bytes have arrived is not refused for its hash.
-/
namespace Succinct.ReplicaRuns

open NativeStore RecordStore RecordRefinement Provenance TeamRestarts PeerTransfers TeamCalls
  TransferLists PeerSlots FileReplicas ReplicaTruth ReplicaMethods
open Messages (Message MessageType Heap create serialise)
open FileBlocks (FileBlock Within)
open PeerMetadata (peerMessage processDifference SYNC_MSG_KEY SYNC_MSG_REQ_METADATA
  receiveFromPeer callPeerHas)

section Natives

variable {Path Dev : Type} {resolve : Name → Path} {names : List Name} {author : Name → Dev}
  {D : Name → List UInt8} {d : Dev} {heap : Heap} {device : Device Path Dev}
  {o : Outcome Path Dev}

def GoodCall (names : List Name) (D : Name → List UInt8) : PeerMetadata.Call → Prop
  | .syncMessage message => GoodMessage names D (.syncMsg message)
  | .peerHas key filename length => ∃ n : ℕ, length.toInt = n ∧ Truthful names D key filename n

theorem callPeerHas_good (hsmall : ∀ name ∈ names, (D name).length < 2147483648)
    {key : List UInt8}
    {version : FileVersion} (h : Truthful names D key version.name version.length) :
    GoodCall names D (callPeerHas key version) := by
  have hlt := lt_of_le_of_lt h.within (hsmall version.name h.file)
  exact ⟨version.length, BlockRequests.toInt_ofNat_long (lt_of_lt_of_le hlt (by decide)), h⟩

theorem request_harmless (key : List UInt8) :
    GoodMessage names D (.syncMsg (SYNC_MSG_REQ_METADATA :: key)) := by
  intro msg key' version hmessage
  have htype : SYNC_MSG_REQ_METADATA ≠ SYNC_MSG_SEND_METADATA := by decide
  exact absurd (List.cons.inj hmessage).1 htype

/-- An entry of the index that is true of the files. -/
theorem teamOk_index {t : Team Path} (h : TeamOk resolve names author D d t) {key : List UInt8}
    {version : FileVersion} (htruthful : Truthful names D key version.name version.length) :
    TeamOk resolve names author D d { t with state := { t.state with db := { t.state.db with
      index := Function.update t.state.db.index key (some version) } } } := by
  obtain ⟨⟨base, hsound⟩, hown, hdurable⟩ := h.kept
  refine ⟨⟨⟨base, ?_⟩, hown, ?_⟩, h.follows, h.own, ?_, h.files, h.held⟩
  · refine ⟨hsound.unused, hsound.closed, ?_, hsound.verified⟩
    intro name hname s hs
    obtain ⟨hmirrors, hkey⟩ := hsound.opened name hname s hs
    exact ⟨⟨hmirrors.tracks, hmirrors.eof, hmirrors.offset, hmirrors.disk, hmirrors.fileHash,
      hmirrors.version⟩, hkey⟩
  · exact ⟨hdurable.absent, hdurable.record, hdurable.version, hdurable.root⟩
  · intro key' version' hindex
    dsimp only at hindex
    by_cases heq : key' = key
    · rw [heq, Function.update_self] at hindex
      rw [heq, ← Option.some.inj hindex]
      exact htruthful
    · rw [Function.update_of_ne heq] at hindex
      exact h.index key' version' hindex

/-- What the native store makes of a message. -/
theorem peerMessage_good {t : Team Path} (h : TeamOk resolve names author D d t)
    (hnames : Names resolve names) (hsmall : ∀ name ∈ names, (D name).length < 2147483648)
    {message : List UInt8} (hgood : GoodMessage names D (.syncMsg message)) {commits : Bool}
    {state : DbState} {calls : List PeerMetadata.Call}
    (hmessage : peerMessage (fun _ => []) t.state message commits = some (state, calls)) :
    (∀ call ∈ calls, GoodCall names D call) ∧
      (state = t.state ∨ ∃ key version, Truthful names D key version.name version.length ∧
        state = { t.state with db := { t.state.db with
          index := Function.update t.state.db.index key (some version) } }) := by
  have hnone : ∀ call : PeerMetadata.Call, call ∈ [] → GoodCall names D call :=
    fun call hcall => absurd hcall List.not_mem_nil
  cases message with
  | nil => cases hmessage
  | cons type msg =>
    rw [peerMessage] at hmessage
    split at hmessage
    · obtain ⟨rfl, rfl⟩ := Prod.mk.inj (Option.some.inj hmessage)
      exact ⟨hnone, Or.inl rfl⟩
    split at hmessage
    · split at hmessage
      · cases hmessage
      · obtain ⟨rfl, rfl⟩ := Prod.mk.inj (Option.some.inj hmessage)
        refine ⟨?_, Or.inl rfl⟩
        intro call hcall
        rw [Option.mem_toList] at hcall
        obtain ⟨answer, hanswer, rfl⟩ := Option.map_eq_some_iff.mp hcall
        obtain ⟨version, hversion, rfl⟩ := Option.map_eq_some_iff.mp hanswer
        exact metadata_good (fun name hname =>
          ⟨hnames.whole name hname, hnames.short name hname⟩) hsmall
          (h.index _ version hversion)
    by_cases htype : type = SYNC_MSG_SEND_METADATA
    · rw [if_pos htype] at hmessage
      rw [receiveFromPeer] at hmessage
      split at hmessage
      · obtain ⟨rfl, rfl⟩ := Prod.mk.inj (Option.some.inj hmessage)
        exact ⟨hnone, Or.inl rfl⟩
      obtain ⟨⟨key, version⟩, hparse, hmessage⟩ := Option.bind_eq_some_iff.mp hmessage
      have htruthful := hgood msg key version (by rw [htype]) hparse
      dsimp only at hmessage
      split at hmessage
      · obtain ⟨rfl, rfl⟩ := Prod.mk.inj (Option.some.inj hmessage)
        refine ⟨?_, Or.inr ⟨key, version, htruthful, rfl⟩⟩
        intro call hcall
        rw [List.mem_singleton.mp hcall]
        exact callPeerHas_good hsmall htruthful
      · obtain ⟨rfl, rfl⟩ := Prod.mk.inj (Option.some.inj hmessage)
        exact ⟨hnone, Or.inl rfl⟩
    · rw [if_neg htype] at hmessage
      obtain ⟨rfl, rfl⟩ := Prod.mk.inj (Option.some.inj hmessage)
      exact ⟨hnone, Or.inl rfl⟩

/-- A key is no name of a file. -/
theorem no_file {t : Team Path} (h : TeamOk resolve names author D d t)
    (hnames : Names resolve names)
    {key : List UInt8} (hkey : key.length = 8) : t.state.db.files key = none := by
  cases hrecord : t.state.db.files key with
  | none => rfl
  | some record =>
    obtain ⟨name, hname, rfl⟩ := h.files key record hrecord
    rw [fileKey_eq (hnames.short name hname)] at hkey
    exact absurd hkey (hnames.noKey name hname)

/-- So its metadata are asked for. -/
theorem processDifference_good {t : Team Path} (h : TeamOk resolve names author D d t)
    (hnames : Names resolve names) {key : List UInt8} (hkey : key.length = 8)
    {calls : List PeerMetadata.Call} (hcalls : processDifference t.state key = some calls) :
    ∀ call ∈ calls, GoodCall names D call := by
  rw [processDifference, no_file h hnames hkey] at hcalls
  rw [← Option.some.inj hcalls]
  intro call hcall
  rw [List.mem_singleton.mp hcall]
  exact request_harmless key

variable [DecidableEq Path] [DecidableEq Dev]

theorem makeCalls_ok (hnames : Names resolve names)
    (hsmall : ∀ name ∈ names, (D name).length < 2147483648) (p : Dev) (connected : Bool)
    (calls : List PeerMetadata.Call) {device : Device Path Dev} {o : Outcome Path Dev}
    (h : DeviceOk resolve names author D d device) (hgood : ∀ call ∈ calls, GoodCall names D call)
    (hcalls : makeCalls resolve p connected calls device = some o) :
    MethodOk resolve names author heap D d device.team o := by
  induction calls generalizing device o with
  | nil =>
    rw [← Option.some.inj hcalls]
    exact methodOk_quiet true h (SameFiles.refl _)
  | cons call rest ih =>
    have hfirst := hgood call List.mem_cons_self
    have hrest : ∀ c ∈ rest, GoodCall names D c := fun c hc =>
      hgood c (List.mem_cons_of_mem call hc)
    cases call with
    | syncMessage message =>
      obtain ⟨last, hlast, heq⟩ := Option.bind_eq_some_iff.mp hcalls
      have hok := ih h hrest hlast
      rw [← Option.some.inj heq]
      refine ⟨hok.kept, hok.files, ?_, hok.blocks⟩
      intro m hm
      rcases List.mem_cons.mp hm with rfl | hm
      · exact sync_sendable hfirst
      · exact hok.messages m hm
    | peerHas key filename length =>
      obtain ⟨n, hlength, htruthful⟩ := hfirst
      obtain ⟨o₁, hhas, hlast⟩ := Option.bind_eq_some_iff.mp hcalls
      obtain ⟨last, hlast, heq⟩ := Option.bind_eq_some_iff.mp hlast
      rw [hlength] at hhas
      have hok₁ : MethodOk resolve names author heap D d device.team o₁ :=
        peerHas_ok h hnames hsmall p htruthful connected hhas
      have hok := ih hok₁.kept hrest hlast
      rw [← Option.some.inj heq]
      refine ⟨hok.kept, hok₁.files.trans hok.files, ?_, ?_⟩
      · intro m hm
        rcases List.mem_append.mp hm with hm | hm
        · exact hok₁.messages m hm
        · exact hok.messages m hm
      · intro b hb
        rcases List.mem_append.mp hb with hb | hb
        · exact BlocksOk.mono hok₁.blocks hok.files.grows b hb
        · exact hok.blocks b hb

/-- The team that a message finds: that of before, or with the block of the
message. -/
inductive Arrived (resolve : Name → Path) (t : Team Path) (m : Message) (commits : Bool)
    (t' : Team Path) : Prop where
  | quiet (hfiles : SameFiles t t')
  | block (filename : Name) (offset : BitVec 64) (data : List UInt8)
    (hm : m = .fileBlock filename offset data)
    (hcall : teamStep resolve t (.call filename (.appendAt offset.toInt data commits)) = some t')

theorem process_ok (h : DeviceOk resolve names author D d device) (hnames : Names resolve names)
    (hsmall : ∀ name ∈ names, (D name).length < 2147483648) (p : Dev) {m : Message}
    (hgood : GoodMessage names D m) (hnarrow : BlockRequests.NarrowRequest m)
    (connected commits : Bool)
    (hprocess : process resolve device p m connected commits = some o) :
    ∃ t, Arrived resolve device.team m commits t ∧
    MethodOk resolve names author heap D d t o := by
  have hquiet : some (⟨true, device, [], []⟩ : Outcome Path Dev) = some o →
      ∃ t, Arrived resolve device.team m commits t ∧
        MethodOk resolve names author heap D d t o := by
    intro heq
    rw [← Option.some.inj heq]
    exact ⟨_, .quiet (SameFiles.refl _), methodOk_quiet true h (SameFiles.refl _)⟩
  cases m with
  | syncMsg message =>
    obtain ⟨⟨state, calls⟩, hmessage, hcalls⟩ := Option.bind_eq_some_iff.mp hprocess
    obtain ⟨hcallsGood, hstate⟩ := peerMessage_good h.team hnames hsmall hgood hmessage
    have hteam : TeamOk resolve names author D d { device.team with state := state } := by
      rcases hstate with rfl | ⟨key, version, htruthful, rfl⟩
      · exact h.team
      · exact teamOk_index h.team htruthful
    have hslots : Slots resolve names
      { device with team := { device.team with state := state } } :=
      h.slots.with_team hteam.kept ⟨fun _ _ hx => hx, fun _ => List.prefix_rfl⟩
    have hdevice : DeviceOk resolve names author D d
        { device with team := { device.team with state := state } } := ⟨hslots, hteam, h.listed⟩
    have hok : MethodOk resolve names author heap D d { device.team with state := state } o :=
      makeCalls_ok hnames hsmall p connected calls hdevice hcallsGood hcalls
    exact ⟨{ device.team with state := state }, .quiet ⟨fun _ => rfl, fun _ => rfl⟩, hok⟩
  | requestBlock filename offset length =>
    exact ⟨_, .quiet (SameFiles.refl _),
      processRequest_ok h hnames hsmall hgood.1 hgood.2 hnarrow.1
      hnarrow.2 connected hprocess⟩
  | fileBlock filename offset data =>
    obtain ⟨t, hcall, hok⟩ := processData_ok h hnames hsmall p hgood connected commits hprocess
    exact ⟨t, .block filename offset data rfl hcall, hok⟩
  | header id unicast seq => exact hquiet hprocess
  | ack links => exact hquiet hprocess
  | storeState teamId key => exact hquiet hprocess
  | team epoc members => exact hquiet hprocess
  | requestTeam teamId => exact hquiet hprocess
  | stun addresses => exact hquiet hprocess

structure Wrote (heap : Heap) (names : List Name) (t : Team Path) (b : FileBlock)
    (data : List UInt8) (frame : Frame) : Prop where
  file : b.filename ∈ names
  read : create heap frame.1 frame.2 =
    (.ok (.fileBlock b.filename (BitVec.ofNat 64 (b.offset + b.wrote)) data), [])
  offset : (BitVec.ofNat 64 (b.offset + b.wrote)).toInt = (b.offset + b.wrote : ℕ)
  within : b.offset + b.wrote + data.length ≤ (committed t b.filename).length
  bytes : data = ReceivedBlocks.cut (committed t b.filename) (b.offset + b.wrote) data.length

omit [DecidableEq Path] [DecidableEq Dev] in
theorem Wrote.good {t : Team Path} {b : FileBlock} {data : List UInt8} {frame : Frame}
    (h : Wrote heap names t b data frame) (hstarts : committed t b.filename <+: D b.filename) :
    GoodFrame names heap D frame := by
  have hle := hstarts.length_le
  have hwithin := h.within
  refine goodFrame_of_create h.read ⟨h.file, _, h.offset, by omega, ?_⟩
  have hbytes := h.bytes
  obtain ⟨rest, hrest⟩ := hstarts
  rw [ReceivedBlocks.cut] at hbytes
  rw [ReceivedBlocks.cut, ← hrest, List.drop_append_of_le_length (by omega),
    List.take_append_of_le_length (by rw [List.length_drop]; omega)]
  exact hbytes

omit [DecidableEq Dev] in
/-- The next frame of a block. -/
theorem writeBlock_ok {n n' : Node Path Dev} (h : NodeOk resolve names author D d n)
    (hnames : Names resolve names)
    (hsmall : ∀ name ∈ names, (D name).length < 2147483648) {i room count : ℕ}
    (hroom : room ≤ bodyRoom) {frame : Frame}
    (hwrite : writeBlock resolve n i room count = some (frame, n')) :
    NodeOk resolve names author D d n' ∧ SameFiles n.device.team n'.device.team ∧
      ∃ b data, Wrote heap names n.device.team b data frame := by
  obtain ⟨b, hb, hwrite⟩ := Option.bind_eq_some_iff.mp hwrite
  obtain ⟨⟨s, t⟩, hopen, hwrite⟩ := Option.bind_eq_some_iff.mp hwrite
  obtain ⟨hname, hwithin⟩ := h.blocks b (List.mem_of_getElem? hb)
  obtain ⟨hopened, hsame, hshows⟩ := openIn_ok h.device hnames hname hopen
  have hstarts : committed n.device.team b.filename <+: D b.filename :=
    (List.prefix_append _ _).trans (h.device.team.follows b.filename hname)
  dsimp only at hwrite
  rw [hshows.bytes] at hwrite
  rcases FileBlocks.serialise_spec hwithin room count with hfull | ⟨data, hdata, hnext, hfits⟩
  · rw [hfull] at hwrite
    cases hwrite
  rw [hdata] at hwrite
  obtain ⟨rfl, rfl⟩ := Prod.mk.inj (Option.some.inj hwrite)
  have hend : b.offset + b.wrote + data.length ≤ (committed n.device.team b.filename).length := by
    have hbelow := hwithin.below
    have hwrote := hnext.wrote_le
    omega
  have hle := hstarts.length_le
  have hD := hsmall b.filename hname
  refine ⟨⟨hopened, ?_⟩, SameFiles.of_same hsame, b, data, hname, ?_, ?_, hend, hnext.bytes⟩
  · have hkept : ∀ c ∈ n.blocks, c.filename ∈ names ∧ Within (committed t c.filename) c := by
      intro c hc
      rw [hsame.committed]
      exact h.blocks c hc
    intro c hc
    dsimp only at hc ⊢
    split at hc
    · exact hkept c (List.mem_of_mem_eraseIdx hc)
    · rcases List.mem_or_eq_of_mem_set hc with hc | rfl
      · exact hkept c hc
      · refine ⟨hname, ?_⟩
        change Within (committed t b.filename) _
        rw [hsame.committed]
        exact hwithin.advance hnext
  · exact block_read heap (hnames.whole b.filename hname) (hfits.trans hroom) (by omega)
  · exact (getLong_small (by omega) []).2

end Natives

section Worlds

variable {Path Dev : Type} {resolve : Name → Path} {heap : Heap} {names : List Name}
    {author : Name → Dev}
  {D : Name → List UInt8} {w w' : World Path Dev}

structure WorldOk (resolve : Name → Path) (heap : Heap) (names : List Name) (author : Name → Dev)
    (D : Name → List UInt8) (w : World Path Dev) : Prop where
  small : ∀ name ∈ names, (D name).length < 2147483648
  nodes : ∀ d, NodeOk resolve names author D d (w.nodes d)
  frames : ∀ frame ∈ w.frames, GoodFrame names heap D frame

variable [DecidableEq Dev]

theorem WorldOk.put (h : WorldOk resolve heap names author D w) {d : Dev} {n : Node Path Dev}
    (hn : NodeOk resolve names author D d n) :
    WorldOk resolve heap names author D (w.put d n) where
  small := h.small
  nodes := by
    intro e
    dsimp only [World.put]
    by_cases he : e = d
    · rw [he, Function.update_self]
      exact hn
    · rw [Function.update_of_ne he]
      exact h.nodes e
  frames := h.frames

omit [DecidableEq Dev] in
theorem WorldOk.send (h : WorldOk resolve heap names author D w) {frames : List Frame}
    (hframes : ∀ frame ∈ frames, GoodFrame names heap D frame) :
    WorldOk resolve heap names author D { w with frames := w.frames ++ frames } where
  small := h.small
  nodes := h.nodes
  frames := by
    intro frame hframe
    rcases List.mem_append.mp hframe with hframe | hframe
    · exact h.frames frame hframe
    · exact hframes frame hframe

theorem WorldOk.after (h : WorldOk resolve heap names author D w) {d : Dev} {t : Team Path}
    {o : Outcome Path Dev}
    (hgrows : ∀ name, committed (w.nodes d).device.team name <+: committed t name)
    (ho : MethodOk resolve names author heap D d t o) :
    WorldOk resolve heap names author D (w.after d o) := by
  refine WorldOk.send (h.put ⟨ho.kept, ?_⟩) ?_
  · intro b hb
    rcases List.mem_append.mp hb with hb | hb
    · exact BlocksOk.mono (h.nodes d).blocks (fun name =>
        (hgrows name).trans (ho.files.grows name)) b hb
    · exact ho.blocks b hb
  · intro frame hframe
    obtain ⟨m, hm, body, hbody, rfl⟩ := mem_framesOf hframe
    exact (ho.messages m hm).goodFrame hbody

omit [DecidableEq Dev] in
theorem harmless_good {m : Message} (h : Harmless names m) : GoodMessage names D m := by
  cases m with
  | fileBlock filename offset data => exact h.elim
  | requestBlock filename offset length => exact h
  | syncMsg message =>
    intro msg key version hmessage
    rw [Harmless, hmessage] at h
    exact absurd rfl h
  | _ => trivial

variable [DecidableEq Path]

theorem WorldOk.record (h : WorldOk resolve heap names author D w) (hnames : Names resolve names)
    {filename : Name} (hname : filename ∈ names) {record : List UInt8} {commits : Bool}
    (hlong : (committed (w.nodes (author filename)).device.team filename).length +
      record.length + 8 <
      2147483648) {device : Device Path Dev}
    (hrecord : appendRecord resolve (w.nodes (author filename)).device filename record commits =
      some device) :
    WorldOk resolve heap names author
      (Function.update D filename (committed device.team filename))
      (w.put (author filename) ⟨device, (w.nodes (author filename)).blocks⟩) ∧
    ∀ name, D name <+: Function.update D filename (committed device.team filename) name := by
  obtain ⟨t, hcall, heq⟩ := Option.bind_eq_some_iff.mp hrecord
  rw [← Option.some.inj heq]
  have hnode := h.nodes (author filename)
  obtain ⟨hgrow, hlength, hteam⟩ := hnode.device.team.record hnames hname rfl hcall
  obtain ⟨hkept, honward⟩ := call_onward hnode.device.team.kept hnames.distinct hname
    (appendRecord_released · record commits) hcall
  rw [hnode.device.team.own filename hname rfl] at hlong
  refine ⟨⟨?_, ?_, ?_⟩, hgrow⟩
  · intro name hn
    by_cases hne : name = filename
    · rw [hne, Function.update_self]
      dsimp only
      omega
    · rw [Function.update_of_ne hne]
      exact h.small name hn
  · intro e
    dsimp only [World.put]
    by_cases he : e = author filename
    · rw [he, Function.update_self]
      refine ⟨⟨hnode.device.slots.with_team hkept honward, hteam, ?_⟩, ?_⟩
      · exact fun p x hx => (hnode.device.listed p x hx).grow hgrow
      · exact BlocksOk.mono hnode.blocks honward.committed
    · rw [Function.update_of_ne he]
      refine (h.nodes e).grow hgrow ?_
      intro name _ hd
      have hne : name ≠ filename := by
        rintro rfl
        exact he hd.symm
      exact Function.update_of_ne hne _ _
  · exact fun frame hframe => (h.frames frame hframe).grow hgrow

omit [DecidableEq Path] [DecidableEq Dev] in
theorem newTeam_starts (names : List Name) :
    StartsWith resolve (fun _ => []) names (FileReplicas.newTeam : Team Path) where
  stores := rfl
  history := rfl
  absent _ _ _ := rfl
  record _ _ _ h := by cases h
  disk _ _ := List.prefix_rfl

omit [DecidableEq Path] [DecidableEq Dev] in
theorem start_ok :
    WorldOk resolve heap names author (fun _ => []) (World.start : World Path Dev) := by
  have hstarted : Started resolve names (fun _ => [])
      (⟨FileReplicas.newTeam, fun _ => ⟨[], 0, 0⟩, 0⟩ : Device Path Dev) :=
    ⟨newTeam_starts names, ⟨emptyDatabase, rfl⟩, fun _ => rfl⟩
  refine ⟨fun _ _ => by decide, ?_, fun frame hframe => absurd hframe List.not_mem_nil⟩
  intro d
  refine ⟨⟨hstarted.slots, ?_, fun p x hx => absurd hx List.not_mem_nil⟩,
    fun b hb => absurd hb List.not_mem_nil⟩
  refine ⟨hstarted.kept, fun _ _ => List.prefix_rfl, fun _ _ _ => rfl, ?_, ?_, ?_⟩
  · intro key version hindex
    cases hindex
  · intro key record hrecord
    cases hrecord
  · intro name x hx
    cases hx

end Worlds

end Succinct.ReplicaRuns
