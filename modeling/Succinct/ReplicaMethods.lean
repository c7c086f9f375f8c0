import Succinct.ReplicaTruth
import Succinct.Varints

/-!
The methods of a device, one by one: each keeps what is true of it, and the
frames and blocks that it puts into a queue are true of the files.
-/
namespace Succinct.ReplicaMethods

open NativeStore RecordStore RecordRefinement Provenance TeamRestarts PeerTransfers TeamCalls
  TransferLists PeerSlots FileReplicas ReplicaTruth
open Messages (Message MessageType Heap create serialise longBytes getLong)
open FileBlocks (FileBlock Within)
open PeerMetadata (peerMessage processDifference SYNC_MSG_KEY SYNC_MSG_REQ_METADATA)

section Frames

variable {names : List Name} {D : Name → List UInt8} {heap : Heap}

/-- A number of a file is read as it was put. -/
theorem getLong_small {n : ℕ} (hn : n < 2147483648) (rest : List UInt8) :
    getLong (longBytes 9 n ++ rest) = (.ok (BitVec.ofNat 64 n), rest) ∧
      (BitVec.ofNat 64 n).toInt = n := by
  have hint := BlockRequests.toInt_ofNat_long (lt_of_lt_of_le hn (by decide) : n < 2 ^ 63)
  have hnat : (BitVec.ofNat 64 n).toNat = n := by
    rw [BitVec.toNat_ofNat]
    omega
  have hkept : Varints.Kept (BitVec.ofNat 64 n) := by
    rw [Varints.Kept, hint]
    omega
  have hread := (Varints.getLong_append_iff (BitVec.ofNat 64 n) rest).mpr hkept
  rw [hnat] at hread
  exact ⟨hread, hint⟩

theorem goodFrame_of_create {type : MessageType} {body rest : List UInt8} {m : Message}
    (hcreate : create heap type body = (.ok m, rest)) (hgood : GoodMessage names D m) :
    GoodFrame names heap D (type, body) := by
  intro m' rest' hcreate'
  rw [hcreate] at hcreate'
  rw [← Except.ok.inj (congrArg Prod.fst hcreate')]
  exact hgood

/-- The message is sent in a frame that is read as one that is true of the files,
and is no block. -/
def Sendable (names : List Name) (heap : Heap) (D : Name → List UInt8) (m : Message) : Prop :=
  ∀ body, serialise bodyRoom m = some body → ∃ m', create heap m.type body = (.ok m', []) ∧
    GoodMessage names D m' ∧ m'.type ≠ .fileBlockMessage

theorem Sendable.goodFrame {m : Message} (h : Sendable names heap D m) {body : List UInt8}
    (hbody : serialise bodyRoom m = some body) : GoodFrame names heap D (m.type, body) := by
  obtain ⟨m', hcreate, hgood, -⟩ := h body hbody
  exact goodFrame_of_create hcreate hgood

theorem request_sendable {x : Transfer} (hname : x.filename ∈ names) {length : ℕ}
    (hlength : length < 2147483648) : Sendable names heap D (requestFor length x) := by
  intro body hbody
  obtain ⟨n', hn'⟩ :=
    MessageWrites.getLong_append (BitVec.ofInt 64 (x.transfer.newLength - length)).toNat
  have hnat : (BitVec.ofNat 64 length).toNat = length := by
    rw [BitVec.toNat_ofNat]
    omega
  have hn : ∀ rest, getLong (longBytes 9 (BitVec.ofNat 64 length).toNat ++ rest) =
      (.ok (BitVec.ofNat 64 length), rest) := by
    intro rest
    rw [hnat]
    exact (getLong_small hlength rest).1
  refine ⟨_, MessageWrites.create_requestBlock (by decide) hn hn' hbody, ⟨hname, ?_⟩,
    fun h => by cases h⟩
  rw [(getLong_small hlength []).2]
  omega

theorem sync_sendable {message : List UInt8} (hgood : GoodMessage names D (.syncMsg message)) :
    Sendable names heap D (.syncMsg message) :=
  fun _ hbody => ⟨_, MessageWrites.creates_syncMsg (by decide) hbody, hgood, fun h => by cases h⟩

/-- The frame of a piece of a block is read as it was written. -/
theorem block_read (heap : Heap) {b : FileBlock} {data : List UInt8}
    (hwhole : ∀ c ∈ b.filename, c ≠ 0)
    (hfits : (FileBlocks.header b ++ data).length ≤ bodyRoom)
    (hsmall : b.offset + b.wrote < 2147483648) :
    create heap .fileBlockMessage (FileBlocks.header b ++ data) =
      (.ok (.fileBlock b.filename (BitVec.ofNat 64 (b.offset + b.wrote)) data), []) := by
  have hheap := heap.room_ge
  have hroom : bodyRoom = 1197 := rfl
  have hsplit : FileBlocks.header b ++ data =
      b.filename ++ 0 :: (longBytes 9 (b.offset + b.wrote) ++ data) := by
    rw [FileBlocks.header, List.append_assoc, List.cons_append]
  rw [hsplit] at hfits ⊢
  rw [create, Messages.createFileBlock, MessageFrames.bind_ok
    (MessageWrites.getString_append heap _ b.filename hwhole (by omega)),
    MessageFrames.bind_ok (getLong_small hsmall data).1,
    MessageFrames.bind_ok (MessageFrames.getFixedBytes_remaining heap ?_)]
  · rfl
  · simp only [List.length_append, List.length_cons] at hfits
    omega

/-- What stands before the bytes of a message of metadata. -/
theorem metadata_good (hnames : ∀ name ∈ names, (∀ b ∈ name, b ≠ 0) ∧ name.length < MAX_NAME)
    (hsmall : ∀ name ∈ names, (D name).length < 2147483648) {key : List UInt8}
    {version : FileVersion} (htruthful : Truthful names D key version.name version.length) :
    GoodMessage names D (.syncMsg (metadataMessage key version)) := by
  intro msg key' version' hmessage hparse
  obtain ⟨hwhole, hshort⟩ := hnames version.name htruthful.file
  have hkey : key.length = 8 := by
    rw [htruthful.hash, syncKey, List.length_take, Sha256.length_hash]
    rfl
  have hlength : version.length < 2 ^ 31 :=
    lt_of_le_of_lt htruthful.within (hsmall _ htruthful.file)
  have hmsg : msg = key ++ packUint version.version.toUInt64 ++
      packUint (UInt64.ofNat version.length) ++ version.name ++ [0] := by
    rw [metadataMessage] at hmessage
    exact (List.cons.inj hmessage).2.symm
  rw [hmsg, (Varints.parseMetadata_eq_iff hkey hwhole hshort version.length).mpr hlength]
    at hparse
  obtain ⟨rfl, rfl⟩ := Prod.mk.inj (Option.some.inj hparse)
  exact htruthful

theorem mem_framesOf {frame : Frame} {messages : List Message} (h : frame ∈ framesOf messages) :
    ∃ m ∈ messages, ∃ body, serialise bodyRoom m = some body ∧ frame = (m.type, body) := by
  obtain ⟨m, hm, hbody⟩ := List.mem_filterMap.mp h
  obtain ⟨body, hbody, heq⟩ := Option.map_eq_some_iff.mp hbody
  exact ⟨m, hm, body, hbody, heq.symm⟩

end Frames

section Methods

variable {Path Dev : Type} {resolve : Name → Path} {names : List Name} {author : Name → Dev}
  {D : Name → List UInt8} {d : Dev} {heap : Heap} {device : Device Path Dev}
  {o : Outcome Path Dev}

structure SameFiles (t t' : Team Path) : Prop where
  committed : ∀ name, committed t' name = committed t name
  pending : ∀ name, pending t' name = pending t name

theorem SameFiles.refl (t : Team Path) : SameFiles t t := ⟨fun _ => rfl, fun _ => rfl⟩

theorem SameFiles.trans {t t' t'' : Team Path} (h : SameFiles t t') (h' : SameFiles t' t'') :
    SameFiles t t'' :=
  ⟨fun name => (h'.committed name).trans (h.committed name),
    fun name => (h'.pending name).trans (h.pending name)⟩

theorem SameFiles.of_same {t t' : Team Path} (h : Same t t') : SameFiles t t' :=
  ⟨h.committed, h.pending⟩

theorem SameFiles.grows {t t' : Team Path} (h : SameFiles t t') (name : Name) :
    TeamRestarts.committed t name <+: TeamRestarts.committed t' name := by
  rw [h.committed]

structure MethodOk (resolve : Name → Path) (names : List Name) (author : Name → Dev) (heap : Heap)
    (D : Name → List UInt8) (d : Dev) (t : Team Path) (o : Outcome Path Dev) : Prop where
  kept : DeviceOk resolve names author D d o.device
  files : SameFiles t o.device.team
  messages : ∀ m ∈ o.messages, Sendable names heap D m
  blocks : BlocksOk names o.device.team o.blocks

theorem Within.mono {file file' : List UInt8} {b : FileBlock} (h : Within file b)
    (hle : file <+: file') :
    Within file' b :=
  ⟨h.wrote_le, h.below.trans hle.length_le, h.long⟩

theorem BlocksOk.mono {t t' : Team Path} {blocks : List FileBlock} (h : BlocksOk names t blocks)
    (hgrows : ∀ name, committed t name <+: committed t' name) : BlocksOk names t' blocks :=
  fun b hb => ⟨(h b hb).1, Within.mono (h b hb).2 (hgrows b.filename)⟩

/-- A method that only changes the device. -/
theorem methodOk_quiet (returned : Bool) {t : Team Path} {device' : Device Path Dev}
    (hdevice : DeviceOk resolve names author D d device') (hfiles : SameFiles t device'.team) :
    MethodOk resolve names author heap D d t ⟨returned, device', [], []⟩ where
  kept := hdevice
  files := hfiles
  messages := fun _ hm => absurd hm List.not_mem_nil
  blocks := fun _ hb => absurd hb List.not_mem_nil

theorem MethodOk.after {t t' : Team Path} (h : MethodOk resolve names author heap D d t' o)
    (hfiles : SameFiles t t') : MethodOk resolve names author heap D d t o :=
  ⟨h.kept, hfiles.trans h.files, h.messages, h.blocks⟩

variable [DecidableEq Path]

theorem openIn_ok (h : DeviceOk resolve names author D d device) (hnames : Names resolve names)
    {name : Name} (hname : name ∈ names) {s : Store} {t : Team Path}
    (hopen : openIn resolve device.team name = some (s, t)) :
    DeviceOk resolve names author D d { device with team := t } ∧ Same device.team t ∧
      Shows device.team name s := by
  obtain ⟨hkept, hsame, hshows, hslot⟩ := openIn_spec h.team.kept hnames.distinct hname hopen
  refine ⟨⟨?_, ?_, h.listed⟩, hsame, hshows⟩
  · exact h.slots.with_team hkept (Onward.of_same hsame hslot)
  · refine h.team.same hkept hsame ?_
    intro n x hx
    rw [hslot] at hx
    exact h.team.held n x hx

variable [DecidableEq Dev]

theorem nextTransfer_ok (h : DeviceOk resolve names author D d device)
    (hnames : Names resolve names)
    (hsmall : ∀ name ∈ names, (D name).length < 2147483648) (p : Dev) (connected : Bool)
    (hnext : nextTransfer resolve device p connected = some o) :
    MethodOk resolve names author heap D d device.team o := by
  have hslots := nextTransfer_slots h.slots hnames.distinct p connected hnext
  obtain ⟨turns, hloop, heq⟩ := Option.bind_eq_some_iff.mp hnext
  have hturned := nextTransferLoop_spec hnames.distinct connected (device.peers p).received
    (device.peers p).possibleTransfers h.team.kept (h.slots.names p) hloop
  rw [← Option.some.inj heq] at hslots ⊢
  refine ⟨⟨hslots, ?_, ?_⟩, ?_, ?_, ?_⟩
  · refine h.team.same hturned.kept hturned.same ?_
    intro name x hx
    rcases hturned.given name x hx with hold | hnew
    · exact h.team.held name x hold
    · rcases hturned.fresh name x hx with hold | hout
      · exact h.team.held name x hold
      · exact ⟨h.listed p _ (hturned.listed.subset hnew), hout⟩
  · intro q x hx
    dsimp only [Device.setPeer] at hx
    by_cases hq : q = p
    · rw [hq, Function.update_self] at hx
      exact h.listed p x (hturned.listed.subset hx)
    · rw [Function.update_of_ne hq] at hx
      exact h.listed q x hx
  · exact SameFiles.of_same hturned.same
  · intro m hm
    obtain ⟨x, hx, -, rfl⟩ := hturned.requests m hm
    have hname := h.slots.names p x (hturned.listed.subset hx)
    have hle := ((List.prefix_append _ _).trans (h.team.follows x.filename hname)).length_le
    exact request_sendable hname (lt_of_le_of_lt hle (hsmall x.filename hname))
  · exact fun b hb => absurd hb List.not_mem_nil

theorem peerHas_ok (h : DeviceOk resolve names author D d device) (hnames : Names resolve names)
    (hsmall : ∀ name ∈ names, (D name).length < 2147483648) (p : Dev) {hash : List UInt8}
    {filename : Name} {length : ℕ}
    (htruthful : Truthful names D hash filename length) (connected : Bool)
    (hhas : peerHas resolve device p hash filename length connected = some o) :
    MethodOk resolve names author heap D d device.team o := by
  obtain ⟨⟨s, t⟩, hopen, hhas⟩ := Option.bind_eq_some_iff.mp hhas
  obtain ⟨hopened, hsame, -⟩ := openIn_ok h hnames htruthful.file hopen
  have hfiles := SameFiles.of_same hsame
  dsimp only at hhas
  split at hhas
  · rw [← Option.some.inj hhas]
    exact methodOk_quiet true hopened hfiles
  split at hhas
  · rw [← Option.some.inj hhas]
    exact methodOk_quiet true hopened hfiles
  refine MethodOk.after (nextTransfer_ok ?_ hnames hsmall p connected hhas) hfiles
  refine ⟨hopened.slots.announce p htruthful.file length hash, hopened.team, ?_⟩
  intro q x hx
  dsimp only [Device.setPeer] at hx
  by_cases hq : q = p
  · rw [hq, Function.update_self] at hx
    rcases List.mem_append.mp hx with hx | hx
    · exact h.listed p x hx
    · rw [List.mem_singleton.mp hx]
      exact ⟨length, rfl, htruthful⟩
  · rw [Function.update_of_ne hq] at hx
    exact h.listed q x hx

omit [DecidableEq Dev] in
theorem processRequest_ok (h : DeviceOk resolve names author D d device)
    (hnames : Names resolve names)
    (hsmall : ∀ name ∈ names, (D name).length < 2147483648) {filename : Name}
    {offset length : BitVec 64}
    (hname : filename ∈ names) (hstart : 0 ≤ offset.toInt) (hoffset : BlockRequests.Narrow offset)
    (hlength : BlockRequests.Narrow length) (connected : Bool)
    (hrequest : processRequest resolve device filename offset length connected = some o) :
    MethodOk resolve names author heap D d device.team o := by
  obtain ⟨⟨s, t⟩, hopen, hrequest⟩ := Option.bind_eq_some_iff.mp hrequest
  obtain ⟨hopened, hsame, hshows⟩ := openIn_ok h hnames hname hopen
  have hfiles := SameFiles.of_same hsame
  have hfile : (committed device.team filename).length < 2147483648 :=
    lt_of_le_of_lt ((List.prefix_append _ _).trans (h.team.follows filename hname)).length_le
      (hsmall filename hname)
  have hlong : (committed device.team filename).length < 2 ^ 63 :=
    lt_of_lt_of_le hfile (by decide)
  have hcases := BlockRequests.processRequest_cases hlong hoffset hlength filename
  dsimp only at hrequest
  rw [hshows.eof] at hrequest
  rcases hcases with ⟨hnone, -⟩ | ⟨hbelow, hpos, sent, hsome, hsent⟩
  · rw [hnone] at hrequest
    rw [← Option.some.inj hrequest]
    exact methodOk_quiet true hopened hfiles
  · rw [hsome] at hrequest
    dsimp only at hrequest
    split at hrequest
    · rw [← Option.some.inj hrequest]
      exact methodOk_quiet false hopened hfiles
    · rw [← Option.some.inj hrequest]
      refine ⟨hopened, hfiles, fun m hm => absurd hm List.not_mem_nil, ?_⟩
      intro b hb
      rw [List.mem_singleton.mp hb]
      have hnat : (offset.toNat : ℤ) = offset.toInt := by
        rw [BitVec.toInt_eq_toNat_cond] at hstart ⊢
        split at hstart
        · rw [if_pos (by assumption)]
        · have hlt := offset.isLt
          omega
      have hsentNat : (sent.toNat : ℤ) = sent.toInt := by
        have hsentPos : 0 ≤ sent.toInt := by omega
        rw [BitVec.toInt_eq_toNat_cond] at hsentPos ⊢
        split at hsentPos
        · rw [if_pos (by assumption)]
        · have hlt := sent.isLt
          omega
      have hend : offset.toNat + sent.toNat ≤ (committed device.team filename).length := by
        omega
      refine ⟨hname, Nat.zero_le _, ?_, ?_⟩
      · change offset.toNat + sent.toNat ≤ (committed t filename).length
        rw [hsame.committed]
        exact hend
      · change offset.toNat + sent.toNat < 2 ^ 63
        omega

omit [DecidableEq Path] [DecidableEq Dev] in
/-- A block of the file is not read outside. -/
theorem not_outside {t : Team Path} (h : TeamOk resolve names author D d t)
    (hsmall : ∀ name ∈ names, (D name).length < 2147483648) {filename : Name} {offset : BitVec 64}
    {data : List UInt8} (hgood : GoodMessage names D (.fileBlock filename offset data))
    {s : Store}
    (hopen : openFile resolve t filename = some s) : outside s offset.toInt data = false := by
  obtain ⟨hname, k, hoffset, hle, hcut⟩ := hgood
  have hstart : committed t filename ++ pending t filename <+: D filename :=
    h.follows filename hname
  rw [hoffset, hcut]
  exact BlockReceipts.not_outside (hsmall filename hname)
    (openFile_shows h.kept hname hopen).mirrors
    hstart k data.length hle

theorem processData_ok (h : DeviceOk resolve names author D d device)
    (hnames : Names resolve names)
    (hsmall : ∀ name ∈ names, (D name).length < 2147483648) (p : Dev) {filename : Name}
    {offset : BitVec 64} {data : List UInt8}
    (hgood : GoodMessage names D (.fileBlock filename offset data))
    (connected commits : Bool)
    (hdata : processData resolve device p filename offset data connected commits = some o) :
    ∃ t, teamStep resolve device.team
      (.call filename (.appendAt offset.toInt data commits)) = some t ∧
      MethodOk resolve names author heap D d t o := by
  have hinside := fun s => not_outside h.team hsmall hgood (s := s)
  obtain ⟨hname, k, hoffset, hle, hcut⟩ := hgood
  have hslots := h.slots.with_counters p
    { device.peers p with received := (device.peers p).received + data.length } rfl
  obtain ⟨s, hopen, hdata⟩ := Option.bind_eq_some_iff.mp hdata
  obtain ⟨t, hcall, hdata⟩ := Option.bind_eq_some_iff.mp hdata
  have hcalled : teamStep resolve device.team
    (.call filename (.appendAt offset.toInt data commits)) =
    some t := hcall
  rw [hoffset, hcut] at hcall
  have hteam := h.team.appendAt hnames hname (hsmall filename hname) k data.length hle hcall
  obtain ⟨hkept, honward⟩ := call_onward h.team.kept hnames.distinct hname
    (appendAt_released · k _ commits) hcall
  dsimp only at hdata
  rw [if_neg (by rw [hinside s hopen]; decide)] at hdata
  refine ⟨t, hcalled, nextTransfer_ok ⟨?_, hteam, ?_⟩ hnames hsmall p connected hdata⟩
  · exact hslots.with_team hkept honward
  · intro q x hx
    dsimp only [Device.setPeer] at hx
    by_cases hq : q = p
    · rw [hq, Function.update_self] at hx
      exact h.listed p x hx
    · rw [Function.update_of_ne hq] at hx
      exact h.listed q x hx

theorem linksDied_ok (h : DeviceOk resolve names author D d device) (hnames : Names resolve names)
    {p : Dev} {device' : Device Path Dev} (hdied : linksDied resolve device p = some device') :
    DeviceOk resolve names author D d device' ∧ Same device.team device'.team := by
  obtain ⟨hslots, hsame, -, -⟩ := linksDied_slots h.slots hnames.distinct hdied
  obtain ⟨t, hcancel, heq⟩ := Option.bind_eq_some_iff.mp hdied
  obtain ⟨-, -, hslot⟩ := cancelAll_spec hnames.distinct (device.peers p).possibleTransfers
    h.team.kept (h.slots.names p) hcancel
  rw [← Option.some.inj heq] at hslots hsame ⊢
  refine ⟨⟨hslots, ?_, ?_⟩, hsame⟩
  · exact h.team.same hslots.kept hsame fun name x hx => h.team.held name x (hslot name x hx).1
  · intro q x hx
    dsimp only [Device.setPeer] at hx
    by_cases hq : q = p
    · rw [hq, Function.update_self] at hx
      exact absurd hx List.not_mem_nil
    · rw [Function.update_of_ne hq] at hx
      exact h.listed q x hx

end Methods

end Succinct.ReplicaMethods
