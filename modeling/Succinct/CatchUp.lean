import Succinct.SharedFiles

/-!
No run leads to a world in which the devices are stuck: of every file that a
device has and has in its index, any other device can still get as many bytes.
The run that shows it starts that device again, and then follows the protocol: a
key is found, metadata are asked for and sent, the rest of the file is asked for,
and written and received frame by frame.
-/
namespace Succinct.CatchUp

open NativeStore RecordStore Provenance TeamRestarts PeerTransfers TeamCalls TransferLists
  PeerSlots FileReplicas ReplicaTruth ReplicaMethods ReplicaRuns ReplicaAgreement SharedFiles
open Messages (Message MessageType Heap create serialise put putString putLong longBytes)
open FileBlocks (FileBlock Within)
open PeerMetadata (peerMessage processDifference SYNC_MSG_REQ_METADATA LongEnough)

section Sizes

theorem length_longBytes (fuel n : ℕ) : (longBytes fuel n).length ≤ fuel + 1 := by
  induction fuel generalizing n with
  | zero => exact Nat.le_refl 1
  | succ fuel ih =>
    rw [longBytes]
    split
    · have hrest := ih (n / 0x80)
      rw [List.length_cons]
      omega
    · exact Nat.succ_le_succ (Nat.zero_le _)

theorem length_packLoop (fuel : ℕ) (v : UInt64) : (packLoop fuel v).length ≤ fuel := by
  induction fuel generalizing v with
  | zero => exact Nat.le_refl 0
  | succ fuel ih =>
    rw [packLoop, List.length_cons]
    split
    · exact Nat.succ_le_succ (ih _)
    · exact Nat.succ_le_succ (Nat.zero_le _)

/-- The metadata of a file fit into a frame. -/
theorem metadata_fits {key : List UInt8} {version : FileVersion} (hkey : key.length = 8)
    (hname : version.name.length < MAX_NAME) :
    (metadataMessage key version).length ≤ bodyRoom := by
  have hmax : MAX_NAME = 256 := rfl
  have hroom : bodyRoom = 1197 := rfl
  have hversion := length_packLoop 10 version.version.toUInt64
  have hlength := length_packLoop 10 (UInt64.ofNat version.length)
  rw [metadataMessage, packUint, packUint]
  simp only [List.cons_append, List.length_cons, List.length_append, List.length_nil]
  omega

theorem put_fits {room : ℕ} {src out : List UInt8} (h : out.length + src.length ≤ room) :
    put room src out = some (out ++ src) := if_pos h

theorem header_fits {b : FileBlock} (hname : b.filename.length < MAX_NAME) :
    (FileBlocks.header b).length < bodyRoom := by
  have hmax : MAX_NAME = 256 := rfl
  have hroom : bodyRoom = 1197 := rfl
  have hoffset := length_longBytes 9 (b.offset + b.wrote)
  rw [FileBlocks.header, List.length_append, List.length_cons]
  omega

/-- With room for more than the header, a block that is not complete goes on. -/
theorem serialise_goes_on {file : List UInt8} {b : FileBlock} (h : Within file b)
    {room : ℕ} (count : ℕ)
    (hroom : (FileBlocks.header b).length < room) (hmore : b.wrote < b.length) :
    ∃ data, FileBlocks.serialise room file count b =
      .ok (FileBlocks.header b ++ data, b.advance data) ∧
      data ≠ [] ∧ b.wrote + data.length ≤ b.length ∧
      (FileBlocks.header b ++ data).length ≤ room := by
  have hlong := h.long
  have hbelow := h.below
  have hheader : (FileBlocks.header b).length =
      b.filename.length + 1 + (longBytes 9 (b.offset + b.wrote)).length := by
    rw [FileBlocks.header, List.length_append, List.length_cons]
    omega
  have hname : putString room b.filename [] = some (b.filename ++ [0]) := by
    rw [putString, put_fits (by rw [List.length_nil]; omega)]
    exact put_fits (by simp; omega)
  have hnat : (BitVec.ofNat 64 (b.offset + b.wrote)).toNat = b.offset + b.wrote := by
    rw [BitVec.toNat_ofNat]
    omega
  have hoffset : putLong room (BitVec.ofNat 64 (b.offset + b.wrote)) (b.filename ++ [0]) =
      some (FileBlocks.header b) := by
    rw [putLong, hnat, put_fits (by simp; omega), FileBlocks.header]
    simp
  rcases FileBlocks.serialise_spec h room count with hover | ⟨data, hdata, hnext, hfits⟩
  · rw [FileBlocks.serialise, hname, FileBlocks.overflowing] at hover
    change (FileBlocks.overflowing (putLong room _ _) >>= _) = _ at hover
    rw [hoffset, FileBlocks.overflowing] at hover
    change (FileBlocks.readBytes file _ _ count >>= _) = _ at hover
    rw [FileBlocks.readBytes, if_neg (by omega)] at hover
    cases hover
  · refine ⟨data, hdata, ?_, hnext.wrote_le, hfits⟩
    rw [FileBlocks.serialise, hname, FileBlocks.overflowing] at hdata
    change (FileBlocks.overflowing (putLong room _ _) >>= _) = _ at hdata
    rw [hoffset, FileBlocks.overflowing] at hdata
    change (FileBlocks.readBytes file _ _ count >>= _) = _ at hdata
    rw [FileBlocks.readBytes, if_neg (by omega)] at hdata
    have hbody := (Prod.mk.inj (Except.ok.inj hdata)).1
    rintro rfl
    have hlength := congrArg List.length (List.append_cancel_left hbody)
    simp only [FileBlocks.channelRead, List.length_take, List.length_drop, List.length_nil]
      at hlength
    omega

end Sizes

section Stages

variable {Path Dev : Type} [DecidableEq Path] [DecidableEq Dev]
    {resolve : Name → Path} {heap : Heap}
  {names : List Name} {author : Name → Dev} {D : Name → List UInt8}
  {w w' : World Path Dev} {d e : Dev}

omit [DecidableEq Path] in
/-- A method that leaves its device as it was. -/
theorem after_quiet (returned : Bool) (messages : List Message) :
    w.after d ⟨returned, (w.nodes d).device, messages, []⟩ =
      { w with frames := w.frames ++ framesOf messages } := by
  rw [World.after, World.put]
  simp only [List.append_nil, Function.update_eq_self]

omit [DecidableEq Path] [DecidableEq Dev] in
theorem framesOf_sync {message : List UInt8} (h : message.length ≤ bodyRoom) :
    framesOf [.syncMsg message] = [(.syncMsgMessage, message)] := by
  have hbody : serialise bodyRoom (.syncMsg message) = some message :=
    put_fits (by rw [List.length_nil]; omega)
  rw [framesOf, List.filterMap_cons, hbody]
  rfl

omit [DecidableEq Path] [DecidableEq Dev] in
theorem read_sync {message : List UInt8} (h : message.length ≤ bodyRoom) :
    create heap .syncMsgMessage message = (.ok (.syncMsg message), []) := by
  have hroom : bodyRoom = 1197 := rfl
  have hbody : serialise bodyRoom (.syncMsg message) = some message :=
    put_fits (by rw [List.length_nil]; omega)
  exact MessageWrites.creates_syncMsg (by decide) hbody

/-- A frame in flight is delivered. -/
theorem next_deliver {frame : Frame} {m : Message} {rest : List UInt8}
    {o : Outcome Path Dev} {p : Dev}
    (hmem : frame ∈ w.frames) (hread : create heap frame.1 frame.2 = (.ok m, rest))
    (hprocess : process resolve (w.nodes d).device p m true true = some o) :
    Next resolve heap names author w (w.after d o) := by
  obtain ⟨i, hi⟩ := List.getElem?_of_mem hmem
  refine ⟨.deliver d p i true true, trivial, ?_⟩
  rw [step, hi, Option.bind_eq_bind, Option.bind_some]
  simp only [hread, hprocess]
  rfl

/-- A device asks for the metadata of a key. -/
theorem asks (p : Dev) {key : List UInt8} (hkey : key.length = 8)
    (hnone : (w.nodes d).device.team.state.db.files key = none) :
    Next resolve heap names author w
      { w with frames := w.frames ++ [(.syncMsgMessage, SYNC_MSG_REQ_METADATA :: key)] } := by
  refine ⟨.difference d p key true, hkey, ?_⟩
  have hroom : (SYNC_MSG_REQ_METADATA :: key).length ≤ bodyRoom := by
    rw [List.length_cons, hkey]
    decide
  rw [step, processDifference, hnone]
  simp only [Option.bind_eq_bind, Option.bind_some, makeCalls]
  rw [after_quiet, framesOf_sync hroom]

/-- A device that has the key in its index answers. -/
theorem answers (p : Dev) {key : List UInt8} {version : FileVersion} (hkey : key.length = 8)
    (hindex : (w.nodes d).device.team.state.db.index key = some version)
    (hfits : (metadataMessage key version).length ≤ bodyRoom)
    (hmem : (MessageType.syncMsgMessage, SYNC_MSG_REQ_METADATA :: key) ∈ w.frames) :
    Next resolve heap names author w
      { w with frames := w.frames ++ [(.syncMsgMessage, metadataMessage key version)] } := by
  have hroom : (SYNC_MSG_REQ_METADATA :: key).length ≤ bodyRoom := by
    rw [List.length_cons, hkey]
    decide
  have htake : key.take 8 = key := List.take_of_length_le (by omega)
  have hprocess : process resolve (w.nodes d).device p
    (.syncMsg (SYNC_MSG_REQ_METADATA :: key)) true true =
      some ⟨true, (w.nodes d).device, [.syncMsg (metadataMessage key version)], []⟩ := by
    rw [process, peerMessage, if_neg (by decide), if_pos rfl, if_neg (by omega), htake,
      sendMetadata, hindex]
    rfl
  have hnext : Next resolve heap names author w _ := next_deliver hmem (read_sync hroom) hprocess
  rw [after_quiet, framesOf_sync hfits] at hnext
  exact hnext

/-- The metadata of a key that one device has found are sent by another one. -/
theorem hears {key : List UInt8} {version : FileVersion} (hkey : key.length = 8)
    (hnone : (w.nodes e).device.team.state.db.files key = none)
    (hindex : (w.nodes d).device.team.state.db.index key = some version)
    (hfits : (metadataMessage key version).length ≤ bodyRoom) :
    ∃ w' : World Path Dev, Relation.ReflTransGen (Next resolve heap names author) w w' ∧
      w'.nodes = w.nodes ∧ (MessageType.syncMsgMessage,
        metadataMessage key version) ∈ w'.frames := by
  let w₁ : World Path Dev :=
    { w with frames := w.frames ++ [(.syncMsgMessage, SYNC_MSG_REQ_METADATA :: key)] }
  have hasked : Next resolve heap names author w w₁ := asks d hkey hnone
  have hanswered : Next resolve heap names author w₁ _ := answers e hkey hindex hfits
    (List.mem_append_right w.frames (List.mem_singleton.mpr rfl))
  exact ⟨_, .tail (.single hasked) hanswered, rfl,
    List.mem_append_right _ (List.mem_singleton.mpr rfl)⟩

/-- A device that does not wait for the file yet asks for the rest of it. -/
theorem peerHas_requests {device : Device Path Dev} (h : DeviceOk resolve names author D e device)
    (hnames : Names resolve names) (p : Dev) (hash : List UInt8) {filename : Name} {length : ℕ}
    (hname : filename ∈ names) (hempty : device.peers p = ⟨[], 0, 0⟩)
    (hslot : slot device.team filename = none)
    (hlonger : (committed device.team filename).length < length) :
    ∃ o x, peerHas resolve device p hash filename length true = some o ∧
      o.messages = [requestFor (committed device.team filename).length ⟨filename, x⟩] ∧
      o.blocks = [] ∧
      slot o.device.team filename = some x ∧ x.newLength = length ∧
      Same device.team o.device.team := by
  have hnamed := hnames.named filename hname
  obtain ⟨s, t, hopen⟩ := openIn_total resolve device.team hnamed
  obtain ⟨hkept, hsame, hshows, hslots⟩ := openIn_spec h.team.kept hnames.distinct hname hopen
  obtain ⟨s₁, t₁, hopen₁⟩ := openIn_total resolve t hnamed
  obtain ⟨hkept₁, hsame₁, hshows₁, hslots₁⟩ := openIn_spec hkept hnames.distinct hname hopen₁
  let x : PeerTransfer := ⟨device.made, length, hash⟩
  obtain ⟨t₂, hset⟩ := teamStep_total resolve t₁ hnamed (.setTranfer x)
  obtain ⟨-, hsame₂, hslots₂⟩ := setTranfer_spec hkept₁ hnames.distinct hname hset
  have heof : s.EOF = (committed device.team filename).length := hshows.eof
  have heof₁ : s₁.EOF = (committed device.team filename).length := by
    rw [hshows₁.eof, hsame.committed]
  have hactive : s.activeTransfer = none := hshows.slot.trans hslot
  have hactive₁ : s₁.activeTransfer = none := by
    rw [hshows₁.slot, hslots, hslot]
  have hloop : nextTransferLoop resolve true 0 [⟨filename, x⟩] t 0 =
      some ⟨true, [⟨filename, x⟩], t₂, 0 + ((length : ℤ) - s₁.EOF),
        [requestFor s₁.EOF ⟨filename, x⟩]⟩ := by
    rw [nextTransferLoop, if_neg (by decide), hopen₁, Option.bind_eq_bind, Option.bind_some]
    dsimp only
    rw [if_neg (by dsimp only [x]; omega), hactive₁, if_neg (by decide), hset]
    rfl
  have hhas : (peerHas resolve device p hash filename length true).map (fun o =>
      (o.messages, o.blocks, o.device.team)) =
        some ([requestFor s₁.EOF ⟨filename, x⟩], [], t₂) := by
    rw [peerHas, hopen, Option.bind_eq_bind, Option.bind_some]
    dsimp only
    rw [if_neg (by omega), hactive, Option.any_none, if_neg Bool.false_ne_true, nextTransfer]
    dsimp only [Device.setPeer]
    rw [Function.update_self, hempty, List.nil_append, hloop]
    rfl
  obtain ⟨o, ho, heq⟩ := Option.map_eq_some_iff.mp hhas
  obtain ⟨hmessages, heq⟩ := Prod.mk.inj heq
  obtain ⟨hblocks, rfl⟩ := Prod.mk.inj heq
  refine ⟨o, x, ho, ?_, hblocks, ?_, rfl, (hsame.trans hsame₁).trans hsame₂⟩
  · rw [hmessages, heof₁]
  · rw [hslots₂, Function.update_self, hslots₁, hslots, hslot]
    rfl

/-- A request for the rest of a file goes into a frame. -/
theorem request_frame (heap : Heap) {x : Transfer}
    (hname : x.filename.length < MAX_NAME) {start length : ℕ}
    (hlength : x.transfer.newLength = length) (hstart : start < length)
    (hsmall : length < 2147483648) :
    ∃ body, framesOf [requestFor start x] = [(.requestBlockMessage, body)] ∧
      create heap .requestBlockMessage body =
        (.ok (.requestBlock x.filename (BitVec.ofNat 64 start)
        (BitVec.ofNat 64 (length - start))), []) := by
  have hmax : MAX_NAME = 256 := rfl
  have hroom : bodyRoom = 1197 := rfl
  have hsize := length_longBytes 9 (BitVec.ofNat 64 start).toNat
  have hsize' := length_longBytes 9 (BitVec.ofNat 64 (length - start)).toNat
  have hrest : BitVec.ofInt 64 (x.transfer.newLength - start) =
    BitVec.ofNat 64 (length - start) := by
    rw [hlength, ← Int.ofNat_sub hstart.le, BitVec.ofInt_natCast]
  have hread : ∀ n : ℕ, n < 2147483648 → ∀ rest, Messages.getLong
      (longBytes 9 (BitVec.ofNat 64 n).toNat ++ rest) = (.ok (BitVec.ofNat 64 n), rest) := by
    intro n hn rest
    have hnat : (BitVec.ofNat 64 n).toNat = n := by
      rw [BitVec.toNat_ofNat]
      omega
    rw [hnat]
    exact (getLong_small hn rest).1
  obtain ⟨body, hbody⟩ : ∃ body, serialise bodyRoom (requestFor start x) = some body := by
    simp only [requestFor, hrest, serialise, putLong, Option.bind_eq_bind]
    rw [put_fits (by rw [List.length_nil]; omega), List.nil_append, Option.bind_some,
      put_fits (by omega), Option.bind_some, put_fits (by rw [List.length_append]; omega)]
    exact ⟨_, rfl⟩
  refine ⟨body, ?_, ?_⟩
  · rw [framesOf, List.filterMap_cons, hbody]
    rfl
  · rw [requestFor, hrest] at hbody
    exact MessageWrites.create_requestBlock (by decide) (hread start (by omega))
      (hread (length - start) (by omega)) hbody

def Others (d : Dev) (w w' : World Path Dev) : Prop := ∀ e ≠ d, w'.nodes e = w.nodes e

omit [DecidableEq Path] in
theorem others_after (d : Dev) (o : Outcome Path Dev) : Others d w (w.after d o) :=
  fun _ he => Function.update_of_ne he _ _

omit [DecidableEq Path] in
theorem after_self (d : Dev) (o : Outcome Path Dev) :
    (w.after d o).nodes d = ⟨o.device, (w.nodes d).blocks ++ o.blocks⟩ := Function.update_self ..

/-- A device without transfers takes the metadata, and asks for the rest of the file. -/
theorem requests (h : WorldOk resolve heap names author D w)
    (hnames : Names resolve names) (p : Dev)
    {key : List UInt8} {version : FileVersion} (hlong : LongEnough version)
    (htruthful : Truthful names D key version.name version.length)
    (hempty : (w.nodes e).device.peers p = ⟨[], 0, 0⟩)
    (hslot : slot (w.nodes e).device.team version.name = none)
    (hpending : pending (w.nodes e).device.team version.name = [])
    (hshort : (committed (w.nodes e).device.team version.name).length < version.length)
    (hmem : (MessageType.syncMsgMessage, metadataMessage key version) ∈ w.frames) :
    ∃ w' x body, Next resolve heap names author w w' ∧ Others e w w' ∧
      slot (w'.nodes e).device.team version.name = some x ∧ x.newLength = version.length ∧
      (content (w'.nodes e).device.team version.name).length =
        (committed (w.nodes e).device.team version.name).length ∧
      (MessageType.requestBlockMessage, body) ∈ w'.frames ∧
      create heap .requestBlockMessage body = (.ok (.requestBlock version.name
        (BitVec.ofNat 64 (committed (w.nodes e).device.team version.name).length)
        (BitVec.ofNat 64 (version.length -
          (committed (w.nodes e).device.team version.name).length))), []) := by
  have hname := htruthful.file
  have hsmall : version.length < 2147483648 := lt_of_le_of_lt htruthful.within (h.small _ hname)
  have hkey : key.length = 8 := by
    rw [htruthful.hash, syncKey, List.length_take, Sha256.length_hash]
    rfl
  have hparse : parseMetadata (key ++ packUint version.version.toUInt64 ++
      packUint (UInt64.ofNat version.length) ++ version.name ++ [0]) = some (key, version) :=
    (Varints.parseMetadata_eq_iff hkey (hnames.whole _ hname)
      (hnames.short _ hname) version.length).mpr hsmall
  have hbytes := (PeerMetadata.length_metadataMessage hkey version).mpr hlong
  have hlength : (BitVec.ofNat 64 version.length).toInt = version.length :=
    (getLong_small hsmall []).2
  let t : Team Path :=
    { (w.nodes e).device.team with state := { (w.nodes e).device.team.state with db :=
    { (w.nodes e).device.team.state.db with
      index := Function.update (w.nodes e).device.team.state.db.index key (some version) } } }
  have hteam : TeamOk resolve names author D e t := teamOk_index (h.nodes e).device.team htruthful
  have hdevice : DeviceOk resolve names author D e { (w.nodes e).device with team := t } :=
    ⟨(h.nodes e).device.slots.with_team hteam.kept ⟨fun _ _ hx =>
      hx, fun _ => List.prefix_rfl⟩, hteam, (h.nodes e).device.listed⟩
  obtain ⟨o, x, hhas, hmessages, hblocks, hheld, hnew, hsame⟩ := peerHas_requests hdevice
    hnames p key hname hempty hslot hshort
  have hprocess : process resolve (w.nodes e).device p
    (.syncMsg (metadataMessage key version)) true true =
      some ⟨true, o.device, o.messages, o.blocks⟩ := by
    rw [process, metadataMessage]
    simp only [List.cons_append]
    rw [peerMessage, if_neg (by decide), if_neg (by decide), if_pos rfl,
      PeerMetadata.receiveFromPeer, if_neg (by omega), hparse]
    simp only [Option.bind_eq_bind, Option.bind_some, if_true, makeCalls,
      PeerMetadata.callPeerHas, hlength]
    rw [hhas]
    simp only [Option.bind_some, List.append_nil]
  obtain ⟨body, hframes, hread⟩ := request_frame heap (x := ⟨version.name, x⟩)
    (hnames.short _ hname) hnew hshort hsmall
  have hnext : Next resolve heap names author w _ :=
    next_deliver hmem (read_sync (metadata_fits hkey (hnames.short _ hname))) hprocess
  refine ⟨_, x, body, hnext, others_after e _, ?_, hnew, ?_, ?_, hread⟩
  · rw [after_self]
    exact hheld
  · rw [after_self]
    dsimp only
    have hnone : pending t version.name = [] := hpending
    rw [content, hsame.committed, hsame.pending, hnone, List.append_nil]
    rfl
  · rw [World.after, hmessages]
    refine List.mem_append_right _ ?_
    have heq : framesOf [requestFor (committed t version.name).length ⟨version.name, x⟩] =
      _ := hframes
    dsimp only
    rw [heq]
    exact List.mem_singleton.mpr rfl

/-- A device that has the bytes puts the block into its queue. -/
theorem queues (h : WorldOk resolve heap names author D w)
    (hnames : Names resolve names) (p : Dev)
    {name : Name} (hname : name ∈ names) {start n : ℕ} (hpositive : 0 < n)
    (hend : start + n ≤ (committed (w.nodes d).device.team name).length) {body : List UInt8}
    (hmem : (MessageType.requestBlockMessage, body) ∈ w.frames)
    (hread : create heap .requestBlockMessage body =
      (.ok (.requestBlock name (BitVec.ofNat 64 start) (BitVec.ofNat 64 n)), [])) :
    ∃ (w' : World Path Dev) (i : ℕ), Next resolve heap names author w w' ∧ Others d w w' ∧
      (w'.nodes d).blocks[i]? = some (FileBlock.ofFile name start n) := by
  have hfile : (committed (w.nodes d).device.team name).length < 2147483648 :=
    lt_of_le_of_lt (content_le (h.nodes d).device.team hname).length_le (h.small name hname)
  have hstart := (getLong_small (by omega : start < 2147483648) []).2
  have hlength := (getLong_small (by omega : n < 2147483648) []).2
  obtain ⟨s, t, hopen⟩ := openIn_total resolve (w.nodes d).device.team (hnames.named name hname)
  obtain ⟨-, -, hshows⟩ := openIn_ok (h.nodes d).device hnames hname hopen
  obtain ⟨sent, hsome, hsent⟩ : ∃ sent : BitVec 64, BlockRequests.processRequest
      (BitVec.ofNat 64 (committed (w.nodes d).device.team name).length) name
        (BitVec.ofNat 64 start)
      (BitVec.ofNat 64 n) = some ⟨name, BitVec.ofNat 64 start, sent⟩ ∧ sent.toInt = n := by
    rcases @BlockRequests.processRequest_cases (committed (w.nodes d).device.team name)
      (BitVec.ofNat 64 start)
      (BitVec.ofNat 64 n) (lt_of_lt_of_le hfile (by decide)) (by rw [BlockRequests.Narrow]; omega)
      (by rw [BlockRequests.Narrow]; omega) name with ⟨-, hwhy⟩ | ⟨-, -, sent, hsome, hsent⟩
    · omega
    · exact ⟨sent, hsome, by omega⟩
  have hnat : sent.toNat = n := by
    have hlt := sent.isLt
    rw [BitVec.toInt_eq_toNat_cond] at hsent
    split at hsent
    · omega
    · omega
  have hprocess : process resolve (w.nodes d).device p
      (.requestBlock name (BitVec.ofNat 64 start) (BitVec.ofNat 64 n)) true true =
      some ⟨true, { (w.nodes d).device with team := t }, [], [.ofFile name start n]⟩ := by
    have hstartNat : (BitVec.ofNat 64 start).toNat = start := by
      rw [BitVec.toNat_ofNat]
      omega
    rw [process, processRequest, hopen, Option.bind_eq_bind, Option.bind_some]
    dsimp only
    rw [hshows.eof, hsome]
    dsimp only
    rw [if_neg (by decide), hnat, hstartNat]
  have hnext : Next resolve heap names author w _ := next_deliver hmem hread hprocess
  refine ⟨_, (w.nodes d).blocks.length, hnext, others_after d _, ?_⟩
  rw [after_self]
  dsimp only
  rw [List.getElem?_append_right (Nat.le_refl _), Nat.sub_self]
  rfl

/-- A block of the file is taken, whatever it completes, and the slots stay as
the store leaves them. -/
theorem processData_total {device : Device Path Dev}
    (h : DeviceOk resolve names author D e device)
    (hnames : Names resolve names)
    (hsmall : ∀ name ∈ names, (D name).length < 2147483648) (p : Dev)
    {filename : Name} {offset : BitVec 64} {data : List UInt8}
    (hgood : GoodMessage names D (.fileBlock filename offset data)) :
    ∃ o t, processData resolve device p filename offset data true true = some o ∧
      teamStep resolve device.team (.call filename (.appendAt offset.toInt data true)) = some t ∧
      SameFiles t o.device.team ∧ ∀ name x, slot t name = some x →
      slot o.device.team name = some x := by
  have hnamed := hnames.named filename hgood.1
  obtain ⟨s, hopen⟩ := openFile_total resolve device.team hnamed
  obtain ⟨t, hcall⟩ :=
    teamStep_total resolve device.team hnamed (.appendAt offset.toInt data true)
  have hinside := not_outside h.team hsmall hgood hopen
  obtain ⟨hkept, -⟩ := call_spec h.team.kept hnames.distinct hgood.1 hcall
  have hlisted := h.slots.names p
  obtain ⟨turns, hturns⟩ := nextTransferLoop_total resolve true
    ((device.peers p).received + data.length) (device.peers p).possibleTransfers t
      (device.peers p).requested
    fun x hx => hnames.named x.filename (hlisted x hx)
  have hteam : (processData resolve device p filename offset data true true).map
    (fun o => o.device.team) =
      some turns.team := by
    rw [processData]
    dsimp only [Device.setPeer]
    simp only [hopen, hcall, hinside, Option.bind_eq_bind, Option.bind_some,
      if_neg Bool.false_ne_true, nextTransfer, Function.update_self, hturns]
    rfl
  obtain ⟨o, ho, hoteam⟩ := Option.map_eq_some_iff.mp hteam
  refine ⟨o, t, ho, hcall, ?_, ?_⟩
  · rw [hoteam]
    exact SameFiles.of_same (nextTransferLoop_spec hnames.distinct true _ _ hkept
      hlisted hturns).same
  · rw [hoteam]
    exact (nextTransferLoop_busy hnames.distinct true _ _ hkept hlisted hturns).slots

/-- The next frame of a block that is not complete. -/
theorem writes_frame (h : WorldOk resolve heap names author D w)
    (hnames : Names resolve names) {i : ℕ}
    {b : FileBlock} (hblock : (w.nodes d).blocks[i]? = some b) (hmore : b.wrote < b.length) :
    ∃ (w' : World Path Dev) (data : List UInt8),
    Next resolve heap names author w w' ∧ Others d w w' ∧
      (MessageType.fileBlockMessage, FileBlocks.header b ++ data) ∈ w'.frames ∧
      create heap .fileBlockMessage (FileBlocks.header b ++ data) =
        (.ok (.fileBlock b.filename (BitVec.ofNat 64 (b.offset + b.wrote)) data), []) ∧
      data ≠ [] ∧ b.wrote + data.length ≤ b.length ∧
      (b.wrote + data.length < b.length → (w'.nodes d).blocks[i]? = some (b.advance data)) := by
  obtain ⟨hname, hwithin⟩ := (h.nodes d).blocks b (List.mem_of_getElem? hblock)
  have hsmall := h.small b.filename hname
  have hbelow := hwithin.below
  have hle := (content_le (h.nodes d).device.team hname).length_le
  obtain ⟨s, t, hopen⟩ := openIn_total resolve (w.nodes d).device.team (hnames.named _ hname)
  obtain ⟨-, -, hshows⟩ := openIn_ok (h.nodes d).device hnames hname hopen
  obtain ⟨data, hdata, hsome, hrest, hfits⟩ := serialise_goes_on hwithin 2000
    (header_fits (hnames.short _ hname)) hmore
  let n : Node Path Dev := ⟨{ (w.nodes d).device with team := t },
    if (b.advance data).isComplete then (w.nodes d).blocks.eraseIdx i
    else (w.nodes d).blocks.set i (b.advance data)⟩
  have hwrite : writeBlock resolve (w.nodes d) i bodyRoom 2000 =
      some ((.fileBlockMessage, FileBlocks.header b ++ data), n) := by
    simp only [writeBlock, hblock, hopen, hshows.bytes, hdata,
      Option.bind_eq_bind, Option.bind_some]
    rfl
  refine ⟨{ w.put d n with frames := w.frames ++
    [(.fileBlockMessage, FileBlocks.header b ++ data)] }, data,
    ⟨.write d i bodyRoom 2000, Nat.le_refl _, ?_⟩, fun _ he => Function.update_of_ne he _ _,
    List.mem_append_right _ (List.mem_singleton.mpr rfl),
    block_read heap (hnames.whole _ hname) hfits (by omega), hsome, hrest, ?_⟩
  · rw [step, hwrite]
    rfl
  · intro hless
    have hopenEnd : (b.advance data).isComplete = false := by
      rw [FileBlock.isComplete, decide_eq_false_iff_not, FileBlock.advance]
      dsimp only
      omega
    dsimp only [World.put]
    rw [Function.update_self]
    dsimp only [n]
    rw [hopenEnd, if_neg Bool.false_ne_true, List.getElem?_set_self]
    exact (List.getElem?_eq_some_iff.mp hblock).1

/-- A frame with the bytes that a device waits for next: they complete the file,
or it waits for the bytes behind them. -/
theorem takes_frame (h : WorldOk resolve heap names author D w)
    (hnames : Names resolve names) (p : Dev)
    {name : Name} {start : ℕ} {data : List UInt8} {body : List UInt8} {x : PeerTransfer}
    (hmem : (MessageType.fileBlockMessage, body) ∈ w.frames)
    (hread : create heap .fileBlockMessage body =
      (.ok (.fileBlock name (BitVec.ofNat 64 start) data), []))
    (hstart : (BitVec.ofNat 64 start).toInt = start)
    (hslot : slot (w.nodes e).device.team name = some x)
    (hcontent : (content (w.nodes e).device.team name).length = start) :
    ∃ w', Next resolve heap names author w w' ∧ Others e w w' ∧
      ((x.newLength = (start + data.length : ℕ) ∧
        (committed (w'.nodes e).device.team name).length = start + data.length) ∨
      (x.newLength ≠ (start + data.length : ℕ) ∧ slot (w'.nodes e).device.team name = some x ∧
        (content (w'.nodes e).device.team name).length = start + data.length)) := by
  have hgood := h.frames _ hmem _ _ hread
  have hteam := (h.nodes e).device.team
  obtain ⟨o, t, hdata, hcall, hfiles, hkeeps⟩ :=
    processData_total (h.nodes e).device hnames h.small p hgood
  obtain ⟨hname, k, hk, hwithin, hcut⟩ := hgood
  obtain rfl : k = start := by omega
  have hprocess : process resolve (w.nodes e).device p
    (.fileBlock name (BitVec.ofNat 64 k) data) true true =
      some o := hdata
  have hmax : max (content (w.nodes e).device.team name).length (k + data.length) =
    k + data.length := by
    omega
  have hnext : Next resolve heap names author w _ := next_deliver hmem hread hprocess
  rw [hstart, hcut] at hcall
  refine ⟨_, hnext, others_after e _, ?_⟩
  rw [after_self]
  dsimp only
  by_cases hdone : x.newLength = (k + data.length : ℕ)
  · left
    obtain ⟨hcommitted, -⟩ :=
      hteam.completes hnames hname (h.small name hname) hwithin hslot (by omega)
      (by rw [hmax]; exact hdone) hcall
    refine ⟨hdone, ?_⟩
    rw [hfiles.committed, hcommitted, hmax, List.length_take]
    omega
  · right
    obtain ⟨hlength, hsame⟩ :=
      hteam.waits hnames hname (h.small name hname) hwithin hslot (by omega)
      (by rw [hmax]; exact hdone) hcall
    refine ⟨hdone, hkeeps name x hsame, ?_⟩
    rw [content, hfiles.committed, hfiles.pending]
    exact hlength.trans hmax

/-- A block of a file is written and received to its end. -/
theorem sends (hnames : Names resolve names) (hne : d ≠ e) {i : ℕ}
    {x : PeerTransfer} {b : FileBlock}
    (h : WorldOk resolve heap names author D w) (hblock : (w.nodes d).blocks[i]? = some b)
    (hslot : slot (w.nodes e).device.team b.filename = some x)
    (hlength : x.newLength = (b.offset + b.length : ℕ))
    (hcontent : (content (w.nodes e).device.team b.filename).length = b.offset + b.wrote)
    (hmore : b.wrote < b.length) :
    ∃ w', Relation.ReflTransGen (Next resolve heap names author) w w' ∧
      (committed (w'.nodes e).device.team b.filename).length = b.offset + b.length := by
  induction hrest : b.length - b.wrote using Nat.strong_induction_on generalizing w D b with
  | _ rest ih =>
    obtain ⟨hname, hwithin⟩ := (h.nodes d).blocks b (List.mem_of_getElem? hblock)
    have hbelow := hwithin.below
    have hle := (content_le (h.nodes d).device.team hname).length_le
    have hsmall := h.small b.filename hname
    obtain ⟨w₁, data, hwrite, hothers, hmem, hread, hsome, hwithinBlock, hgoesOn⟩ :=
      writes_frame h hnames hblock hmore
    have hpositive : 0 < data.length := List.length_pos_iff.mpr hsome
    obtain ⟨⟨D₁, h₁⟩, -⟩ := run_ok h hnames (.single hwrite)
    have he := hothers e hne.symm
    obtain ⟨w₂, htake, hothers₂, hcases⟩ := takes_frame h₁ hnames d hmem hread
      (getLong_small (by omega) []).2 (by rw [he]; exact hslot) (by rw [he]; exact hcontent)
    have hrun : Relation.ReflTransGen (Next resolve heap names author) w w₂ :=
      .tail (.single hwrite) htake
    rcases hcases with ⟨hdone, hcommitted⟩ | ⟨hdone, hslot₂, hcontent₂⟩
    · exact ⟨w₂, hrun, by omega⟩
    · obtain ⟨⟨D₂, h₂⟩, -⟩ := run_ok h hnames hrun
      have hless : b.wrote + data.length < b.length := by omega
      have hblock₂ : (w₂.nodes d).blocks[i]? = some (b.advance data) := by
        rw [hothers₂ d hne]
        exact hgoesOn hless
      obtain ⟨w', hrun', hcommitted⟩ :=
        ih (b.length - (b.wrote + data.length)) (by omega) h₂ hblock₂ hslot₂
        hlength (hcontent₂.trans (Nat.add_assoc _ _ _)) hless rfl
      exact ⟨w', hrun.trans hrun', hcommitted⟩

/-- A device that was started again has no transfers, and what it had committed. -/
theorem restarts (w : World Path Dev) (e : Dev) :
    ∃ w' : World Path Dev, Next resolve heap names author w w' ∧ Others e w w' ∧
      (∀ p, (w'.nodes e).device.peers p = ⟨[], 0, 0⟩) ∧
      ∀ name, slot (w'.nodes e).device.team name = none ∧
      pending (w'.nodes e).device.team name = [] ∧
        committed (w'.nodes e).device.team name = committed (w.nodes e).device.team name := by
  refine ⟨w.put e ⟨restart (w.nodes e).device, []⟩, ⟨.restart e, trivial, rfl⟩,
    fun _ hd => Function.update_of_ne hd _ _, ?_, ?_⟩
  · intro p
    rw [World.put]
    dsimp only
    rw [Function.update_self]
    rfl
  · intro name
    rw [World.put]
    dsimp only
    rw [Function.update_self, PeerTransfers.restart]
    exact ⟨rfl, pending_restart _ _, committed_restart _ _⟩

/-- Of a file that a device has, and has in its index, any other device can get
as much, whatever has happened before. -/
theorem catch_up (hnames : Names resolve names)
    (h : Reachable resolve heap names author w) (d e : Dev)
    {key : List UInt8} {version : FileVersion}
    (hindex : (w.nodes d).device.team.state.db.index key = some version)
    (hlong : LongEnough version)
    (hhas : version.length ≤ (committed (w.nodes d).device.team version.name).length) :
    ∃ w', Relation.ReflTransGen (Next resolve heap names author) w w' ∧
      version.length ≤ (committed (w'.nodes e).device.team version.name).length := by
  obtain ⟨D, hok⟩ := reachable_ok hnames h
  by_cases hshort : (committed (w.nodes e).device.team version.name).length < version.length
  case neg => exact ⟨w, .refl, by omega⟩
  have hne : d ≠ e := by
    rintro rfl
    omega
  have htruthful := (hok.nodes d).device.team.index key version hindex
  have hname := htruthful.file
  have hkey : key.length = 8 := by
    rw [htruthful.hash, syncKey, List.length_take, Sha256.length_hash]
    rfl
  have hfits := metadata_fits hkey (hnames.short _ hname)
  -- the device is started again, and hears of the file
  obtain ⟨w₁, hnext₁, hothers₁, hempty, hteam⟩ := @restarts _ _ _ _ resolve heap names author w e
  obtain ⟨hslot, hpending, hcommitted⟩ := hteam version.name
  obtain ⟨⟨D₁, h₁⟩, -⟩ := run_ok hok hnames (.single hnext₁)
  obtain ⟨w₂, hrun₂, hnodes₂, hmem₂⟩ := hears hkey (no_file (h₁.nodes e).device.team hnames hkey)
    (by rw [hothers₁ d hne]; exact hindex) hfits
  have hrun : Relation.ReflTransGen (Next resolve heap names author) w w₂ := .head hnext₁ hrun₂
  obtain ⟨⟨D₂, h₂⟩, -⟩ := run_ok hok hnames hrun
  have hd₂ : w₂.nodes d = w.nodes d := by rw [hnodes₂, hothers₁ d hne]
  rw [← hnodes₂] at hempty hslot hpending hcommitted
  -- it asks for the bytes that it has not
  obtain ⟨w₃, x, body, hnext₃, hothers₃, hheld, hnew, hcontent, hmem₃, hread⟩ :=
    requests h₂ hnames d hlong
    ((h₂.nodes d).device.team.index key version (by rw [hd₂]; exact hindex))
      (hempty d) hslot hpending
    (by rw [hcommitted]; exact hshort) hmem₂
  obtain ⟨⟨D₃, h₃⟩, -⟩ := run_ok hok hnames (hrun.tail hnext₃)
  have hd₃ : w₃.nodes d = w.nodes d := (hothers₃ d hne).trans hd₂
  rw [hcommitted] at hread hcontent
  -- and they are queued and sent
  obtain ⟨w₄, i, hnext₄, hothers₄, hblock⟩ := queues h₃ hnames e hname (by omega)
    (by rw [hd₃]; omega) hmem₃ hread
  obtain ⟨⟨D₄, h₄⟩, -⟩ := run_ok hok hnames ((hrun.tail hnext₃).tail hnext₄)
  have he₄ := hothers₄ e hne.symm
  obtain ⟨w₅, hrun₅, hdone⟩ := @sends _ _ _ _ _ heap _ _ _ _ _ _ hnames hne i x _ h₄ hblock
    (by rw [he₄]; exact hheld)
    (by rw [hnew, FileBlock.ofFile]; dsimp only; omega)
    (by rw [he₄, FileBlock.ofFile]; exact hcontent)
    (by rw [FileBlock.ofFile]; dsimp only; omega)
  refine ⟨w₅, ((hrun.tail hnext₃).tail hnext₄).trans hrun₅, ?_⟩
  rw [FileBlock.ofFile] at hdone
  dsimp only at hdone
  omega

end Stages

section Exchange

open MessageWrites (smallHeap)

/-- A device that knows nothing yet gets the record of the other one. -/
theorem catch_up_report : ∃ w w' : World Name Bool,
    committed (w.nodes true).device.team report = [] ∧
    Relation.ReflTransGen (Next id smallHeap [report] fun _ => false) w w' ∧
    11 ≤ (committed (w'.nodes true).device.team report).length := by
  have hrecord : (step id smallHeap (World.start : World Name Bool)
      (.record false report [1, 2, 3] true)).map (fun w =>
        ((w.nodes false).device.team.state.db.index
          (syncKey (Sha256.hash (completeRecord [1, 2, 3]))),
          committed (w.nodes false).device.team report,
            committed (w.nodes true).device.team report)) =
      some (some ⟨1, 11, report⟩, completeRecord [1, 2, 3], []) := by
    decide +kernel
  obtain ⟨w, hstep, heq⟩ := Option.map_eq_some_iff.mp hrecord
  obtain ⟨hindex, heq⟩ := Prod.mk.inj heq
  obtain ⟨hcommitted, hnothing⟩ := Prod.mk.inj heq
  have hreachable : Reachable id smallHeap [report] (fun _ => false) w :=
    .step (.record false report [1, 2, 3] true) .start
      ⟨List.mem_singleton.mpr rfl, rfl, by decide⟩ hstep
  obtain ⟨w', hrun, hlength⟩ := catch_up report_names hreachable false true hindex (by decide)
    (by rw [hcommitted]; decide)
  exact ⟨w, w', hnothing, hrun, hlength⟩

end Exchange

end Succinct.CatchUp
