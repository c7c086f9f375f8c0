import Succinct.MessageWrites

/-!
FileBlock.java: a block of a file that is sent in as many frames as it takes.
Between two frames the file may grow, and a read of its channel may stop
short. The offsets of Java are below EOF here, so their sums do not overflow.
-/
namespace Succinct.FileBlocks

open ByteBuffers Messages MessageFrames MessageStream MessageWrites

inductive Failure where
  | bufferOverflow
  | illegalState
  deriving DecidableEq

structure FileBlock where
  filename : List UInt8
  offset : ℕ
  length : ℕ
  wrote : ℕ

def FileBlock.ofFile (filename : List UInt8) (offset length : ℕ) : FileBlock :=
  ⟨filename, offset, length, 0⟩

def FileBlock.isComplete (b : FileBlock) : Bool := decide (b.length - b.wrote = 0)

/-- Of the bytes asked for a channel reads at least one, if there are any. -/
def channelRead (count len : ℕ) : ℕ := min len (count + 1)

def readBytes (file : List UInt8) (offset len count : ℕ) : Except Failure (List UInt8) :=
  if file.length < offset + len then .error .illegalState
  else .ok ((file.drop offset).take (channelRead count len))

def overflowing : Option (List UInt8) → Except Failure (List UInt8)
  | some out => .ok out
  | none => .error .bufferOverflow

/-- The body of the next frame. The block is changed last. -/
def serialise (room : ℕ) (file : List UInt8) (count : ℕ) (b : FileBlock) :
    Except Failure (List UInt8 × FileBlock) := do
  let out ← overflowing (putString room b.filename [])
  let out ← overflowing (putLong room (BitVec.ofNat 64 (b.offset + b.wrote)) out)
  let len := min (room - out.length) (b.length - b.wrote)
  let read ← readBytes file (b.offset + b.wrote) len count
  return (out ++ read, { b with wrote := b.wrote + read.length })

def write (buff : ByteBuffer) (file : List UInt8) (count : ℕ) (b : FileBlock) :
    Except Failure (Bool × ByteBuffer × FileBlock) :=
  if buff.remaining < 3 then .ok (false, buff, b)
  else
    match serialise (buff.remaining - 3) file count b with
    | .error .illegalState => .error .illegalState
    | .error .bufferOverflow => .ok (false, buff.setMark, b)
    | .ok (body, b) =>
      match buff.setMark.put (frame .fileBlockMessage body) with
      | none => .ok (false, buff.setMark, b)
      | some buff => .ok (b.isComplete, buff, b)

def header (b : FileBlock) : List UInt8 := b.filename ++ 0 :: longBytes 9 (b.offset + b.wrote)

/-- A block of the bytes below EOF, no more of which is sent than there is. -/
structure Within (file : List UInt8) (b : FileBlock) : Prop where
  wrote_le : b.wrote ≤ b.length
  below : b.offset + b.length ≤ file.length
  long : b.offset + b.length < 2 ^ 63

structure Next (file : List UInt8) (b : FileBlock) (data : List UInt8) : Prop where
  bytes : data = (file.drop (b.offset + b.wrote)).take data.length
  wrote_le : b.wrote + data.length ≤ b.length

def FileBlock.advance (b : FileBlock) (data : List UInt8) : FileBlock :=
  { b with wrote := b.wrote + data.length }

theorem readBytes_spec {file : List UInt8} {b : FileBlock} (h : Within file b) (len count : ℕ)
    (hlen : len ≤ b.length - b.wrote) :
    ∃ data, readBytes file (b.offset + b.wrote) len count = .ok data ∧ Next file b data ∧
      data.length ≤ len := by
  obtain ⟨hwrote, hbelow, -⟩ := h
  have hcount : channelRead count len ≤ len := Nat.min_le_left _ _
  have hlength : ((file.drop (b.offset + b.wrote)).take (channelRead count len)).length =
      channelRead count len := by
    rw [List.length_take, List.length_drop]
    omega
  refine ⟨_, if_neg (by omega), ⟨?_, ?_⟩, ?_⟩
  · rw [hlength]
  · rw [hlength]
    omega
  · rw [hlength]
    exact hcount

/-- The name or the offset does not fit, or the body is whole. -/
theorem serialise_spec {file : List UInt8} {b : FileBlock} (h : Within file b) (room count : ℕ) :
    serialise room file count b = .error .bufferOverflow ∨
      ∃ data, serialise room file count b = .ok (header b ++ data, b.advance data) ∧
        Next file b data ∧ (header b ++ data).length ≤ room := by
  have hlong := h.long
  have hwrote := h.wrote_le
  have hnat : (BitVec.ofNat 64 (b.offset + b.wrote)).toNat = b.offset + b.wrote := by
    rw [BitVec.toNat_ofNat]
    omega
  cases hname : putString room b.filename [] with
  | none =>
    left
    rw [serialise, hname]
    rfl
  | some out =>
    obtain ⟨hout, -⟩ := putString_eq_some hname
    cases hoffset : putLong room (BitVec.ofNat 64 (b.offset + b.wrote)) out with
    | none =>
      left
      rw [serialise, hname]
      change (overflowing (putLong room _ out) >>= _) = _
      rw [hoffset]
      rfl
    | some out' =>
      right
      obtain ⟨hout', hfits⟩ := put_eq_some hoffset
      have hheader : out' = header b := by
        rw [hout', hout, hnat, header]
        simp
      rw [hheader] at hoffset hfits
      obtain ⟨data, hread, hnext, hlen⟩ := readBytes_spec h
        (min (room - (header b).length) (b.length - b.wrote)) count (Nat.min_le_right _ _)
      refine ⟨data, ?_, hnext, ?_⟩
      · rw [serialise, hname]
        change (overflowing (putLong room _ out) >>= _) = _
        rw [hoffset]
        change (readBytes file _ _ count >>= _) = _
        rw [hread]
        rfl
      · rw [List.length_append]
        omega

def frameOf (b : FileBlock) (data : List UInt8) : List UInt8 :=
  frame .fileBlockMessage (header b ++ data)

/-- A call leaves everything as it is, or sends a frame. -/
theorem write_spec {file : List UInt8} {b : FileBlock} (h : Within file b) (buff : ByteBuffer)
    (count : ℕ) :
    (∃ after, write buff file count b = .ok (false, after, b) ∧ after.position = buff.position ∧
      after.bytes = buff.bytes) ∨
    ∃ data after, write buff file count b =
        .ok (decide (b.wrote + data.length = b.length), after, b.advance data) ∧
      Next file b data ∧ after.written = buff.written ++ frameOf b data ∧
      (frameOf b data).length ≤ buff.remaining := by
  by_cases hfew : buff.remaining < 3
  · left
    exact ⟨buff, if_pos hfew, rfl, rfl⟩
  · rcases serialise_spec h (buff.remaining - 3) count with hover | ⟨data, hbody, hnext, hroom⟩
    · left
      refine ⟨buff.setMark, ?_, rfl, rfl⟩
      rw [write, if_neg hfew, hover]
    · right
      have hfits : (frameOf b data).length ≤ buff.remaining := by
        rw [frameOf, length_frame]
        omega
      obtain ⟨after, hput, -, -, -, hwritten⟩ := buff.setMark.put_spec (frameOf b data) hfits
      refine ⟨data, after, ?_, hnext, hwritten, hfits⟩
      have hcomplete : (b.advance data).isComplete =
        decide (b.wrote + data.length = b.length) := by
        have hle := hnext.wrote_le
        rw [FileBlock.isComplete, FileBlock.advance]
        refine decide_eq_decide.mpr ⟨fun hzero => ?_, fun hall => ?_⟩
        · dsimp only at hzero
          omega
        · dsimp only
          omega
      rw [frameOf] at hput
      rw [write, if_neg hfew, hbody]
      dsimp only
      rw [hput, hcomplete]

/-- A call of write: what was committed to the file before it, how far the
channel of the file reads, and the buffer, which has the size of the
network's. -/
structure Call where
  more : List UInt8
  count : ℕ
  buff : ByteBuffer
  capacity_eq : buff.capacity = MTU

structure Written where
  call : Call
  before : FileBlock
  returned : Bool
  buff : ByteBuffer
  after : FileBlock

def writeAll : List UInt8 → FileBlock → List Call → Except Failure (List Written × FileBlock)
  | _, b, [] => .ok ([], b)
  | file, b, call :: calls => do
    let r ← write call.buff (file ++ call.more) call.count b
    let rest ← writeAll (file ++ call.more) r.2.2 calls
    return (⟨call, b, r.1, r.2.1, r.2.2⟩ :: rest.1, rest.2)

def Written.appended (w : Written) : List UInt8 := w.buff.written.drop w.call.buff.position

def Written.data (w : Written) : List UInt8 := w.appended.drop (3 + (header w.before).length)

theorem Within.grow {file : List UInt8} {b : FileBlock} (h : Within file b) (more : List UInt8) :
    Within (file ++ more) b := by
  refine ⟨h.wrote_le, ?_, h.long⟩
  have hbelow := h.below
  rw [List.length_append]
  omega

theorem Within.advance {file : List UInt8} {b : FileBlock} (h : Within file b) {data : List UInt8}
    (hnext : Next file b data) : Within file (b.advance data) :=
  ⟨hnext.wrote_le, h.below, h.long⟩

/-- What was committed later is not part of the block. -/
theorem Next.of_grown {file : List UInt8} {b : FileBlock} (h : Within file b)
    {more data : List UInt8} (hnext : Next (file ++ more) b data) : Next file b data := by
  have hbelow := h.below
  have hwrote := hnext.wrote_le
  refine ⟨?_, hwrote⟩
  have hbytes := hnext.bytes
  rw [List.drop_append_of_le_length (by omega),
    List.take_append_of_le_length (by rw [List.length_drop]; omega)] at hbytes
  exact hbytes

theorem Next.append {file : List UInt8} {b : FileBlock} {data rest : List UInt8}
    (h : Next file b data) (hrest : Next file (b.advance data) rest) :
    Next file b (data ++ rest) := by
  refine ⟨?_, ?_⟩
  · have hdrop : file.drop (b.offset + (b.advance data).wrote) =
        (file.drop (b.offset + b.wrote)).drop data.length := by
      rw [List.drop_drop, FileBlock.advance, Nat.add_assoc]
    have hbytes : rest = (file.drop (b.offset + (b.advance data).wrote)).take rest.length :=
      hrest.bytes
    rw [hdrop] at hbytes
    rw [List.length_append, List.take_add, ← h.bytes, ← hbytes]
  · have hwrote : b.wrote + data.length + rest.length ≤ b.length := hrest.wrote_le
    rw [List.length_append]
    omega

theorem advance_advance (b : FileBlock) (data rest : List UInt8) :
    (b.advance data).advance rest = b.advance (data ++ rest) := by
  simp only [FileBlock.advance, List.length_append, Nat.add_assoc]

structure Refused (w : Written) : Prop where
  position : w.buff.position = w.call.buff.position
  bytes : w.buff.bytes = w.call.buff.bytes
  after : w.after = w.before
  returned : w.returned = false

structure Sent (file : List UInt8) (w : Written) : Prop where
  next : Next file w.before w.data
  written : w.buff.written = w.call.buff.written ++ frameOf w.before w.data
  fits : (frameOf w.before w.data).length ≤ MTU
  after : w.after = w.before.advance w.data
  returned : w.returned = decide (w.after.wrote = w.after.length)

theorem Written.appended_eq {w : Written} {f : List UInt8}
    (h : w.buff.written = w.call.buff.written ++ f) : w.appended = f := by
  rw [Written.appended, h, List.drop_left' w.call.buff.length_written]

theorem Written.data_eq {w : Written} {data : List UInt8}
    (h : w.buff.written = w.call.buff.written ++ frameOf w.before data) : w.data = data := by
  rw [Written.data, Written.appended_eq h, frameOf]
  have hlen : (UInt8.ofNat MessageType.fileBlockMessage.ordinal ::
      bigEndian 2 (header w.before ++ data).length ++ header w.before).length =
        3 + (header w.before).length := by
    simp
    omega
  rw [frame, ← List.append_assoc]
  exact List.drop_left' hlen

theorem Refused.data {w : Written} (h : Refused w) : w.data = [] := by
  have hwritten : w.buff.written = w.call.buff.written ++ [] := by
    rw [ByteBuffer.written, h.position, h.bytes, List.append_nil]
    rfl
  rw [Written.data, Written.appended_eq hwritten, List.drop_nil]

/-- The first of several calls. -/
theorem first_call {file : List UInt8} {b : FileBlock} (h : Within file b) (grown : List UInt8)
    (call : Call) :
    ∃ w : Written, w.call = call ∧ w.before = b ∧
      write call.buff (file ++ grown ++ call.more) call.count b =
        .ok (w.returned, w.buff, w.after) ∧
      (Refused w ∨ Sent file w) ∧ Next file b w.data ∧ w.after = b.advance w.data := by
  have hcap : call.buff.bytes.length = 1200 := call.capacity_eq
  have hmtu : MTU = 1200 := rfl
  have hlim := call.buff.limit_le
  have hrem : call.buff.remaining = call.buff.limit - call.buff.position := rfl
  have hnone : Next file b [] := ⟨rfl, h.wrote_le⟩
  rw [List.append_assoc]
  rcases write_spec (h.grow (grown ++ call.more)) call.buff call.count with
    ⟨after, hwrite, hposition, hbytes⟩ | ⟨data, after, hwrite, hnext, hwritten, hfits⟩
  · have hrefused : Refused ⟨call, b, false, after, b⟩ := ⟨hposition, hbytes, rfl, rfl⟩
    refine ⟨⟨call, b, false, after, b⟩, rfl, rfl, hwrite, Or.inl hrefused, ?_, ?_⟩
    · rw [hrefused.data]
      exact hnone
    · rw [hrefused.data]
      rfl
  · have hdata : Written.data ⟨call, b, decide (b.wrote + data.length = b.length), after,
        b.advance data⟩ = data := Written.data_eq hwritten
    have hbelow := hnext.of_grown h
    refine ⟨⟨call, b, decide (b.wrote + data.length = b.length), after, b.advance data⟩, rfl, rfl,
      hwrite, Or.inr ⟨?_, ?_, ?_, ?_, rfl⟩, ?_, ?_⟩
    · rw [hdata]
      exact hbelow
    · rw [hdata]
      exact hwritten
    · rw [hdata]
      exact Nat.le_trans hfits (by omega)
    · rw [hdata]
    · rw [hdata]
      exact hbelow
    · rw [hdata]

/-- Every call of a run sends the bytes that follow, or none. -/
theorem writeAll_spec {file : List UInt8} (calls : List Call) {b : FileBlock} (h : Within file b)
    (grown : List UInt8) :
    ∃ ws, writeAll (file ++ grown) b calls = .ok (ws, b.advance (ws.map Written.data).flatten) ∧
      ws.map Written.call = calls ∧ Next file b (ws.map Written.data).flatten ∧
      ∀ w ∈ ws, (Refused w ∨ Sent file w) ∧ ∃ data, w.before = b.advance data := by
  induction calls generalizing b grown with
  | nil => exact ⟨[], rfl, rfl, ⟨rfl, h.wrote_le⟩, fun w hw => absurd hw List.not_mem_nil⟩
  | cons call calls ih =>
    obtain ⟨w, hcall, hbefore, hwrite, hcases, hnext, hafter⟩ := first_call h grown call
    obtain ⟨ws, hrun, hcalls, hrest, hall⟩ := ih (h.advance hnext) (grown ++ call.more)
    rw [← List.append_assoc] at hrun
    refine ⟨w :: ws, ?_, ?_, ?_, ?_⟩
    · rw [writeAll, hwrite]
      change (writeAll (file ++ grown ++ call.more) w.after calls >>= _) = _
      rw [hafter, hrun, List.map_cons, List.flatten_cons, ← advance_advance, ← hafter]
      subst hcall hbefore
      rfl
    · rw [List.map_cons, hcall, hcalls]
    · exact hnext.append hrest
    · intro x hx
      rcases List.mem_cons.mp hx with rfl | hx
      · exact ⟨hcases, [], hbefore⟩
      · obtain ⟨hx, data, hwas⟩ := hall x hx
        exact ⟨hx, w.data ++ data, by rw [hwas, advance_advance]⟩

/-- Some call says that the block is complete if and only if it is. -/
theorem writeAll_complete {file : List UInt8} (calls : List Call) {b : FileBlock}
    (h : Within file b) (hwrote : b.wrote < b.length) (grown : List UInt8) {ws : List Written}
    {b' : FileBlock} (hrun : writeAll (file ++ grown) b calls = .ok (ws, b')) :
    (∃ w ∈ ws, w.returned = true) ↔ b'.wrote = b.length := by
  induction calls generalizing b grown ws with
  | nil =>
    obtain ⟨rfl, rfl⟩ := Prod.mk.inj (Except.ok.inj hrun)
    refine ⟨?_, fun hall => absurd hall (Nat.ne_of_lt hwrote)⟩
    rintro ⟨w, hw, -⟩
    exact absurd hw List.not_mem_nil
  | cons call calls ih =>
    obtain ⟨w, hcall, hbefore, hwrite, hcases, hnext, hafter⟩ := first_call h grown call
    obtain ⟨rest, hrest, -, hmore, -⟩ :=
      writeAll_spec calls (h.advance hnext) (grown ++ call.more)
    have hle := hmore.wrote_le
    rw [← List.append_assoc] at hrest
    have hlist : ws = w :: rest ∧
      b' = (b.advance w.data).advance (rest.map Written.data).flatten := by
      rw [writeAll, hwrite] at hrun
      change (writeAll (file ++ grown ++ call.more) w.after calls >>= _) = _ at hrun
      rw [hafter, hrest, ← hafter] at hrun
      subst hcall hbefore
      obtain ⟨hws, hb⟩ := Prod.mk.inj (Except.ok.inj hrun)
      rw [hafter] at hb
      exact ⟨hws.symm, hb.symm⟩
    obtain ⟨rfl, hb⟩ := hlist
    have hreturned : w.returned = true ↔ (b.advance w.data).wrote = b.length := by
      rcases hcases with hrefused | hsent
      · rw [hrefused.returned, hrefused.data]
        refine ⟨fun hno => absurd hno Bool.false_ne_true, fun hall => ?_⟩
        exact absurd hall (Nat.ne_of_lt hwrote)
      · rw [hsent.returned, hafter, decide_eq_true_eq]
        exact Iff.rfl
    by_cases hdone : (b.advance w.data).wrote = b.length
    · refine ⟨fun _ => ?_, fun _ => ⟨w, List.mem_cons_self, hreturned.mpr hdone⟩⟩
      have hlength : (b.advance w.data).length = b.length := rfl
      have hwas : b'.wrote = (b.advance w.data).wrote +
        (rest.map Written.data).flatten.length := by
        rw [hb]
        rfl
      omega
    · have hle' : (b.advance w.data).wrote ≤ b.length := (h.advance hnext).wrote_le
      have hstep := ih (h.advance hnext) (Nat.lt_of_le_of_ne hle' hdone) (grown ++ call.more)
        (by rw [← List.append_assoc, hb]; exact hrest)
      rw [List.exists_mem_cons_iff, hstep]
      exact or_iff_right fun hyes => hdone (hreturned.mp hyes)

/-- The frame of a block is well formed, and its factory takes it back. -/
theorem frameOf_spec (heap : Heap) (b : FileBlock) (data : List UInt8)
    (hfits : (frameOf b data).length ≤ MTU) :
    WellFramed heap (frameOf b data) ∧ ((∀ c ∈ b.filename, c ≠ 0) →
      ∃ offset, Frame heap (frameOf b data) (.fileBlock b.filename offset data)) := by
  have hmtu : MTU = 1200 := rfl
  have hheap := heap.room_ge
  have hlen : (frameOf b data).length = 3 + (header b ++ data).length := length_frame _ _
  refine ⟨Or.inr ?_, ?_⟩
  · obtain ⟨htype, hlength⟩ := frame_header .fileBlockMessage (header b ++ data) [] (by omega)
      (frameOf b data) (by omega) (by rw [List.append_nil]; exact List.prefix_rfl)
    have hkind : frameType (frameOf b data) = .fileBlockMessage := by
      rw [frameType, htype]
      rfl
    refine ⟨by rw [htype]; decide, Or.inl ⟨by omega, Or.inr ?_⟩⟩
    rw [hkind]
    trivial
  · intro hname
    obtain ⟨n, hn⟩ := getLong_append (b.offset + b.wrote)
    refine ⟨n, hfits, .fileBlockMessage, header b ++ data, rfl, ?_⟩
    have hsplit : header b ++ data =
        b.filename ++ 0 :: (longBytes 9 (b.offset + b.wrote) ++ data) := by
      rw [header, List.append_assoc, List.cons_append]
    have hroom : (header b ++ data).length ≤ heap.room := by omega
    rw [hsplit] at hlen hroom ⊢
    rw [create, createFileBlock, bind_ok (getString_append heap _ b.filename hname hroom),
      bind_ok (hn data), bind_ok (getFixedBytes_remaining heap ?_)]
    · rfl
    · simp only [List.length_append, List.length_cons] at hroom
      omega

/-- Whatever room the buffers have and however the file grows and is read, a
block of the bytes below EOF is sent in order and without a gap. -/
theorem block_streamed (heap : Heap) (filename : List UInt8) (offset length : ℕ)
    (file : List UInt8)
    (hlength : 0 < length) (hfile : offset + length ≤ file.length) (hlong : file.length < 2 ^ 63)
    (calls : List Call) :
    ∃ ws b, writeAll file (.ofFile filename offset length) calls = .ok (ws, b) ∧
      ws.map Written.call = calls ∧
      (∀ w ∈ ws,
        ((w.buff.position = w.call.buff.position ∧ w.after.wrote = w.before.wrote ∧
            w.returned = false) ∨
          (w.buff.written = w.call.buff.written ++ w.appended ∧
            w.appended = frame .fileBlockMessage
              (filename ++ 0 :: (longBytes 9 (offset + w.before.wrote) ++ w.data)) ∧
            WellFramed heap w.appended ∧
            ((∀ c ∈ filename, c ≠ 0) →
              ∃ n, Frame heap w.appended (.fileBlock filename n w.data)) ∧
            w.data = (file.drop (offset + w.before.wrote)).take w.data.length ∧
            w.after.wrote = w.before.wrote + w.data.length ∧
            (w.returned = true ↔ w.after.wrote = length))) ∧
        (w.before.wrote < length → (w.returned = true ↔ w.after.wrote = length))) ∧
      (ws.map Written.data).flatten = (file.drop offset).take b.wrote ∧ b.wrote ≤ length ∧
      ((∃ w ∈ ws, w.returned = true) ↔ b.wrote = length) := by
  have hwithin : Within file (.ofFile filename offset length) :=
    ⟨Nat.zero_le _, hfile, Nat.lt_of_le_of_lt hfile hlong⟩
  obtain ⟨ws, hrun, hcalls, hnext, hall⟩ := writeAll_spec calls hwithin []
  have hcomplete := writeAll_complete calls hwithin hlength [] hrun
  rw [List.append_nil] at hrun
  have hwrote : (FileBlock.advance (.ofFile filename offset length)
      (ws.map Written.data).flatten).wrote =
        (ws.map Written.data).flatten.length := Nat.zero_add _
  refine ⟨ws, _, hrun, hcalls, ?_, ?_, ?_, hcomplete⟩
  · intro w hw
    obtain ⟨hcases, data, hbefore⟩ := hall w hw
    have hname : w.before.filename = filename := by rw [hbefore]; rfl
    have hoffset : w.before.offset = offset := by rw [hbefore]; rfl
    have hsize : w.before.length = length := by rw [hbefore]; rfl
    rcases hcases with hrefused | hsent
    · refine ⟨Or.inl ⟨hrefused.position, by rw [hrefused.after], hrefused.returned⟩, ?_⟩
      intro hless
      rw [hrefused.returned, hrefused.after]
      exact ⟨fun hno => absurd hno Bool.false_ne_true, fun hall =>
        absurd hall (Nat.ne_of_lt hless)⟩
    · have happended := Written.appended_eq hsent.written
      have hreturned : w.returned = true ↔ w.after.wrote = length := by
        rw [hsent.returned, decide_eq_true_eq, ← hsize, hsent.after]
        exact Iff.rfl
      obtain ⟨hwell, hback⟩ := frameOf_spec heap w.before w.data hsent.fits
      refine ⟨Or.inr ⟨?_, ?_, ?_, ?_, ?_, ?_, hreturned⟩, fun _ => hreturned⟩
      · rw [happended]
        exact hsent.written
      · rw [happended, frameOf, header, hname, hoffset, List.append_assoc, List.cons_append]
      · rw [happended]
        exact hwell
      · rw [happended, ← hname]
        exact hback
      · rw [← hoffset]
        exact hsent.next.bytes
      · rw [hsent.after]
        rfl
  · rw [hwrote]
    exact hnext.bytes
  · exact (hwithin.advance hnext).wrote_le

def emptyBuffer (limit : ℕ) : ByteBuffer where
  bytes := List.replicate MTU 0
  position := 0
  limit := min limit MTU
  mark := none
  position_le := Nat.zero_le _
  limit_le := by rw [List.length_replicate]; exact Nat.min_le_right _ _

theorem capacity_emptyBuffer (limit : ℕ) : (emptyBuffer limit).capacity = MTU :=
  List.length_replicate

def fourCalls : List Call :=
  [⟨[], 0, emptyBuffer 6, capacity_emptyBuffer 6⟩,
    ⟨[9], 0, emptyBuffer 100, capacity_emptyBuffer 100⟩,
    ⟨[], 4, emptyBuffer 2, capacity_emptyBuffer 2⟩,
    ⟨[8, 7], 4, emptyBuffer 100, capacity_emptyBuffer 100⟩]

theorem block_streamed_four :
    (∃ ws b, writeAll [1, 2, 3, 4, 5] (.ofFile [97] 1 3) fourCalls = .ok (ws, b) ∧
      (ws.map Written.data).flatten = ([1, 2, 3, 4, 5].drop 1).take b.wrote) ∧
    (writeAll [1, 2, 3, 4, 5] (.ofFile [97] 1 3) fourCalls).toOption.map
        (fun r => (r.1.map Written.data, r.1.map Written.returned, r.2.wrote)) =
      some ([[], [2], [], [3, 4]], [false, false, false, true], 3) := by
  refine ⟨?_, by decide +kernel⟩
  obtain ⟨ws, b, hrun, -, -, hdata, -, -⟩ := block_streamed ⟨65536, Nat.le_refl _⟩ [97] 1 3
    [1, 2, 3, 4, 5] (by decide) (by decide) (by decide) fourCalls
  exact ⟨ws, b, hrun, hdata⟩

end Succinct.FileBlocks
