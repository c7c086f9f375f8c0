import Succinct.MessageFrames

/-!
Messages on a stream. A connection parses its read buffer after every read
and keeps what is left of it; however the stream is cut into reads, it
obtains the messages of the frames that were written, one after the other.
-/
namespace Succinct.MessageStream

open ByteBuffers Messages MessageFrames

def MTU : ℕ := 1200

inductive Thrown where
  | parsing (e : JavaException)
  -- IllegalStateException("Failed to empty read buffer")
  | notEmptied
  -- ProtocolException("Expected header")
  | expectedHeader
  -- createPeer makes no peer of the device's own id
  | nullPointer
  -- whatever process(peer) throws
  | processing
  deriving DecidableEq

/-- The device of a connection. Whether process throws on the i-th message of
the connection depends on the rest of the device. -/
structure Receiver where
  heap : Heap
  myId : PeerId
  throws : ℕ → Bool

/-- The state of a PeerConnection that matters to its reader, and the
messages that it has obtained. -/
structure Connection where
  readBuffer : ByteBuffer
  peer : Option PeerId
  received : List Message

def handle (r : Receiver) (i : ℕ) (peer : Option PeerId) : Message → Except Thrown (Option PeerId)
  | .header id _ _ =>
    match peer with
    | some known => .ok (some known)
    | none => if r.myId = id then .error .nullPointer else .ok (some id)
  | _ =>
    match peer with
    | none => .error .expectedHeader
    | some known => if r.throws i then .error .processing else .ok (some known)

/-- The loop of emptyReadBuffer; none when it has not ended. -/
def emptyReadBuffer (r : Receiver) : ℕ → Connection → Option (Except Thrown Unit × Connection)
  | 0, _ => none
  | fuel + 1, c =>
    match parseMessage r.heap c.readBuffer with
    | (.error e, buff) => some (.error (.parsing e), { c with readBuffer := buff })
    | (.ok none, buff) =>
      if buff.position = 0 ∧ buff.limit = buff.capacity then
        some (.error .notEmptied, { c with readBuffer := buff })
      else some (.ok (), { c with readBuffer := buff })
    | (.ok (some m), buff) =>
      match handle r c.received.length c.peer m with
      | .error e =>
        some (.error e, { c with readBuffer := buff, received := c.received ++ [m] })
      | .ok peer => emptyReadBuffer r fuel ⟨buff, peer, c.received ++ [m]⟩

def read (r : Receiver) (c : Connection) (bytes : List UInt8) :
    Option (Except Thrown Unit × Connection) := do
  let buff ← c.readBuffer.put bytes
  let (result, c) ← emptyReadBuffer r (buff.position + 1) { c with readBuffer := buff.flip }
  match result with
  | .error e => some (.error e, c)
  | .ok () => some (.ok (), { c with readBuffer := c.readBuffer.compact })

def connect (peer : Option PeerId) : Connection :=
  { readBuffer := ByteBuffer.wrap (List.replicate MTU 0), peer := peer, received := [] }

def handleAll (r : Receiver) : ℕ → Option PeerId → List Message →
    List Message × Except Thrown (Option PeerId)
  | _, peer, [] => ([], .ok peer)
  | i, peer, m :: ms =>
    match handle r i peer m with
    | .error e => ([m], .error e)
    | .ok peer =>
      let (obtained, ending) := handleAll r (i + 1) peer ms
      (m :: obtained, ending)

/-- Messages behind others are handled with the peer that these have left. -/
theorem handleAll_append {r : Receiver} (ms ms' : List Message) {i : ℕ}
    {peer after : Option PeerId} (h : handleAll r i peer ms = (ms, .ok after)) :
    handleAll r i peer (ms ++ ms') = (ms ++ (handleAll r (i + ms.length) after ms').1,
      (handleAll r (i + ms.length) after ms').2) := by
  induction ms generalizing i peer with
  | nil =>
    cases h
    rfl
  | cons m ms ih =>
    rw [handleAll] at h
    rw [List.cons_append, handleAll]
    cases hone : handle r i peer m with
    | error e =>
      rw [hone] at h
      cases h
    | ok known =>
      rw [hone] at h
      obtain ⟨hobtained, hending⟩ := Prod.mk.inj h
      have hrest : handleAll r (i + 1) known ms = (ms, .ok after) :=
        Prod.ext (List.cons.inj hobtained).2 hending
      simp only [ih hrest, List.length_cons, List.cons_append]
      rw [Nat.add_assoc, Nat.add_comm 1]

section Undisturbed

variable {r : Receiver} (hquiet : ∀ i, r.throws i = false)

include hquiet

end Undisturbed

structure Frame (heap : Heap) (f : List UInt8) (m : Message) : Prop where
  fits : f.length ≤ MTU
  body : ∃ type body, f = frame type body ∧ create heap type body = (.ok m, [])

theorem length_frame (type : MessageType) (body : List UInt8) :
    (frame type body).length = 3 + body.length := by
  simp [frame]
  omega

theorem ordinal_lt (type : MessageType) : type.ordinal < types.length := by
  cases type <;> decide

theorem types_ordinal (type : MessageType) : types.getD type.ordinal .stunMessage = type := by
  cases type <;> rfl

theorem ordinal_toNat (type : MessageType) : (UInt8.ofNat type.ordinal).toNat = type.ordinal := by
  have hlt := ordinal_lt type
  have hnine : types.length = 9 := rfl
  rw [UInt8.toNat_ofNat']
  omega

/-- The header of a frame is read from its first bytes. -/
theorem frame_header (type : MessageType) (body rest : List UInt8)
    (hsmall : body.length < 0x10000)
    (s : List UInt8) (hs : 3 ≤ s.length) (hpre : s <+: frame type body ++ rest) :
    (s.getD 0 0).toNat = type.ordinal ∧ frameLength s = 3 + body.length := by
  obtain ⟨tail, htail⟩ := hpre
  rcases s with _ | ⟨a, _ | ⟨b, _ | ⟨c, s⟩⟩⟩
  · exact absurd hs (by simp)
  · exact absurd hs (by simp)
  · exact absurd hs (by simp)
  · have hlist : frame type body ++ rest = UInt8.ofNat type.ordinal ::
        UInt8.ofNat (body.length / 256 ^ 1) :: UInt8.ofNat (body.length / 256 ^ 0) ::
          (body ++ rest) := rfl
    rw [hlist] at htail
    simp only [List.cons_append, List.cons.injEq] at htail
    obtain ⟨rfl, rfl, rfl, -⟩ := htail
    refine ⟨ordinal_toNat type, ?_⟩
    have htwo : ofBigEndian (bigEndian 2 body.length) = body.length % 256 ^ 2 :=
      ofBigEndian_bigEndian 2 body.length
    rw [Nat.mod_eq_of_lt (by omega)] at htwo
    exact congrArg (3 + ·) htwo

/-- A frame at the position of a buffer is taken. -/
theorem parse_frame {heap : Heap} {type : MessageType} {body rest : List UInt8} {m : Message}
    (hsmall : body.length < 0x8000) (hcreate : create heap type body = (.ok m, []))
    (buff : ByteBuffer) (hslice : buff.slice = frame type body ++ rest) :
    ∃ after, parseMessage heap buff = (.ok (some m), after) ∧ after.bytes = buff.bytes ∧
      after.limit = buff.limit ∧ after.position = buff.position + (frame type body).length := by
  have hlen := length_slice buff
  have hbody := length_frame type body
  rw [hslice, List.length_append] at hlen
  obtain ⟨htype, hframe⟩ := frame_header type body rest (by omega) buff.slice
    (by rw [hslice, List.length_append]; omega) (by rw [hslice])
  have hsame : frameType buff.slice = type := by
    rw [frameType, htype, types_ordinal]
  have hcontent : frameBody buff.slice = body := by
    have hdrop : buff.slice.drop 3 = body ++ rest := by
      rw [hslice]
      rfl
    rw [frameBody, hframe, hdrop, Nat.add_sub_cancel_left, List.take_left]
  obtain ⟨after, hparse, hbytes, hlimit, hposition⟩ := parseMessage_whole heap buff (by omega)
    (by rw [htype]; exact ordinal_lt type) (by omega) (by omega)
  rw [hsame, hcontent, hcreate] at hparse hposition
  refine ⟨after, hparse, hbytes, hlimit, ?_⟩
  rw [hposition, hframe, hbody]
  rfl

section Reading

variable {heap : Heap} {f : List UInt8} {m : Message} (hf : Frame heap f m)

include hf

theorem Frame.length_ge : 3 ≤ f.length := by
  obtain ⟨type, body, rfl, -⟩ := hf.body
  rw [length_frame]
  omega

/-- The first frame of a buffer is taken. -/
theorem Frame.parse (buff : ByteBuffer) (rest : List UInt8) (hslice : buff.slice = f ++ rest) :
    ∃ after, parseMessage heap buff = (.ok (some m), after) ∧ after.bytes = buff.bytes ∧
      after.limit = buff.limit ∧ after.position = buff.position + f.length := by
  have hfits : f.length ≤ 1200 := hf.fits
  obtain ⟨type, body, rfl, hcreate⟩ := hf.body
  have hbody := length_frame type body
  exact parse_frame (by omega) hcreate buff hslice

/-- Part of a frame is left for later. -/
theorem Frame.wait (buff : ByteBuffer) (hpre : buff.slice <+: f)
    (hshort : buff.slice.length < f.length) :
    ∃ after, parseMessage heap buff = (.ok none, after) ∧ after.bytes = buff.bytes ∧
      after.limit = buff.limit ∧ after.position = buff.position := by
  have hfits : f.length ≤ 1200 := hf.fits
  have hlen := length_slice buff
  by_cases hfew : buff.remaining < 3
  · exact ⟨buff, if_pos hfew, rfl, rfl, rfl⟩
  · obtain ⟨type, body, rfl, -⟩ := hf.body
    have hbody := length_frame type body
    obtain ⟨htype, hframe⟩ := frame_header type body [] (by omega) buff.slice (by omega)
      (by rwa [List.append_nil])
    exact parseMessage_wait heap buff (by omega) (by rw [htype]; exact ordinal_lt type) (by omega)
      (by omega)

end Reading

def Frames (heap : Heap) (fs : List (List UInt8 × Message)) : Prop := ∀ p ∈ fs, Frame heap p.1 p.2

def bytesOf (fs : List (List UInt8 × Message)) : List UInt8 := (fs.map Prod.fst).flatten

def messagesOf (fs : List (List UInt8 × Message)) : List Message := fs.map Prod.snd

def CutShort (fs : List (List UInt8 × Message)) (s : List UInt8) : Prop :=
  ∀ p ∈ fs.head?, s.length < p.1.length

/-- A connection has obtained the first frames of a sequence, and handled
them up to its result. -/
structure Obtains (r : Receiver) (fs : List (List UInt8 × Message)) (c : Connection) (k : ℕ)
    (result : Except Thrown Unit) (c' : Connection) : Prop where
  received : c'.received = c.received ++ messagesOf (fs.take k)
  handled : handleAll r c.received.length c.peer (messagesOf (fs.take k)) =
    (messagesOf (fs.take k), result.map fun _ => c'.peer)

/-- Nothing has been obtained yet. -/
theorem Obtains.nothing (r : Receiver) (fs : List (List UInt8 × Message)) (c : Connection)
    (buff : ByteBuffer) : Obtains r fs c 0 (.ok ()) { c with readBuffer := buff } where
  received := (List.append_nil _).symm
  handled := rfl

/-- More frames are obtained behind those before. -/
theorem Obtains.trans {r : Receiver} {fs : List (List UInt8 × Message)} {c c' c'' : Connection}
    {k k' : ℕ} {result : Except Thrown Unit} (h : Obtains r fs c k (.ok ()) c')
    (h' : Obtains r (fs.drop k) c' k' result c'') : Obtains r fs c (k + k') result c'' := by
  have hsplit : messagesOf (fs.take (k + k')) =
      messagesOf (fs.take k) ++ messagesOf ((fs.drop k).take k') := by
    rw [List.take_add, messagesOf, messagesOf, messagesOf, List.map_append]
  have hlength : c'.received.length = c.received.length + (messagesOf (fs.take k)).length := by
    rw [h.received, List.length_append]
  have hrest := h'.handled
  rw [hlength] at hrest
  constructor
  · rw [h'.received, h.received, List.append_assoc, hsplit]
  · rw [hsplit, handleAll_append _ _ h.handled, hrest]

/-- The first frame of the buffer is handled before the others. -/
theorem Obtains.cons {r : Receiver} {f : List UInt8} {m : Message}
    {fs : List (List UInt8 × Message)} {c c' : Connection} {buff : ByteBuffer}
    {peer : Option PeerId} {k : ℕ} {result : Except Thrown Unit}
    (hhandle : handle r c.received.length c.peer m = .ok peer)
    (h : Obtains r fs ⟨buff, peer, c.received ++ [m]⟩ k result c') :
    Obtains r ((f, m) :: fs) c (1 + k) result c' := by
  have hfirst : Obtains r ((f, m) :: fs) c 1 (.ok ()) ⟨buff, peer, c.received ++ [m]⟩ := by
    refine ⟨rfl, ?_⟩
    change handleAll r c.received.length c.peer [m] = _
    rw [handleAll, hhandle]
    rfl
  exact hfirst.trans h

/-- Whole frames are taken from a read buffer, until part of one is left or
the handling of a message throws; rest is what has not been read yet. -/
def Emptied (r : Receiver) (fuel : ℕ) (fs : List (List UInt8 × Message)) (c : Connection)
    (rest : List UInt8) : Prop :=
  ∃ k result c', emptyReadBuffer r fuel c = some (result, c') ∧ Obtains r fs c k result c' ∧
    c'.readBuffer.capacity = MTU ∧ c'.readBuffer.slice ++ rest = bytesOf (fs.drop k) ∧
    (result = .ok () → CutShort (fs.drop k) c'.readBuffer.slice)

theorem slice_moved {b after : ByteBuffer} {n : ℕ} (hsame : after.bytes = b.bytes)
    (hlimit : after.limit = b.limit) (hposition : after.position = b.position + n) :
    after.slice = b.slice.drop n := by
  rw [ByteBuffer.slice, ByteBuffer.slice, ByteBuffer.remaining, ByteBuffer.remaining, hsame,
    hlimit, hposition, List.drop_take, List.drop_drop, Nat.sub_sub]

section Turns

variable {r : Receiver} {fuel : ℕ} {fs : List (List UInt8 × Message)} {c : Connection}
    {rest : List UInt8} {after : ByteBuffer}

/-- The parser waits for more bytes, for which there is room. -/
theorem emptied_waits (hcap : c.readBuffer.capacity = MTU)
    (hbytes : c.readBuffer.slice ++ rest = bytesOf fs)
    (hparse : parseMessage r.heap c.readBuffer = (.ok none, after))
    (hsame : after.bytes = c.readBuffer.bytes) (hlimit : after.limit = c.readBuffer.limit)
    (hposition : after.position = c.readBuffer.position) (hroom : c.readBuffer.remaining < MTU)
    (hcut : CutShort fs c.readBuffer.slice) : Emptied r (fuel + 1) fs c rest := by
  have hcap' : after.capacity = MTU := (congrArg List.length hsame).trans hcap
  have hslice : after.slice = c.readBuffer.slice := slice_moved (n := 0) hsame hlimit hposition
  have hok : ¬ (after.position = 0 ∧ after.limit = after.capacity) := by
    rintro ⟨hzero, hfull⟩
    have hrem : c.readBuffer.remaining = c.readBuffer.limit - c.readBuffer.position := rfl
    omega
  refine ⟨0, .ok (), { c with readBuffer := after }, ?_, Obtains.nothing r fs c after, hcap',
    ?_, ?_⟩
  · rw [emptyReadBuffer, hparse]
    simp only [if_neg hok]
  · simp only [hslice]
    exact hbytes
  · intro _
    simp only [hslice]
    exact hcut

/-- A message is obtained, and the next turn goes on if it could be handled. -/
theorem emptied_turn {p : List UInt8 × Message} (hcap : after.capacity = MTU)
    (hparse : parseMessage r.heap c.readBuffer = (.ok (some p.2), after))
    (hbytes : after.slice ++ rest = bytesOf fs)
    (hnext : ∀ peer, Emptied r fuel fs ⟨after, peer, c.received ++ [p.2]⟩ rest) :
    Emptied r (fuel + 1) (p :: fs) c rest := by
  cases hhandle : handle r c.received.length c.peer p.2 with
  | error e =>
    refine ⟨1, .error e, { c with readBuffer := after, received := c.received ++ [p.2] }, ?_,
      ⟨rfl, ?_⟩, hcap, hbytes, fun hno => by cases hno⟩
    · rw [emptyReadBuffer, hparse]
      simp only [hhandle]
    · change handleAll r c.received.length c.peer [p.2] = _
      rw [handleAll, hhandle]
      rfl
  | ok peer =>
    have hgo : emptyReadBuffer r (fuel + 1) c =
        emptyReadBuffer r fuel ⟨after, peer, c.received ++ [p.2]⟩ := by
      rw [emptyReadBuffer, hparse]
      simp only [hhandle]
    have hdrop : ∀ k, (p :: fs).drop (1 + k) = fs.drop k := fun k => by
      rw [Nat.add_comm, List.drop_succ_cons]
    obtain ⟨k, result, c', hrun, hobtains, hcap', hbytes', hcut⟩ := hnext peer
    refine ⟨1 + k, result, c', hgo.trans hrun, hobtains.cons hhandle, hcap', ?_, ?_⟩
    · rw [hdrop]
      exact hbytes'
    · rw [hdrop]
      exact hcut

end Turns

theorem emptyReadBuffer_spec {r : Receiver} (fuel : ℕ) (fs : List (List UInt8 × Message))
    (hfs : Frames r.heap fs) (c : Connection) (hcap : c.readBuffer.capacity = MTU)
    (hfuel : c.readBuffer.remaining < fuel) (rest : List UInt8)
    (hbytes : c.readBuffer.slice ++ rest = bytesOf fs) : Emptied r fuel fs c rest := by
  induction fuel generalizing fs c with
  | zero => omega
  | succ fuel ih =>
    have hlen := length_slice c.readBuffer
    have hrem : c.readBuffer.remaining = c.readBuffer.limit - c.readBuffer.position := rfl
    cases fs with
    | nil =>
      have hnil : c.readBuffer.slice = [] := (List.append_eq_nil_iff.mp hbytes).1
      rw [hnil] at hlen
      have hzero : c.readBuffer.remaining = 0 := hlen.symm
      exact emptied_waits hcap hbytes (if_pos (by omega)) rfl rfl rfl
        (by change _ < 1200; omega) (fun p hp => absurd hp (by simp))
    | cons p fs =>
      have hframe := hfs p (List.mem_cons_self)
      have hfits := hframe.fits
      have hcons : bytesOf (p :: fs) = p.1 ++ bytesOf fs := rfl
      have hbuffer : c.readBuffer.slice <+: p.1 ++ bytesOf fs :=
        ⟨rest, hbytes.trans hcons⟩
      by_cases hshort : c.readBuffer.slice.length < p.1.length
      · have hpre : c.readBuffer.slice <+: p.1 :=
          List.prefix_of_prefix_length_le hbuffer (List.prefix_append _ _)
            (Nat.le_of_lt hshort)
        obtain ⟨after, hparse, hsame, hlimit, hposition⟩ := hframe.wait c.readBuffer hpre hshort
        apply emptied_waits hcap hbytes hparse hsame hlimit hposition (by omega)
        intro q hq
        obtain rfl : p = q := Option.some.inj hq
        exact hshort
      · obtain ⟨tail, htail⟩ : p.1 <+: c.readBuffer.slice :=
          List.prefix_of_prefix_length_le (List.prefix_append _ _) hbuffer
            (Nat.le_of_not_lt hshort)
        have hthree := hframe.length_ge
        obtain ⟨after, hparse, hsame, hlimit, hposition⟩ :=
          hframe.parse c.readBuffer tail htail.symm
        have hcap' : after.capacity = MTU := (congrArg List.length hsame).trans hcap
        have hslice : after.slice = tail := by
          rw [slice_moved hsame hlimit hposition, ← htail, List.drop_left]
        have hrest : after.slice ++ rest = bytesOf fs := by
          rw [hslice]
          rw [hcons, ← htail, List.append_assoc] at hbytes
          exact List.append_cancel_left hbytes
        have hless : after.remaining < fuel := by
          change after.limit - after.position < fuel
          omega
        exact emptied_turn hcap' hparse hrest fun peer =>
          ih fs (fun q hq => hfs q (List.mem_cons_of_mem _ hq)) ⟨after, peer, _⟩ hcap' hless hrest

theorem compact_spec (b : ByteBuffer) :
    b.compact.written = b.slice ∧ b.compact.position = b.remaining ∧
      b.compact.limit = b.capacity ∧ b.compact.capacity = b.capacity := by
  have hlen := length_slice b
  have hcap : b.compact.capacity = b.capacity := by
    have hrem : b.remaining = b.limit - b.position := rfl
    have hlim := b.limit_le
    apply ByteBuffer.length_overwrite
    simp only [List.length_take, List.length_drop]
    omega
  refine ⟨?_, rfl, rfl, hcap⟩
  have hwritten : b.compact.written =
    (b.slice ++ b.bytes.drop (0 + b.slice.length)).take b.remaining :=
    rfl
  rw [hwritten, ← hlen, List.take_left]

theorem flip_slice (b : ByteBuffer) : b.flip.slice = b.written := rfl

/-- Between two reads: part of the next frame is kept, and there is room. -/
structure Waiting (fs : List (List UInt8 × Message)) (c : Connection) : Prop where
  capacity : c.readBuffer.capacity = MTU
  limit : c.readBuffer.limit = MTU
  cutShort : CutShort fs c.readBuffer.written

/-- The bytes that a connection has read and not parsed. A read that throws
leaves before compact. -/
def Connection.unread (result : Except Thrown Unit) (c : Connection) : List UInt8 :=
  match result with
  | .ok () => c.readBuffer.written
  | .error _ => c.readBuffer.slice

/-- One read takes the frames that are complete with it. -/
theorem read_spec {r : Receiver} {fs : List (List UInt8 × Message)} (hfs : Frames r.heap fs)
    {c : Connection} (h : Waiting fs c) (chunk rest : List UInt8)
    (hroom : chunk.length ≤ c.readBuffer.remaining)
    (hbytes : c.readBuffer.written ++ chunk ++ rest = bytesOf fs) :
    ∃ k result c', read r c chunk = some (result, c') ∧ Obtains r fs c k result c' ∧
      c'.unread result ++ rest = bytesOf (fs.drop k) ∧
      (result = .ok () → Waiting (fs.drop k) c') := by
  obtain ⟨b, hput, hposition, -, hcap, hwritten⟩ := c.readBuffer.put_spec chunk hroom
  have hb : b.capacity = MTU := hcap.trans h.capacity
  obtain ⟨k, result, c', hrun, hobtains, hcap', hslice, hcut⟩ := emptyReadBuffer_spec (r := r)
    (b.position + 1) fs hfs { c with readBuffer := b.flip } hb
    (by change b.position - 0 < _; omega) rest (by rw [flip_slice, hwritten]; exact hbytes)
  cases result with
  | error e =>
    refine ⟨k, .error e, c', ?_, ⟨hobtains.received, hobtains.handled⟩, hslice,
      fun hno => by cases hno⟩
    rw [read, hput]
    simp only [Option.bind_eq_bind, Option.bind_some, hrun]
  | ok =>
    obtain ⟨hcompact, -, hlimit, hcapacity⟩ := compact_spec c'.readBuffer
    refine ⟨k, .ok (), { c' with readBuffer := c'.readBuffer.compact }, ?_,
      ⟨hobtains.received, hobtains.handled⟩, ?_, ?_⟩
    · rw [read, hput]
      simp only [Option.bind_eq_bind, Option.bind_some, hrun]
    · rw [Connection.unread, hcompact]
      exact hslice
    · intro _
      refine ⟨hcapacity.trans hcap', hlimit.trans hcap', ?_⟩
      rw [hcompact]
      exact hcut rfl

end Succinct.MessageStream
