import Succinct.MessageRoundTrip

/-!
The datagrams of Networks.java. They are written message by message into one buffer; a
message that finds no room there leaves nothing behind, and each of the others is read back
as its factory makes it.
-/
namespace Succinct.Datagrams

open ByteBuffers Messages MessageFrames MessageStream MessageWrites MessageRoundTrip

/-- The size of a datagram's buffer, which is larger than that of a connection. -/
def MTU : ℕ := 1400

def emptyBuffer : ByteBuffer := ByteBuffer.wrap (List.replicate MTU 0)

def writeAll (buff : ByteBuffer) (messages : List Message) : ByteBuffer :=
  messages.foldl (fun buff m => (write buff m).2) buff

def assemble (messages : List Message) : List UInt8 := (writeAll emptyBuffer messages).flip.slice

/-- The messages that process takes from a datagram, until one is null or throws. -/
def parseAll (heap : Heap) : ℕ → ByteBuffer → List Message
  | 0, _ => []
  | fuel + 1, buff =>
    if !buff.hasRemaining then []
    else
      match parseMessage heap buff with
      | (.ok (some m), buff) => m :: parseAll heap fuel buff
      | _ => []

def messagesIn (heap : Heap) (bytes : List UInt8) : List Message :=
  parseAll heap (bytes.length + 1) (ByteBuffer.wrap bytes)

inductive Reads (heap : Heap) : List UInt8 → List Message → Prop where
  | nil : Reads heap [] []
  | cons {type : MessageType} {body rest : List UInt8} {m : Message} {messages : List Message}
      (hsmall : body.length < 0x8000) (hcreate : create heap type body = (.ok m, []))
      (hrest : Reads heap rest messages) : Reads heap (frame type body ++ rest) (m :: messages)

variable {heap : Heap}

theorem Reads.append {bytes bytes' : List UInt8} {messages messages' : List Message}
    (h : Reads heap bytes messages)
    (h' : Reads heap bytes' messages') :
    Reads heap (bytes ++ bytes') (messages ++ messages') := by
  induction h with
  | nil => exact h'
  | cons hsmall hcreate _ ih =>
    rw [List.append_assoc]
    exact .cons hsmall hcreate ih

theorem parseAll_reads {bytes : List UInt8} {messages : List Message}
    (h : Reads heap bytes messages) (fuel : ℕ)
    (buff : ByteBuffer) (hslice : buff.slice = bytes) (hfuel : bytes.length < fuel) :
    parseAll heap fuel buff = messages := by
  induction h generalizing fuel buff with
  | nil =>
    obtain ⟨fuel, rfl⟩ : ∃ k, fuel = k + 1 := ⟨fuel - 1, by omega⟩
    have hlen := length_slice buff
    rw [hslice] at hlen
    have hnone : buff.hasRemaining = false := by
      rw [ByteBuffer.hasRemaining, decide_eq_false_iff_not]
      have hrem : buff.remaining = buff.limit - buff.position := rfl
      rw [List.length_nil] at hlen
      omega
    rw [parseAll, hnone]
    rfl
  | @cons type body rest m messages hsmall hcreate _ ih =>
    obtain ⟨fuel, rfl⟩ : ∃ k, fuel = k + 1 := ⟨fuel - 1, by omega⟩
    have hlen := length_slice buff
    have hbody := length_frame type body
    rw [hslice, List.length_append] at hlen
    rw [List.length_append] at hfuel
    have hsome : buff.hasRemaining = true := by
      rw [ByteBuffer.hasRemaining, decide_eq_true_eq]
      have hrem : buff.remaining = buff.limit - buff.position := rfl
      omega
    obtain ⟨after, hparse, hbytes, hlimit, hposition⟩ := parse_frame hsmall hcreate buff hslice
    have hrest : after.slice = rest := by
      rw [slice_moved hbytes hlimit hposition, hslice, List.drop_left]
    rw [parseAll, hsome, Bool.not_true, if_neg Bool.false_ne_true, hparse]
    dsimp only
    rw [ih fuel after hrest (by omega)]

theorem messagesIn_reads {bytes : List UInt8} {messages : List Message}
    (h : Reads heap bytes messages) :
    messagesIn heap bytes = messages :=
  parseAll_reads h _ _ (slice_wrap bytes) (Nat.lt_succ_self _)

def OfHeartbeat : Message → Prop
  | .header _ _ _ => True
  | .ack _ => True
  | .storeState _ _ => True
  | _ => False

theorem create_ofHeartbeat {m : Message} (hm : OfHeartbeat m) {room : ℕ} {body : List UInt8}
    (h : serialise room m = some body) :
    create heap m.type body = (.ok (received room m), []) := by
  cases m with
  | header id unicast seq => exact creates_header h
  | ack links =>
    obtain ⟨tail, rfl, -, htail⟩ := creates_links links h
    exact htail _ _ (Nat.lt_succ_self _)
  | storeState teamId key => exact creates_storeState h
  | _ => exact hm.elim

/-- A message is written behind what is there, or nothing is. -/
theorem write_cases (buff : ByteBuffer) (m : Message) :
    (write buff m).2.limit = buff.limit ∧ (write buff m).2.capacity = buff.capacity ∧
      ((write buff m).2.written = buff.written ∨ ∃ body, 3 ≤ buff.remaining ∧
        serialise (buff.remaining - 3) m = some body ∧
        (write buff m).2.written = buff.written ++ frame m.type body) := by
  by_cases hfew : buff.remaining < 3
  · rw [write, if_pos hfew]
    exact ⟨rfl, rfl, Or.inl rfl⟩
  · cases hbody : serialise (buff.remaining - 3) m with
    | none =>
      have hwrite : write buff m = (false, buff.setMark) := by
        simp only [write, if_neg hfew, hbody]
      rw [hwrite]
      exact ⟨rfl, rfl, Or.inl rfl⟩
    | some body =>
      by_cases hfits : (frame m.type body).length ≤ buff.setMark.remaining
      · obtain ⟨after, hput, -, hlimit, hcapacity, hwritten⟩ :=
          buff.setMark.put_spec (frame m.type body) hfits
        have hwrite : (write buff m).2 = after := by simp only [write, if_neg hfew, hbody, hput]
        rw [hwrite]
        exact ⟨hlimit, hcapacity, Or.inr ⟨body, by omega, rfl, hwritten⟩⟩
      · have hput : buff.setMark.put (frame m.type body) = none := dif_neg hfits
        have hwrite : write buff m = (false, buff.setMark) := by
          simp only [write, if_neg hfew, hbody, hput]
        rw [hwrite]
        exact ⟨rfl, rfl, Or.inl rfl⟩

/-- A body that fits in the buffer is written. -/
theorem write_fits (buff : ByteBuffer) {m : Message} {body : List UInt8}
    (hthree : 3 ≤ buff.remaining)
    (hbody : serialise (buff.remaining - 3) m = some body)
    (hfits : body.length ≤ buff.remaining - 3) :
    (write buff m).2.written = buff.written ++ frame m.type body ∧
      (write buff m).2.position = buff.position + (3 + body.length) := by
  have hlen := length_frame m.type body
  have hroom : (frame m.type body).length ≤ buff.setMark.remaining := by
    change _ ≤ buff.remaining
    omega
  obtain ⟨after, hput, hposition, -, -, hwritten⟩ :=
    buff.setMark.put_spec (frame m.type body) hroom
  have hwrite : (write buff m).2 = after := by
    simp only [write, if_neg (not_lt.mpr hthree), hbody, hput]
  rw [hwrite, hposition, hlen]
  exact ⟨hwritten, rfl⟩

/-- What the buffer holds are the messages from before, and of the new ones those with room. -/
theorem writeAll_reads (messages : List Message) (hmessages : ∀ m ∈ messages, OfHeartbeat m)
    (buff : ByteBuffer)
    (hcapacity : buff.capacity = MTU) {before : List Message}
    (h : Reads heap buff.written before) :
    ∃ after, Reads heap (writeAll buff messages).written (before ++ after) ∧
      ∀ m' ∈ after, ∃ m ∈ messages, ∃ room, m' = received room m := by
  induction messages generalizing buff before with
  | nil => exact ⟨[], by rwa [List.append_nil], by simp⟩
  | cons m rest ih =>
    have hrest := ih fun x hx => hmessages x (List.mem_cons_of_mem _ hx)
    obtain ⟨-, hcap, hwrite⟩ := write_cases buff m
    rw [hcapacity] at hcap
    rcases hwrite with hsame | ⟨body, -, hbody, hwritten⟩
    · obtain ⟨after, hreads, hfrom⟩ := hrest (write buff m).2 hcap (by rwa [hsame])
      exact ⟨after, hreads, fun m' hm' => (hfrom m' hm').imp fun x hx =>
        ⟨List.mem_cons_of_mem _ hx.1, hx.2⟩⟩
    · have hsmall : body.length < 0x8000 := by
        have hlen := congrArg List.length hwritten
        have hlimit := (write buff m).2.limit_le
        have hposition := (write buff m).2.position_le
        have hall : (write buff m).2.bytes.length = 1400 := hcap
        rw [ByteBuffer.length_written, List.length_append, length_frame] at hlen
        omega
      have hone : Reads heap (frame m.type body) [received (buff.remaining - 3) m] := by
        have hcons : Reads heap (frame m.type body ++ []) [received (buff.remaining - 3) m] :=
          .cons hsmall (create_ofHeartbeat (hmessages m (List.mem_cons_self ..)) hbody) .nil
        rwa [List.append_nil] at hcons
      obtain ⟨after, hreads, hfrom⟩ :=
        hrest (write buff m).2 hcap (by rw [hwritten]; exact h.append hone)
      refine ⟨received (buff.remaining - 3) m :: after, by rwa [List.append_assoc] at hreads, ?_⟩
      intro m' hm'
      rcases List.mem_cons.mp hm' with rfl | hm'
      · exact ⟨m, List.mem_cons_self .., _, rfl⟩
      · exact (hfrom m' hm').imp fun x hx => ⟨List.mem_cons_of_mem _ hx.1, hx.2⟩

theorem put_fits {room : ℕ} {src out : List UInt8} (h : out.length + src.length ≤ room) :
    put room src out = some (out ++ src) := if_pos h

/-- A header that carries a number. -/
theorem serialise_header {room : ℕ} (id : PeerId) (unicast : Bool) {seq : ℤ} (hseq : 0 ≤ seq)
    (hroom : 11 ≤ room) :
    ∃ body, serialise room (.header id unicast seq) = some body ∧ body.length = 11 := by
  refine ⟨[] ++ List.ofFn id ++ [if unicast then 1 else 0] ++ bigEndian 2 seq.toNat, ?_, by simp⟩
  simp only [serialise, putId, putSeq, if_pos hseq, Option.bind_eq_bind]
  rw [put_fits (by simp; omega), Option.bind_some, put_fits (by simp; omega), Option.bind_some,
    put_fits (by simp; omega)]

theorem emptyBuffer_remaining : emptyBuffer.remaining = MTU := by
  have hwrap : ∀ bytes, (ByteBuffer.wrap bytes).remaining = bytes.length :=
    fun bytes => Nat.sub_zero _
  rw [emptyBuffer, hwrap, List.length_replicate]

theorem emptyBuffer_capacity : emptyBuffer.capacity = MTU := by
  have hwrap : ∀ bytes, (ByteBuffer.wrap bytes).capacity = bytes.length := fun bytes => rfl
  rw [emptyBuffer, hwrap, List.length_replicate]

theorem emptyBuffer_limit : emptyBuffer.limit = MTU := by
  have hwrap : ∀ bytes, (ByteBuffer.wrap bytes).limit = bytes.length := fun bytes => rfl
  rw [emptyBuffer, hwrap, List.length_replicate]

theorem emptyBuffer_written : emptyBuffer.written = [] := List.take_zero

/-- The header at the front of a datagram has room in it. -/
theorem write_header (id : PeerId) (unicast : Bool) {seq : ℤ} (hmin : 0 ≤ seq)
    (hmax : seq < 0x10000) :
    Reads heap (write emptyBuffer (.header id unicast seq)).2.written [.header id unicast seq] ∧
      (write emptyBuffer (.header id unicast seq)).2.position = 14 := by
  have hroom := emptyBuffer_remaining
  have hmtu : MTU = 1400 := rfl
  generalize hbuff : emptyBuffer = buff at *
  obtain ⟨body, hbody, hlength⟩ :=
    @serialise_header (buff.remaining - 3) id unicast _ hmin (by omega)
  obtain ⟨hwritten, hposition⟩ := write_fits buff (by omega) hbody (by omega)
  have hcreate := @create_ofHeartbeat heap (.header id unicast seq) trivial _ _ hbody
  have hreceived : received (buff.remaining - 3) (.header id unicast seq) =
    .header id unicast seq := by
    rw [received, if_pos hmin]
    congr 1
    omega
  rw [hreceived] at hcreate
  have hreads : Reads heap (frame .headerMessage body ++ []) [.header id unicast seq] :=
    .cons (by omega) hcreate .nil
  have hstart : buff.written = [] ∧ buff.position = 0 := by
    rw [← hbuff]
    exact ⟨emptyBuffer_written, rfl⟩
  rw [hstart.1] at hwritten
  rw [hstart.2, hlength] at hposition
  rw [List.append_nil] at hreads
  refine ⟨?_, hposition⟩
  rw [hwritten]
  exact hreads

theorem writeAll_capacity (messages : List Message) (buff : ByteBuffer) :
    (writeAll buff messages).capacity = buff.capacity := by
  induction messages generalizing buff with
  | nil => rfl
  | cons m rest ih => exact (ih _).trans (write_cases buff m).2.1

theorem length_assemble (messages : List Message) : (assemble messages).length ≤ MTU := by
  have hposition := (writeAll emptyBuffer messages).position_le
  have hlimit := (writeAll emptyBuffer messages).limit_le
  have hcapacity : (writeAll emptyBuffer messages).bytes.length = MTU :=
    (writeAll_capacity messages emptyBuffer).trans emptyBuffer_capacity
  rw [assemble, flip_slice, ByteBuffer.length_written]
  omega

theorem assemble_cons (m : Message) (rest : List Message) :
    assemble (m :: rest) = (writeAll (write emptyBuffer m).2 rest).written := by
  rw [assemble, flip_slice, writeAll, List.foldl_cons]
  rfl

/-- A datagram begins with its header; of the other messages, those with room follow. -/
theorem assemble_header (id : PeerId) (unicast : Bool) {seq : ℤ} (hmin : 0 ≤ seq)
    (hmax : seq < 0x10000) (rest : List Message) (hrest : ∀ m ∈ rest, OfHeartbeat m) :
    ∃ after, messagesIn heap (assemble (.header id unicast seq :: rest)) =
      .header id unicast seq :: after ∧
      ∀ m' ∈ after, ∃ m ∈ rest, ∃ room, m' = received room m := by
  obtain ⟨hreads, -⟩ := @write_header heap id unicast _ hmin hmax
  have hcapacity : (write emptyBuffer (.header id unicast seq)).2.capacity = MTU :=
    (write_cases _ _).2.1.trans emptyBuffer_capacity
  obtain ⟨after, hall, hfrom⟩ := writeAll_reads rest hrest _ hcapacity hreads
  rw [assemble_cons]
  exact ⟨after, messagesIn_reads hall, hfrom⟩

/-- The links are all put where they have room. -/
theorem serialise_links {room : ℕ} (links : List LinkAck) (out : List UInt8)
    (hroom : out.length + (links.map LinkAck.size).sum ≤ room) :
    ∃ body, links.foldlM (LinkAck.serialise room) out = some body := by
  induction links generalizing out with
  | nil => exact ⟨out, rfl⟩
  | cons link links ih =>
    rw [List.map_cons, List.sum_cons] at hroom
    have hone : ∃ next, LinkAck.serialise room out link = some next ∧
      next.length = out.length + LinkAck.size link := by
      rw [LinkAck.size] at hroom ⊢
      by_cases hseq : 0 ≤ link.seq
      · rw [if_pos hseq] at hroom ⊢
        refine ⟨out ++ List.ofFn link.id ++ [link.flags] ++
          bigEndian 2 link.seq.toNat, ?_, by simp⟩
        simp only [LinkAck.serialise, putId, putSeq, if_pos hseq, Option.bind_eq_bind]
        rw [if_neg (by omega), put_fits (by simp; omega), Option.bind_some,
          put_fits (by simp; omega), Option.bind_some, put_fits (by simp; omega)]
      · rw [if_neg hseq] at hroom ⊢
        refine ⟨out ++ List.ofFn link.id ++ [link.flags], ?_, by simp⟩
        simp only [LinkAck.serialise, putId, putSeq, if_neg hseq, Option.bind_eq_bind]
        rw [if_neg (by omega), put_fits (by simp; omega), Option.bind_some,
          put_fits (by simp; omega), Option.bind_some]
    obtain ⟨next, hnext, hlength⟩ := hone
    obtain ⟨body, hbody⟩ := ih next (by omega)
    exact ⟨body, by rw [List.foldlM_cons, hnext]; exact hbody⟩

/-- Acknowledgements that fit behind the header are all in the datagram. -/
theorem assemble_acks (id : PeerId) (unicast : Bool) {seq : ℤ} (hmin : 0 ≤ seq)
    (hmax : seq < 0x10000)
    (links : List LinkAck) (hfits : (links.map LinkAck.size).sum ≤ 1383) (rest : List Message)
    (hrest : ∀ m ∈ rest, OfHeartbeat m) :
    ∃ after, messagesIn heap (assemble (.header id unicast seq :: .ack links :: rest)) =
        .header id unicast seq :: .ack (links.map LinkAck.received) :: after ∧
      ∀ m' ∈ after, ∃ m ∈ rest, ∃ room, m' = received room m := by
  obtain ⟨hreads, hposition⟩ := @write_header heap id unicast _ hmin hmax
  have hcases := write_cases emptyBuffer (.header id unicast seq)
  have hempty := emptyBuffer_limit
  have hmtu : MTU = 1400 := rfl
  have hcapacity := hcases.2.1.trans emptyBuffer_capacity
  rw [assemble_cons]
  generalize (write emptyBuffer (.header id unicast seq)).2 = buff at *
  have hremaining : buff.remaining - 3 = 1383 := by
    rw [ByteBuffer.remaining, hcases.1, hempty, hposition]
    rfl
  obtain ⟨body, hbody⟩ := @serialise_links (buff.remaining - 3) links [] (by simp; omega)
  obtain ⟨tail, htail, hsum, -⟩ := @creates_links heap _ body links [] hbody
  have hkept : kept (buff.remaining - 3) 0 links = links := kept_eq_self _ 0 links (by omega)
  rw [List.length_nil, hkept] at hsum
  rw [List.nil_append] at htail
  subst htail
  have hwritten := (write_fits buff (m := .ack links) (by omega) hbody (by omega)).1
  have hcreate := @create_ofHeartbeat heap (.ack links) trivial _ _ hbody
  have hreceived : received (buff.remaining - 3) (.ack links) =
    .ack (links.map LinkAck.received) := by
    rw [received, hkept]
  rw [hreceived] at hcreate
  have hone : Reads heap (frame .ackMessage body ++ []) [.ack (links.map LinkAck.received)] :=
    .cons (by omega) hcreate .nil
  rw [List.append_nil] at hone
  have hboth : Reads heap (write buff (.ack links)).2.written
      [.header id unicast seq, .ack (links.map LinkAck.received)] := by
    rw [hwritten]
    exact hreads.append hone
  obtain ⟨after, hall, hfrom⟩ :=
    writeAll_reads rest hrest _ ((write_cases buff _).2.1.trans hcapacity) hboth
  exact ⟨after, messagesIn_reads hall, hfrom⟩

end Succinct.Datagrams
