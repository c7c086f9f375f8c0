import Succinct.FileBlocks

/-!
What a PeerConnection writes to its socket: the queue of messages, the write
buffer between two writes, and the two ways to a graceful close. The messages
are numbered as they are accepted, and the calls of Message.write are
recorded. A write is made on a connected channel, and none is an exception: a
message queued after shutdown, a write after close, a file that can't be read.

Left out: what the peer is told about messages and connections, and reading.
-/
namespace Succinct.ConnectionWrites

open ByteBuffers Messages MessageStream FileBlocks

/-- A message to be sent. A block of a file meets, at each call, the bytes
that were committed by then and some reads of the channel. -/
inductive Outgoing where
  | whole (m : Message)
  | block (b : FileBlock) (reads : ℕ → List UInt8 × ℕ)

def Outgoing.type : Outgoing → MessageType
  | .whole m => m.type
  | .block _ _ => .fileBlockMessage

def Outgoing.write (buff : ByteBuffer) : Outgoing → Option (Bool × ByteBuffer × Outgoing)
  | .whole m => some ((Messages.write buff m).1, (Messages.write buff m).2, .whole m)
  | .block b reads =>
    match FileBlocks.write buff (reads 0).1 (reads 0).2 b with
    | .error _ => none
    | .ok r => some (r.1, r.2.1, .block r.2.2 fun n => reads (n + 1))

structure Numbered where
  id : ℕ
  message : Outgoing

structure Put where
  id : ℕ
  complete : Bool
  bytes : List UInt8

structure Connection where
  queue : List Numbered
  writeBuffer : ByteBuffer
  shutdown : Bool
  closed : Bool
  socket : List UInt8
  accepted : ℕ
  log : List Put

/-- The place in the queue of the message that peek returns. It has the
highest priority, and which of several is not specified. -/
structure Head where
  index : Connection → ℕ
  index_lt : ∀ c, c.queue ≠ [] → index c < c.queue.length
  highest : ∀ c n, c.queue[index c]? = some n → ∀ m ∈ c.queue,
    m.message.type.ordinal ≤ n.message.type.ordinal

def fillWriteBuffer (head : Head) : ℕ → Connection → Option Connection
  | 0, c => some c
  | fuel + 1, c =>
    match c.queue[head.index c]? with
    | none => some c
    | some msg =>
      match msg.message.write c.writeBuffer with
      | none => none
      | some r =>
        let put : Put := ⟨msg.id, r.1, r.2.1.written.drop c.writeBuffer.position⟩
        if r.1 then
          fillWriteBuffer head fuel
            { c with writeBuffer := r.2.1, log := c.log ++ [put]
                     queue := c.queue.eraseIdx (head.index c) }
        else
          some { c with writeBuffer := r.2.1, log := c.log ++ [put]
                        queue := c.queue.set (head.index c) ⟨msg.id, r.2.2⟩ }

def tryFill (head : Head) (c : Connection) : Option Connection :=
  (fillWriteBuffer head c.queue.length { c with writeBuffer := c.writeBuffer.compact }).map
    fun c => { c with writeBuffer := c.writeBuffer.flip }

def add (c : Connection) (message : Outgoing) : Connection :=
  { c with queue := c.queue ++ [⟨c.accepted, message⟩], accepted := c.accepted + 1 }

def opened : Connection where
  queue := []
  writeBuffer := (ByteBuffer.wrap (List.replicate MTU 0)).flip
  shutdown := false
  closed := false
  socket := []
  accepted := 0
  log := []

def connect (head : Head) (myId : PeerId) : Option Connection :=
  tryFill head (add opened (.whole (.header myId true (-1))))

def close (c : Connection) : Connection := { c with closed := true }

def channelWrite (count : ℕ) (c : Connection) : Connection :=
  match c.writeBuffer.get (min count c.writeBuffer.remaining) with
  | none => c
  | some r => { c with socket := c.socket ++ r.1, writeBuffer := r.2 }

def write (head : Head) (count : ℕ) (c : Connection) : Option Connection :=
  (tryFill head (channelWrite count c)).map fun c =>
    if c.shutdown && c.queue.isEmpty && !c.writeBuffer.hasRemaining then close c else c

def queue (head : Head) (message : Outgoing) (c : Connection) : Option Connection :=
  if c.shutdown then none else tryFill head (add c message)

def shutdown (c : Connection) : Connection :=
  if c.shutdown then c
  else
    let c := { c with shutdown := true }
    if c.queue.isEmpty then close c else c

inductive Event where
  | queue (message : Outgoing)
  | write (count : ℕ)
  | shutdown

def step (head : Head) (c : Connection) : Event → Option Connection
  | .queue message => queue head message c
  | .write count => if c.closed then none else write head count c
  | .shutdown => some (shutdown c)

def run (head : Head) (c : Connection) (events : List Event) : Option Connection :=
  events.foldlM (step head) c

def reach (head : Head) (myId : PeerId) (events : List Event) : Option Connection :=
  (connect head myId).bind fun c => run head c events

def WrittenCompletely (c : Connection) (id : ℕ) : Prop :=
  ∃ before put after, c.log = before ++ put :: after ∧ put.id = id ∧ put.complete = true ∧
    ((before ++ [put]).map Put.bytes).flatten <+: c.socket

/-- Whatever follows on a shutdown in this state, the connection is closed
only after its messages were written; the first message is the header. -/
def Graceful (head : Head) (c : Connection) : Prop :=
  ∀ after c', run head c (.shutdown :: after) = some c' → c'.closed = true →
    ∀ id, 0 < id → id < c.accepted → WrittenCompletely c' id

def completed (c : Connection) : List ℕ := (c.log.filter Put.complete).map Put.id

/-- The bytes of the calls are on the socket or in the buffer. Every message
was completed once or is in the queue, and an empty queue is left by a call
that completed a message. -/
structure Tracked (c : Connection) (bytes : List UInt8) : Prop where
  bytes : c.socket ++ bytes = (c.log.map Put.bytes).flatten
  perm : (completed c ++ c.queue.map Numbered.id).Perm (List.range c.accepted)
  last : c.queue = [] → ∃ puts put, c.log = puts ++ [put] ∧ put.complete = true

theorem written_of_put {b b' : ByteBuffer} {src : List UInt8} (h : b.put src = some b') :
    b'.written = b.written ++ src := by
  by_cases hfits : src.length ≤ b.remaining
  · obtain ⟨after, hput, -, -, -, hwritten⟩ := b.put_spec src hfits
    rw [hput] at h
    rw [← Option.some.inj h]
    exact hwritten
  · have hnone : b.put src = none := dif_neg hfits
    rw [hnone] at h
    cases h

/-- A call adds to what is written. -/
theorem written_messages (buff : ByteBuffer) (m : Message) :
    ∃ f, (Messages.write buff m).2.written = buff.written ++ f := by
  have hnothing : ∃ f, buff.written = buff.written ++ f := ⟨[], (List.append_nil _).symm⟩
  rw [Messages.write]
  split
  · exact hnothing
  · dsimp only
    split
    · exact hnothing
    · split
      case h_1 =>
        exact hnothing
      case h_2 body _ after hput =>
        have hwritten := written_of_put hput
        exact ⟨_, hwritten⟩

theorem written_blocks {buff after : ByteBuffer} {file : List UInt8}
    {count : ℕ} {b b' : FileBlock}
    {returned : Bool} (h : FileBlocks.write buff file count b = .ok (returned, after, b')) :
    ∃ f, after.written = buff.written ++ f := by
  have hnothing : ∃ f, buff.written = buff.written ++ f := ⟨[], (List.append_nil _).symm⟩
  rw [FileBlocks.write] at h
  split at h
  · cases h
    exact hnothing
  · split at h
    · cases h
    · cases h
      exact hnothing
    · split at h
      case h_1 =>
        cases h
        exact hnothing
      case h_2 hput =>
        cases h
        have hwritten := written_of_put hput
        exact ⟨_, hwritten⟩

theorem Outgoing.write_spec {message message' : Outgoing}
    {buff after : ByteBuffer} {returned : Bool}
    (h : message.write buff = some (returned, after, message')) :
    ∃ f, after.written = buff.written ++ f := by
  cases message with
  | whole m =>
    cases h
    exact written_messages buff m
  | block b reads =>
    rw [Outgoing.write] at h
    cases hwrite : FileBlocks.write buff (reads 0).1 (reads 0).2 b with
    | error _ =>
      rw [hwrite] at h
      cases h
    | ok r =>
      rw [hwrite] at h
      cases h
      exact written_blocks hwrite

structure Kept (c c' : Connection) : Prop where
  shutdown : c'.shutdown = c.shutdown
  closed : c'.closed = c.closed
  accepted : c'.accepted = c.accepted
  log : c.log <+: c'.log

theorem Kept.refl (c : Connection) : Kept c c := ⟨rfl, rfl, rfl, List.prefix_rfl⟩

theorem Kept.trans {c c' c'' : Connection} (h : Kept c c') (h' : Kept c' c'') : Kept c c'' :=
  ⟨h'.shutdown.trans h.shutdown, h'.closed.trans h.closed, h'.accepted.trans h.accepted,
    h.log.trans h'.log⟩

section Filling

variable {c : Connection} {i : ℕ} {msg : Numbered} {after : ByteBuffer}

/-- A call of write on the message at the head, before the queue is changed. -/
theorem Tracked.put (h : Tracked c c.writeBuffer.written) {f : List UInt8}
    (hf : after.written = c.writeBuffer.written ++ f) (put : Put)
    (hput : put.bytes = after.written.drop c.writeBuffer.position) :
    c.socket ++ after.written = ((c.log ++ [put]).map Put.bytes).flatten := by
  have hbytes : put.bytes = f := by
    rw [hput, hf, List.drop_left' c.writeBuffer.length_written]
  rw [List.map_append, List.flatten_append, ← h.bytes, hf, List.map_singleton,
    List.flatten_singleton, hbytes, List.append_assoc]

theorem Tracked.complete (h : Tracked c c.writeBuffer.written) (hget : c.queue[i]? = some msg)
    {f : List UInt8} (hf : after.written = c.writeBuffer.written ++ f) (put : Put)
    (hput : put = ⟨msg.id, true, after.written.drop c.writeBuffer.position⟩) :
    Tracked { c with writeBuffer := after, log := c.log ++ [put], queue := c.queue.eraseIdx i }
      after.written := by
  obtain ⟨hi, hmsg⟩ := List.getElem?_eq_some_iff.mp hget
  refine ⟨h.put hf put (by rw [hput]), ?_, fun _ => ⟨c.log, put, rfl, by rw [hput]⟩⟩
  have hcompleted : ((c.log ++ [put]).filter Put.complete).map Put.id =
    completed c ++ [msg.id] := by
    rw [List.filter_append, List.map_append, hput]
    rfl
  have hqueue : (msg.id :: (c.queue.eraseIdx i).map Numbered.id).Perm
    (c.queue.map Numbered.id) := by
    have hperm := (List.getElem_cons_eraseIdx_perm hi).map Numbered.id
    rw [hmsg] at hperm
    exact hperm
  change (((c.log ++ [put]).filter Put.complete).map Put.id ++
    (c.queue.eraseIdx i).map Numbered.id).Perm (List.range c.accepted)
  rw [hcompleted, List.append_assoc, List.singleton_append]
  exact (hqueue.append_left _).trans h.perm

theorem Tracked.unfinished (h : Tracked c c.writeBuffer.written) (hget : c.queue[i]? = some msg)
    {f : List UInt8} (hf : after.written = c.writeBuffer.written ++ f) (put : Put)
    (hput : put = ⟨msg.id, false, after.written.drop c.writeBuffer.position⟩)
    (message : Outgoing) :
    Tracked { c with writeBuffer := after, log := c.log ++ [put]
                     queue := c.queue.set i ⟨msg.id, message⟩ } after.written := by
  obtain ⟨hi, hmsg⟩ := List.getElem?_eq_some_iff.mp hget
  have hcompleted : ((c.log ++ [put]).filter Put.complete).map Put.id = completed c := by
    rw [List.filter_append, List.map_append, hput]
    exact List.append_nil _
  have hqueue : (c.queue.set i ⟨msg.id, message⟩).map Numbered.id = c.queue.map Numbered.id := by
    rw [List.map_set]
    apply List.ext_getElem?
    intro j
    rw [List.getElem?_set]
    split
    case isTrue hj =>
      subst hj
      rw [List.getElem?_map, hget]
      simp [hi]
    case isFalse =>
      rfl
  refine ⟨h.put hf put (by rw [hput]), ?_, fun hnone => ?_⟩
  · change (((c.log ++ [put]).filter Put.complete).map Put.id ++
      (c.queue.set i ⟨msg.id, message⟩).map Numbered.id).Perm (List.range c.accepted)
    rw [hcompleted, hqueue]
    exact h.perm
  · have hlength := congrArg List.length hnone
    rw [List.length_set, List.length_nil] at hlength
    omega

end Filling

theorem fillWriteBuffer_spec (head : Head) (fuel : ℕ) {c c' : Connection}
    (h : Tracked c c.writeBuffer.written) (hfill : fillWriteBuffer head fuel c = some c') :
    Tracked c' c'.writeBuffer.written ∧ Kept c c' := by
  induction fuel generalizing c with
  | zero =>
    cases hfill
    exact ⟨h, Kept.refl c'⟩
  | succ fuel ih =>
    rw [fillWriteBuffer] at hfill
    split at hfill
    case h_1 =>
      cases hfill
      exact ⟨h, Kept.refl c'⟩
    case h_2 msg hget =>
      cases hwrite : Outgoing.write c.writeBuffer msg.message with
      | none =>
        rw [hwrite] at hfill
        cases hfill
      | some r =>
        rw [hwrite] at hfill
        obtain ⟨f, hf⟩ := Outgoing.write_spec hwrite
        have hlog : ∀ put, c.log <+: c.log ++ [put] := fun put => List.prefix_append _ _
        dsimp only at hfill
        by_cases hcomplete : r.1 = true
        · rw [if_pos hcomplete] at hfill
          obtain ⟨htracked, hkept⟩ := ih (h.complete hget hf _ (by rw [hcomplete])) hfill
          exact ⟨htracked, hkept.shutdown, hkept.closed, hkept.accepted, (hlog _).trans hkept.log⟩
        · rw [if_neg hcomplete] at hfill
          cases hfill
          refine ⟨h.unfinished hget hf _ ?_ _, rfl, rfl, rfl, hlog _⟩
          rw [Bool.not_eq_true] at hcomplete
          rw [hcomplete]

theorem tryFill_spec (head : Head) {c c' : Connection} (h : Tracked c c.writeBuffer.slice)
    (hfill : tryFill head c = some c') : Tracked c' c'.writeBuffer.slice ∧ Kept c c' := by
  obtain ⟨filled, hfilled, rfl⟩ := Option.map_eq_some_iff.mp hfill
  obtain ⟨hcompact, -, -, -⟩ := compact_spec c.writeBuffer
  have hstart : Tracked { c with writeBuffer := c.writeBuffer.compact }
    c.writeBuffer.compact.written := by
    rw [hcompact]
    exact ⟨h.bytes, h.perm, h.last⟩
  obtain ⟨htracked, hkept⟩ := fillWriteBuffer_spec head _ hstart hfilled
  exact ⟨⟨htracked.bytes, htracked.perm, htracked.last⟩, hkept.shutdown,
    hkept.closed, hkept.accepted, hkept.log⟩

theorem Tracked.add {c : Connection} (h : Tracked c c.writeBuffer.slice) (message : Outgoing) :
    Tracked (add c message) c.writeBuffer.slice := by
  refine ⟨h.bytes, ?_, fun hnone => ?_⟩
  · change (completed c ++ (c.queue ++ [Numbered.mk c.accepted message]).map Numbered.id).Perm
      (List.range (c.accepted + 1))
    rw [List.map_append, ← List.append_assoc, List.range_succ]
    exact h.perm.append_right _
  · exact absurd hnone (List.append_ne_nil_of_right_ne_nil _ (List.cons_ne_nil _ _))

theorem channelWrite_spec {c : Connection} (count : ℕ) (h : Tracked c c.writeBuffer.slice) :
    Tracked (channelWrite count c) (channelWrite count c).writeBuffer.slice ∧
      Kept c (channelWrite count c) := by
  obtain ⟨after, hget, hbytes, hposition, hlimit, -⟩ :=
    c.writeBuffer.get_spec (min count c.writeBuffer.remaining) (Nat.min_le_right _ _)
  have hwrite : channelWrite count c = { c with
      socket := c.socket ++ (c.writeBuffer.bytes.drop c.writeBuffer.position).take
        (min count c.writeBuffer.remaining)
      writeBuffer := after } := by
    rw [channelWrite, hget]
  rw [hwrite]
  refine ⟨⟨?_, h.perm, h.last⟩, rfl, rfl, rfl, List.prefix_rfl⟩
  have hrem : c.writeBuffer.remaining = c.writeBuffer.limit - c.writeBuffer.position := rfl
  have hslice : after.slice = (c.writeBuffer.slice).drop (min count c.writeBuffer.remaining) := by
    rw [ByteBuffer.slice, ByteBuffer.slice, ByteBuffer.remaining, hbytes, hposition, hlimit,
      List.drop_take, List.drop_drop]
    congr 1
    omega
  have hsent : (c.writeBuffer.bytes.drop c.writeBuffer.position).take
    (min count c.writeBuffer.remaining) =
      c.writeBuffer.slice.take (min count c.writeBuffer.remaining) := by
    rw [ByteBuffer.slice, List.take_take, Nat.min_assoc, Nat.min_self]
  change c.socket ++ _ ++ after.slice = _
  rw [hslice, hsent, List.append_assoc, List.take_append_drop]
  exact h.bytes

structure Running (c : Connection) : Prop where
  tracked : Tracked c c.writeBuffer.slice
  shutdown : c.shutdown = false
  closed : c.closed = false
  header : ∃ put puts, c.log = put :: puts ∧ put.id = 0 ∧ put.complete = true

theorem write_header (myId : PeerId) {buff : ByteBuffer} (hrem : 12 ≤ buff.remaining) :
    (Messages.write buff (.header myId true (-1))).1 = true := by
  have hlen : (List.ofFn myId).length = 8 := List.length_ofFn
  have hbody : serialise (buff.remaining - 3) (.header myId true (-1)) =
      some (List.ofFn myId ++ [1]) := by
    have hid : putId (buff.remaining - 3) myId [] = some (List.ofFn myId) := by
      rw [putId, Messages.put, if_pos (by rw [List.length_nil]; omega), List.nil_append]
    have hflags : Messages.put (buff.remaining - 3) [1] (List.ofFn myId) =
        some (List.ofFn myId ++ [1]) := by
      rw [Messages.put, if_pos (by rw [List.length_singleton]; omega)]
    rw [Messages.serialise, hid]
    change (Messages.put (buff.remaining - 3) [1] (List.ofFn myId) >>= _) = _
    rw [hflags]
    rfl
  obtain ⟨after, hput, -⟩ :=
    buff.setMark.put_spec (frame .headerMessage (List.ofFn myId ++ [1])) (by
    change _ ≤ buff.remaining
    rw [length_frame, List.length_append, List.length_singleton]
    omega)
  have hfew : ¬ buff.remaining < 3 := by omega
  simp only [Messages.write, if_neg hfew, hbody, Message.type, hput]
  rfl

/-- The only message of the queue is written as a whole. -/
theorem fillWriteBuffer_single (head : Head) {c : Connection} {msg : Numbered}
    (hqueue : c.queue = [msg]) {after : ByteBuffer} {message : Outgoing}
    (hwrite : msg.message.write c.writeBuffer = some (true, after, message)) :
    fillWriteBuffer head 1 c = some { c with
      writeBuffer := after
      log := c.log ++ [⟨msg.id, true, after.written.drop c.writeBuffer.position⟩]
      queue := [] } := by
  have hindex : head.index c = 0 := by
    have hlt := head.index_lt c (by rw [hqueue]; exact List.cons_ne_nil _ _)
    rw [hqueue, List.length_singleton] at hlt
    omega
  have hget : c.queue[0]? = some msg := by rw [hqueue]; rfl
  have herase : c.queue.eraseIdx 0 = [] := by rw [hqueue]; rfl
  simp only [fillWriteBuffer, hindex, hget, hwrite, if_true, herase]

theorem connect_spec (head : Head) (myId : PeerId) :
    ∃ c, connect head myId = some c ∧ Running c ∧ c.queue = [] := by
  have hopened : Tracked (add opened (.whole (.header myId true (-1))))
    opened.writeBuffer.slice :=
    ⟨rfl, List.Perm.refl _, fun hno => absurd hno (List.cons_ne_nil _ _)⟩
  have hrem : 12 ≤ opened.writeBuffer.compact.remaining := by
    obtain ⟨-, hposition, hlimit, -⟩ := compact_spec opened.writeBuffer
    have hcap : opened.writeBuffer.capacity = 1200 := List.length_replicate
    have hnone : opened.writeBuffer.remaining = 0 := rfl
    rw [ByteBuffer.remaining, hlimit, hposition]
    omega
  have hwrite : Outgoing.write opened.writeBuffer.compact (.whole (.header myId true (-1))) =
      some (true, (Messages.write opened.writeBuffer.compact (.header myId true (-1))).2,
        .whole (.header myId true (-1))) := by
    rw [Outgoing.write, write_header myId hrem]
  have hfill := fillWriteBuffer_single head
    (c := { add opened (.whole (.header myId true (-1))) with
      writeBuffer := opened.writeBuffer.compact }) rfl hwrite
  obtain ⟨c, hc, hlog, hsame⟩ : ∃ c, connect head myId = some c ∧
      (∃ put puts, c.log = put :: puts ∧ put.id = 0 ∧ put.complete = true) ∧
      c.shutdown = false ∧ c.closed = false ∧ c.queue = [] := by
    refine ⟨_, congrArg (Option.map _) hfill, ⟨_, _, rfl, rfl, rfl⟩, rfl, rfl, rfl⟩
  exact ⟨c, hc, ⟨(tryFill_spec head hopened hc).1, hsame.1, hsame.2.1, hlog⟩, hsame.2.2⟩

/-- Messages and writes before the shutdown. -/
theorem Running.step {head : Head} {c c' : Connection} (h : Running c) {e : Event}
    (he : e ≠ .shutdown) (hstep : step head c e = some c') : Running c' := by
  have hrunning : ∀ d d', Tracked d d.writeBuffer.slice → d.shutdown = c.shutdown →
      d.closed = c.closed → c.log <+: d.log → tryFill head d = some d' → Running d' := by
    intro d d' htracked hshutdown hclosed hlog hfill
    obtain ⟨htracked', hkept⟩ := tryFill_spec head htracked hfill
    obtain ⟨put, puts, hputs, hid, hcomplete⟩ := h.header
    obtain ⟨more, hmore⟩ := hlog.trans hkept.log
    refine ⟨htracked', ?_, ?_, put, puts ++ more, ?_, hid, hcomplete⟩
    · rw [hkept.shutdown, hshutdown, h.shutdown]
    · rw [hkept.closed, hclosed, h.closed]
    · rw [← hmore, hputs, List.cons_append]
  cases e with
  | queue message =>
    change queue head message c = some c' at hstep
    rw [queue, h.shutdown, if_neg Bool.false_ne_true] at hstep
    exact hrunning _ _ (h.tracked.add message) rfl rfl List.prefix_rfl hstep
  | write count =>
    change (if c.closed then none else write head count c) = some c' at hstep
    rw [h.closed, if_neg Bool.false_ne_true] at hstep
    obtain ⟨filled, hfill, rfl⟩ := Option.map_eq_some_iff.mp hstep
    obtain ⟨htracked, hkept⟩ := channelWrite_spec count h.tracked
    have hfilled := hrunning _ _ htracked hkept.shutdown hkept.closed hkept.log hfill
    rw [hfilled.shutdown, Bool.false_and, Bool.false_and, if_neg Bool.false_ne_true]
    exact hfilled
  | shutdown => exact absurd rfl he

theorem Running.run {head : Head} (events : List Event) {c c' : Connection} (h : Running c)
    (hevents : Event.shutdown ∉ events) (hrun : run head c events = some c') : Running c' := by
  induction events generalizing c with
  | nil =>
    cases hrun
    exact h
  | cons e events ih =>
    rw [ConnectionWrites.run, List.foldlM_cons] at hrun
    obtain ⟨d, hstep, hrun⟩ := Option.bind_eq_some_iff.mp hrun
    have he : e ≠ .shutdown := fun hno => hevents (hno ▸ List.mem_cons_self)
    exact ih (h.step he hstep) (fun hmem => hevents (List.mem_cons_of_mem e hmem)) hrun

theorem slice_nil_iff (b : ByteBuffer) : b.slice = [] ↔ b.remaining = 0 := by
  rw [← List.length_eq_zero_iff, MessageFrames.length_slice]

structure Draining (c : Connection) (accepted : ℕ) : Prop where
  tracked : Tracked c c.writeBuffer.slice
  shutdown : c.shutdown = true
  accepted : c.accepted = accepted
  closed : c.closed = true → c.queue = [] ∧ c.writeBuffer.remaining = 0

theorem Draining.step {head : Head} {c c' : Connection} {accepted : ℕ} (h : Draining c accepted)
    {e : Event} (hstep : step head c e = some c') : Draining c' accepted := by
  cases e with
  | queue message =>
    change queue head message c = some c' at hstep
    rw [queue, h.shutdown, if_pos rfl] at hstep
    cases hstep
  | write count =>
    change (if c.closed then none else write head count c) = some c' at hstep
    by_cases hopen : c.closed = true
    · rw [if_pos hopen] at hstep
      cases hstep
    · rw [if_neg hopen] at hstep
      obtain ⟨filled, hfill, rfl⟩ := Option.map_eq_some_iff.mp hstep
      obtain ⟨htracked, hkept⟩ := channelWrite_spec count h.tracked
      obtain ⟨htracked', hkept'⟩ := tryFill_spec head htracked hfill
      have hall := hkept.trans hkept'
      have hshutdown := hall.shutdown.trans h.shutdown
      have haccepted := hall.accepted.trans h.accepted
      by_cases hdone : (filled.shutdown && filled.queue.isEmpty &&
        !filled.writeBuffer.hasRemaining) = true
      · rw [if_pos hdone]
        rw [Bool.and_eq_true, Bool.and_eq_true, Bool.not_eq_true', List.isEmpty_iff] at hdone
        refine ⟨⟨htracked'.bytes, htracked'.perm, htracked'.last⟩, hshutdown,
          haccepted, fun _ => ?_⟩
        refine ⟨hdone.1.2, ?_⟩
        have hposition := of_decide_eq_false hdone.2
        change filled.writeBuffer.limit - filled.writeBuffer.position = 0
        omega
      · rw [if_neg hdone]
        exact ⟨htracked', hshutdown, haccepted, fun hclosed =>
          absurd (hall.closed ▸ hclosed) hopen⟩
  | shutdown =>
    have hsame : c' = c := by
      rw [← Option.some.inj hstep, ConnectionWrites.shutdown, if_pos h.shutdown]
    rw [hsame]
    exact h

theorem Draining.run {head : Head} (events : List Event) {c c' : Connection} {accepted : ℕ}
    (h : Draining c accepted) (hrun : run head c events = some c') : Draining c' accepted := by
  induction events generalizing c with
  | nil =>
    cases hrun
    exact h
  | cons e events ih =>
    rw [ConnectionWrites.run, List.foldlM_cons] at hrun
    obtain ⟨d, hstep, hrun⟩ := Option.bind_eq_some_iff.mp hrun
    exact ih (h.step hstep) hrun

theorem Running.shutdown_cases {c : Connection} (h : Running c)
    (hleft : c.queue ≠ [] ∨ c.writeBuffer.remaining = 0) :
    Draining (ConnectionWrites.shutdown c) c.accepted := by
  rw [ConnectionWrites.shutdown, h.shutdown, if_neg Bool.false_ne_true]
  dsimp only
  have htracked := h.tracked
  by_cases hempty : c.queue.isEmpty = true
  · rw [if_pos hempty]
    have hnone : c.queue = [] := List.isEmpty_iff.mp hempty
    refine ⟨⟨htracked.bytes, htracked.perm, htracked.last⟩, rfl, rfl, fun _ => ⟨hnone, ?_⟩⟩
    rcases hleft with hqueue | hdrained
    · exact absurd hnone hqueue
    · exact hdrained
  · rw [if_neg hempty]
    refine ⟨⟨htracked.bytes, htracked.perm, htracked.last⟩, rfl, rfl, fun hclosed => ?_⟩
    rw [h.closed] at hclosed
    cases hclosed

/-- With nothing left, every message is on the socket. -/
theorem Tracked.written {c : Connection} (h : Tracked c []) (hqueue : c.queue = []) {id : ℕ}
    (hid : id < c.accepted) : WrittenCompletely c id := by
  have hmem : id ∈ completed c ++ c.queue.map Numbered.id :=
    h.perm.mem_iff.mpr (List.mem_range.mpr hid)
  rw [hqueue, List.map_nil, List.append_nil] at hmem
  obtain ⟨put, hput, rfl⟩ := List.mem_map.mp hmem
  obtain ⟨hlog, hcomplete⟩ := List.mem_filter.mp hput
  obtain ⟨before, after, hsplit⟩ := List.append_of_mem hlog
  refine ⟨before, put, after, hsplit, rfl, hcomplete, ?_⟩
  have hbytes := h.bytes
  rw [List.append_nil] at hbytes
  have hall : c.log = before ++ [put] ++ after := by
    rw [hsplit, List.append_assoc, List.singleton_append]
  have htotal : (c.log.map Put.bytes).flatten =
      ((before ++ [put]).map Put.bytes).flatten ++ (after.map Put.bytes).flatten := by
    rw [hall, List.map_append, List.flatten_append]
  rw [hbytes, htotal]
  exact List.prefix_append _ _

/-- Each message is completed once. -/
theorem Tracked.nodup {c : Connection} {bytes : List UInt8} (h : Tracked c bytes) :
    (completed c).Nodup :=
  (h.perm.nodup_iff.mpr List.nodup_range).of_append_left

theorem completed_append {c : Connection} {puts more : List Put} (h : c.log = puts ++ more) :
    completed c = (puts.filter Put.complete).map Put.id ++
      (more.filter Put.complete).map Put.id := by
  rw [completed, h, List.filter_append, List.map_append]

theorem mem_completed {puts : List Put} {put : Put} (h : put ∈ puts)
    (hcomplete : put.complete = true) :
    put.id ∈ (puts.filter Put.complete).map Put.id :=
  List.mem_map_of_mem (List.mem_filter.mpr ⟨h, hcomplete⟩)

/-- The message that was completed last needs all bytes to be on the socket. -/
theorem Tracked.not_written {c : Connection} {bytes : List UInt8} (h : Tracked c bytes)
    {puts : List Put} {put : Put} (hlog : c.log = puts ++ [put]) (hcomplete : put.complete = true)
    (hleft : bytes ≠ []) : ¬ WrittenCompletely c put.id := by
  rintro ⟨before, put', after, hsplit, hid, hcomplete', hsent⟩
  have hnodup := h.nodup
  rcases List.eq_nil_or_concat after with rfl | ⟨after, last, rfl⟩
  · have hall := h.bytes
    rw [hsplit] at hall
    rw [← hall] at hsent
    have hlength := hsent.length_le
    rw [List.length_append] at hlength
    exact hleft (List.length_eq_zero_iff.mp (by omega))
  · rw [List.concat_eq_append, ← List.cons_append, ← List.append_assoc] at hsplit
    have hlast : last = put := by
      rw [hlog] at hsplit
      exact (List.singleton_inj.mp (List.append_inj_right' hsplit rfl)).symm
    rw [completed_append hsplit] at hnodup
    refine List.disjoint_of_nodup_append hnodup
      (mem_completed (List.mem_append_right _ List.mem_cons_self) hcomplete') ?_
    rw [hid, hlast]
    exact mem_completed (List.mem_singleton_self put) hcomplete

/-- Of several messages, the last one completed is not the header. -/
theorem Running.last_completed {c : Connection} (h : Running c) (hqueue : c.queue = [])
    (haccepted : 1 < c.accepted) : ∃ puts put, c.log = puts ++ [put] ∧ put.complete = true ∧
      0 < put.id ∧ put.id < c.accepted := by
  have hperm := h.tracked.perm
  rw [hqueue, List.map_nil, List.append_nil] at hperm
  obtain ⟨puts, put, hlog, hcomplete⟩ := h.tracked.last hqueue
  obtain ⟨first, rest, hfirst, hzero, hheader⟩ := h.header
  refine ⟨puts, put, hlog, hcomplete, ?_, ?_⟩
  · refine Nat.pos_of_ne_zero fun hid => ?_
    have hnodup := h.tracked.nodup
    rcases puts with _ | ⟨p, puts⟩
    · have hlength := hperm.length_eq
      rw [completed_append hlog, List.length_range, List.length_append] at hlength
      have hone := List.length_filter_le Put.complete [put]
      simp only [List.filter_nil, List.map_nil, List.length_nil, List.length_map,
        List.length_singleton] at hlength hone
      omega
    · rw [hfirst, List.cons_append] at hlog
      obtain ⟨rfl, hrest⟩ := List.cons.inj hlog
      rw [@completed_append c (first :: puts) [put] (by rw [hfirst, hrest]; rfl)] at hnodup
      refine List.disjoint_of_nodup_append hnodup (mem_completed List.mem_cons_self hheader) ?_
      rw [hzero, ← hid]
      exact mem_completed (List.mem_singleton_self put) hcomplete
  · have hmem : put.id ∈ completed c :=
      mem_completed (by rw [hlog]; exact List.mem_append_right _ (List.mem_singleton_self put))
        hcomplete
    exact List.mem_range.mp (hperm.mem_iff.mp hmem)

/-- A shutdown with an empty queue closes at once, whatever the buffer holds. -/
theorem Running.shutdown_empty {c : Connection} (h : Running c) (hqueue : c.queue = []) :
    ConnectionWrites.shutdown c = { c with shutdown := true, closed := true } := by
  simp only [ConnectionWrites.shutdown, h.shutdown, Bool.false_eq_true, if_false, hqueue,
    List.isEmpty_nil, if_true, close]

theorem Running.not_graceful {c : Connection} (h : Running c) (head : Head)
    (hqueue : c.queue = [])
    (hleft : c.writeBuffer.remaining ≠ 0) (haccepted : 1 < c.accepted) : ¬ Graceful head c := by
  intro hall
  obtain ⟨puts, put, hlog, hcomplete, hpos, hlt⟩ := h.last_completed hqueue haccepted
  have hwritten := hall [] { c with shutdown := true, closed := true }
    (congrArg some (h.shutdown_empty hqueue)) rfl put.id hpos hlt
  have htracked : Tracked { c with shutdown := true, closed := true } c.writeBuffer.slice :=
    ⟨h.tracked.bytes, h.tracked.perm, h.tracked.last⟩
  exact htracked.not_written hlog hcomplete (fun hno => hleft ((slice_nil_iff _).mp hno)) hwritten

/-- A shutdown is graceful exactly if the queue still holds a message, or the
buffer has been written, or there was no message but the header. -/
theorem graceful_iff (head : Head) (myId : PeerId) (before : List Event)
    (hbefore : Event.shutdown ∉ before) (c : Connection)
    (hreach : reach head myId before = some c) :
    Graceful head c ↔ c.queue ≠ [] ∨ c.writeBuffer.remaining = 0 ∨ c.accepted = 1 := by
  obtain ⟨start, hconnect, hstart, -⟩ := connect_spec head myId
  rw [reach, hconnect] at hreach
  have hrunning : Running c := hstart.run before hbefore hreach
  constructor
  · intro hgraceful
    by_contra hnot
    rw [not_or, not_or, not_not] at hnot
    obtain ⟨hqueue, hleft, haccepted⟩ := hnot
    have hmore : 1 < c.accepted := by
      obtain ⟨put, puts, hlog, -, hcomplete⟩ := hrunning.header
      have hlength := hrunning.tracked.perm.length_eq
      have hmem : put.id ∈ completed c :=
        mem_completed (by rw [hlog]; exact List.mem_cons_self) hcomplete
      have hpos := List.length_pos_of_mem hmem
      rw [List.length_append, List.length_range] at hlength
      omega
    exact hrunning.not_graceful head hqueue hleft hmore hgraceful
  · intro hcond after c' hrun hclosed id hpos hlt
    rw [run, List.foldlM_cons] at hrun
    change run head (shutdown c) after = some c' at hrun
    have hleft : c.queue ≠ [] ∨ c.writeBuffer.remaining = 0 := by
      rcases hcond with hqueue | hdrained | hnone
      · exact Or.inl hqueue
      · exact Or.inr hdrained
      · omega
    have hdraining := (hrunning.shutdown_cases hleft).run after hrun
    obtain ⟨hqueue, hdrained⟩ := hdraining.closed hclosed
    have htracked := hdraining.tracked
    rw [(slice_nil_iff _).mpr hdrained] at htracked
    exact htracked.written hqueue (by rw [hdraining.accepted]; exact hlt)

def firstHighest : Head where
  index c := c.queue.findIdx fun n =>
    c.queue.all fun m => decide (m.message.type.ordinal ≤ n.message.type.ordinal)
  index_lt := by
    intro c hc
    obtain ⟨n, hn⟩ : ∃ n, c.queue.argmax (fun m => m.message.type.ordinal) = some n :=
      Option.ne_none_iff_exists'.mp fun hno => hc (List.argmax_eq_none.mp hno)
    refine List.findIdx_lt_length_of_exists ⟨n, List.argmax_mem hn, ?_⟩
    refine List.all_eq_true.mpr fun m hm => decide_eq_true ?_
    exact List.le_of_mem_argmax (f := fun m : Numbered => m.message.type.ordinal) hm hn
  highest := by
    intro c n hn m hm
    obtain ⟨hlt, hget⟩ := List.getElem?_eq_some_iff.mp hn
    have hall := List.findIdx_getElem (w := hlt)
    rw [hget] at hall
    exact of_decide_eq_true (List.all_eq_true.mp hall m hm)

def oneMessage : List Event := [.queue (.whole (.requestTeam fun _ => 7))]

def writtenMessage : List Event := [.queue (.whole (.requestTeam fun _ => 7)), .write 1200]

theorem graceful_written : ∃ c, reach firstHighest (fun _ => 1) writtenMessage = some c ∧
    c.writeBuffer.remaining = 0 ∧ Graceful firstHighest c := by
  have hrun : (reach firstHighest (fun _ => 1) writtenMessage).map
      (fun c => c.writeBuffer.remaining) = some 0 := by decide +kernel
  obtain ⟨c, hreach, hdrained⟩ := Option.map_eq_some_iff.mp hrun
  refine ⟨c, hreach, hdrained,
    (graceful_iff firstHighest (fun _ => 1) writtenMessage ?_ c hreach).mpr ?_⟩
  · simp [writtenMessage]
  · exact Or.inr (Or.inl hdrained)

/-- A message is accepted and the connection shut down: it is closed with the
message in its buffer, and nothing on the socket. -/
theorem closed_with_unsent : ∃ c c', reach firstHighest (fun _ => 1) oneMessage = some c ∧
    run firstHighest c [.shutdown] = some c' ∧ c'.closed = true ∧ c'.socket = [] ∧
    1 < c.accepted ∧ ¬ Graceful firstHighest c := by
  have hrun : (reach firstHighest (fun _ => 1) oneMessage).map
      (fun c => (c.queue.isEmpty, c.writeBuffer.remaining, c.accepted, c.socket)) =
        some (true, 23, 2, []) := by decide +kernel
  obtain ⟨c, hreach, hfacts⟩ := Option.map_eq_some_iff.mp hrun
  simp only [Prod.mk.injEq] at hfacts
  obtain ⟨hempty, hleft, haccepted, hsocket⟩ := hfacts
  have hqueue : c.queue = [] := List.isEmpty_iff.mp hempty
  obtain ⟨start, hconnect, hstart, -⟩ := connect_spec firstHighest fun _ => 1
  have hrunning : Running c := by
    have hevents := hreach
    rw [reach, hconnect] at hevents
    exact hstart.run oneMessage (by simp [oneMessage]) hevents
  refine ⟨c, { c with shutdown := true, closed := true }, hreach, ?_, rfl, hsocket, by omega,
    hrunning.not_graceful firstHighest hqueue (by omega) (by omega)⟩
  exact congrArg some (hrunning.shutdown_empty hqueue)

end Succinct.ConnectionWrites
