import Succinct.MessageQueue

/-!
Sending the stored fragments. The background thread runs sendViaHttp and
sendNextFragment of MessageQueue.java and HttpTransport.java; the status
callbacks of RockTransport.java and SMSTransport.java come in between its
steps. A step that throws is none, and ends the run.

The records of the fragments file are numbered, and an offset in the file is
the number of the record that starts there. What cannot be seen from the marks
(settings, radio state, server answers, message sources, time) is an argument
of the step. PRETEND_ROCK is off. Left out: alarms, timeouts, closing, logging,
and the cached record of the iterator.
-/
namespace Succinct.FragmentDelivery

open ByteBuffers MessageQueue

inductive Status where
  | UNAVAILABLE
  | BUSY
  | SUCCESS
  deriving DecidableEq

/-- R7MessageStatus, with all errors as one. -/
inductive RockStatus where
  | received
  | receivedByDevice
  | queuedForTransmission
  | pending
  | transmitting
  | transmitted
  | error
  deriving DecidableEq

structure RecordIterator where
  offset : ℕ
  onRecord : Bool

/-- Where the background thread is: asleep, at the head of one of its two
loops, or behind a trySend that succeeded. -/
inductive Stage where
  | idle
  | httpLoop
  | sendLoop (init : Bool)
  | accepted
  deriving DecidableEq

/-- The queue, its two marks and its transports. The last three fields are the
history: what Rock has reported as transmitted, what was handed to SMS, and
the numbers the server has acknowledged. -/
structure Outbox where
  queue : Queue
  fragments : RecordIterator
  sending : ℕ
  httpAcked : ℕ
  sendingMsg : Option UInt16
  sendingFragment : Option ℕ
  smsSending : Option ℕ
  stage : Stage
  transmitted : List ℕ
  texted : List ℕ
  acks : List ℤ

namespace Outbox

def start (queue : Queue) : Outbox where
  queue := queue
  fragments := ⟨0, false⟩
  sending := 0
  httpAcked := 0
  sendingMsg := none
  sendingFragment := none
  smsSending := none
  stage := .idle
  transmitted := []
  texted := []
  acks := []

def EOF (s : Outbox) : ℕ := s.queue.fragments.length

def reset (s : Outbox) (mark : ℕ) : Option Outbox :=
  if mark > s.EOF then none else some { s with fragments := ⟨mark, false⟩ }

def next (s : Outbox) : Bool × Outbox :=
  let offset := if s.fragments.onRecord then s.fragments.offset + 1 else s.fragments.offset
  if offset ≥ s.EOF then (false, { s with fragments := ⟨offset, false⟩ })
  else (true, { s with fragments := ⟨offset, true⟩ })

def prev (s : Outbox) : Bool × Outbox :=
  if s.fragments.offset = 0 then (false, { s with fragments := ⟨0, false⟩ })
  else (true, { s with fragments := ⟨s.fragments.offset - 1, true⟩ })

def read (s : Outbox) : Option (Option Fragment) :=
  if s.fragments.onRecord then
    (s.queue.fragments[s.fragments.offset]?.bind newFragment).map some
  else some none

end Outbox

open Outbox

structure Source where
  deadline : ℤ
  messageType : UInt8
  messageBytes : List UInt8

def nextMessage : List Source → Queue → Option Queue
  | [], q => some q
  | m :: rest, q =>
    (fragmentMessage q m.deadline m.messageType m.messageBytes).bind (nextMessage rest)

def sourcesLoop : List (List Source) → Outbox → Option (Bool × Outbox)
  | [], s => some (false, s)
  | source :: rest, s => do
    let queue ← nextMessage source s.queue
    let (found, s) := { s with queue := queue }.next
    if found then some (true, s) else sourcesLoop rest s

/-- due: the deadline of the open fragment has passed. -/
def nextFragment (mark : ℕ) (flushNow due : Bool) (sources : List (List Source)) (s : Outbox) :
    Option (Bool × Outbox) := do
  let s ← s.reset mark
  let (found, s) := s.next
  if found then some (true, s)
  else do
    let (found, s) ← sourcesLoop sources s
    if found then some (true, s)
    else if s.queue.fragmentBuff.position ≤ 4 then some (false, s)
    else if flushNow then some (true, s)
    else some (due, s)

def getFragment (s : Outbox) : Option (Option Fragment × Outbox) := do
  match ← s.read with
  | some send => some (some send, s)
  | none =>
    let (ended, queue) ← endFragment s.queue
    let s := { s with queue := queue }
    if ended then
      let (found, s) := s.next
      if found then do
        let send ← s.read
        some (send, s)
      else some (none, s)
    else some (none, s)

/-- SMSTransport.checkAvailable; ready stands for its other conditions. -/
def smsCheckAvailable (ready : Bool) (s : Outbox) : Status :=
  if !ready then .UNAVAILABLE else if s.smsSending.isSome then .BUSY else .SUCCESS

/-- RockTransport.checkAvailable; device is the answer that the settings and the
state of the device give. -/
def rockCheckAvailable (device : Status) (s : Outbox) : Status :=
  if device ≠ .SUCCESS then device else if s.sendingMsg.isSome then .BUSY else .SUCCESS

def smsTrySend (ready : Bool) (s : Outbox) : Status × Outbox :=
  let available := smsCheckAvailable ready s
  if available ≠ .SUCCESS then (available, s)
  else (.SUCCESS, { s with smsSending := some s.fragments.offset
                           texted := s.fragments.offset :: s.texted })

/-- RockTransport.trySend. The message is numbered by (short) fragment.seq. -/
def rockTrySend (device : Status) (fragment : Fragment) (s : Outbox) : Status × Outbox :=
  let available := rockCheckAvailable device s
  if available ≠ .SUCCESS then (available, s)
  else (.SUCCESS, { s with sendingMsg := some (UInt16.ofNat fragment.seq.toNat)
                           sendingFragment := some s.fragments.offset })

/-- The services in their order, until one is not unavailable. -/
def trySend (ready : Bool) (device : Status) (fragment : Fragment) (s : Outbox) :
    Status × Outbox :=
  let (status, s) := smsTrySend ready s
  if status = .UNAVAILABLE then rockTrySend device fragment s else (status, s)

def checkAvailable (ready : Bool) (device : Status) (s : Outbox) : Status :=
  let status := smsCheckAvailable ready s
  if status = .UNAVAILABLE then rockCheckAvailable device s else status

/-- What a turn of the loop of sendNextFragment sees of the world. -/
structure Turn where
  sources : List (List Source)
  due : Bool
  checkReady : Bool
  checkDevice : Status
  ready : Bool
  device : Status

def offer (turn : Turn) (init : Bool) (s : Outbox) : Option Outbox := do
  let (found, s) ← nextFragment s.sending false turn.due turn.sources s
  if !found then some { s with stage := .idle }
  else if !init ∧ checkAvailable turn.checkReady turn.checkDevice s ≠ .SUCCESS then
    some { s with stage := .idle }
  else do
    let (send, s) ← getFragment s
    let fragment ← send
    let (status, s) := trySend turn.ready turn.device fragment s
    if status ≠ .SUCCESS then some { s with stage := .idle }
    else some { s with stage := .accepted }

def advance (s : Outbox) : Outbox :=
  let s := s.next.2
  { s with sending := s.fragments.offset, stage := .sendLoop true }

/-- The search of markAck. fuel bounds the number of records. -/
def ackLoop (seq : ℤ) (forwards : Bool) : ℕ → Outbox → Option Outbox
  | 0, _ => none
  | fuel + 1, s => do
    let fragment ← (← s.read)
    if asInt fragment.seq.toNat = seq then some s
    else
      let (found, s) := if forwards then s.next else s.prev
      if found then ackLoop seq forwards fuel s else none

def intSub (a b : ℤ) : ℤ := asInt ((a - b) % 4294967296).toNat

def ackBounds (seq : ℤ) (current : Option Fragment) (nextFragmentSeq : ℤ) : ℤ × ℤ :=
  let last := intSub nextFragmentSeq 1
  match current with
  | none => (0, last)
  | some current =>
    let currentSeq := asInt current.seq.toNat
    if seq ≥ currentSeq then (currentSeq, last) else (0, currentSeq)

def ackStart (forwards : Bool) (first last nextFragmentSeq : ℤ) (s : Outbox) : Option Outbox :=
  if forwards ∧ first = 0 then
    let (found, s) := { s with fragments := ⟨0, false⟩ }.next
    if found then some s else none
  else if !forwards ∧ last = intSub nextFragmentSeq 1 then
    let (found, s) := { s with fragments := ⟨s.EOF, false⟩ }.prev
    if found then some s else none
  else some s

def markAck (seq : ℤ) (s : Outbox) : Option Outbox := do
  let nextFragmentSeq := asInt s.queue.nextFragmentSeq.toNat
  if seq < -1 ∨ seq ≥ nextFragmentSeq then none
  else if seq < 0 then
    let s := { s with fragments := ⟨0, false⟩ }.next.2
    some { s with httpAcked := s.fragments.offset, acks := seq :: s.acks }
  else do
    let current ← s.read
    let (first, last) := ackBounds seq current nextFragmentSeq
    let forwards : Bool := intSub seq first < intSub last seq
    let s ← ackStart forwards first last nextFragmentSeq s
    let s ← ackLoop seq forwards (s.EOF + 1) s
    let s := s.next.2
    let s := { s with httpAcked := s.fragments.offset, acks := seq :: s.acks }
    some (if s.fragments.offset > s.sending then { s with sending := s.fragments.offset } else s)

/-- An answer of the server: a number of acknowledged fragments, no fragments
yet, or anything else, including no answer. -/
inductive Answer where
  | ack (seq : ℤ)
  | notFound
  | failed

def connect (answer : Answer) (s : Outbox) : Option Outbox := do
  let s ← s.reset s.httpAcked
  let (found, s) := s.next
  if found then
    match answer with
    | .notFound => do
      let s ← markAck (-1) s
      some { s with stage := .httpLoop }
    | .ack seq => do
      let s ← markAck seq s
      some { s with stage := .httpLoop }
    | .failed => some { s with stage := .sendLoop false }
  else some { s with stage := .httpLoop }

def upload (sources : List (List Source)) (answer : Answer) (s : Outbox) : Option Outbox := do
  let (found, s) ← nextFragment s.httpAcked true false sources s
  if !found then some { s with stage := .sendLoop false }
  else do
    let (send, s) ← getFragment s
    let _ ← send
    match answer with
    | .ack seq => markAck seq s
    | _ => some { s with stage := .sendLoop false }

def observe (id : UInt16) (status : RockStatus) (s : Outbox) : Option Outbox :=
  match status with
  | .transmitted => do
    let sendingMsg ← s.sendingMsg
    if id = sendingMsg then
      some { s with sendingMsg := none, sendingFragment := none
                    transmitted := s.sendingFragment.toList ++ s.transmitted }
    else some s
  | .error => do
    let sendingMsg ← s.sendingMsg
    if id = sendingMsg then some { s with sendingMsg := none, sendingFragment := none }
    else some s
  | _ => some s

/-- The alarm goes off, with or without a server to talk to; a turn of either
loop; the mark moves; a status callback of Rock or of SMS. -/
inductive Event where
  | wake (http : Option Answer)
  | upload (sources : List (List Source)) (answer : Answer)
  | offer (turn : Turn)
  | advance
  | observe (id : UInt16) (status : RockStatus)
  | smsSent

/-- A step of the background thread is none where the thread is elsewhere. -/
def step (s : Outbox) : Event → Option Outbox
  | .wake http =>
    match s.stage, http with
    | .idle, none => some { s with stage := .sendLoop false }
    | .idle, some answer => connect answer s
    | _, _ => none
  | .upload sources answer =>
    match s.stage with
    | .httpLoop => FragmentDelivery.upload sources answer s
    | _ => none
  | .offer turn =>
    match s.stage with
    | .sendLoop init => FragmentDelivery.offer turn init s
    | _ => none
  | .advance =>
    match s.stage with
    | .accepted => some (FragmentDelivery.advance s)
    | _ => none
  | .observe id status => FragmentDelivery.observe id status s
  | .smsSent => some { s with smsSending := none }

def run : List Event → Outbox → Option Outbox
  | [], s => some s
  | event :: rest, s => (step s event).bind (run rest)

end Succinct.FragmentDelivery
