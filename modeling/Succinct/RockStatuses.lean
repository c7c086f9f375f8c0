import Succinct.FragmentDelivery

/-!
RockTransport.java. One message is outstanding at a time, until its status is
transmitted or an error. What the settings and the device answer is an argument, and so
is the number that sendRawMessage gives a message. A step that throws is none.
-/
namespace Succinct.RockStatuses

open MessageQueue FragmentDelivery

inductive LockState where
  | unlocked
  | locked
  | other
  deriving DecidableEq

structure Device where
  enableRock : Bool
  paired : Bool
  enabled : Bool
  connected : Bool
  lastError : Bool
  scanning : Bool
  canConnect : Bool
  lockState : Option LockState
  canSendRawMessage : Bool
  pretendRock : Bool

inductive Effect where
  | enable
  | checkState
  | connect
  | enterPin
  | forgetDevice
  | disableTimeout
  | enableTimeout
  | sendRawMessage (id : UInt16) (bytes : List UInt8)
  | requestBeep
  | deleteObserver
  | receiveFragment (bytes : List UInt8)
  | onStateChanged
  deriving DecidableEq

structure Transport where
  messagingRequired : Bool
  closed : Bool
  sendingMsg : Option UInt16
  sendingFragment : Option Fragment

def newTransport : Transport := ⟨false, false, none, none⟩

def awaitConnection (d : Device) : Status × List Effect :=
  if d.lastError then (.UNAVAILABLE, [.checkState])
  else if d.scanning then (.BUSY, [.checkState])
  else if d.canConnect then (.BUSY, [.checkState, .connect])
  else (.BUSY, [.checkState])

def lockedOrFree (d : Device) (sending : Bool) : Status × List Effect :=
  match d.lockState with
  | none => (.BUSY, [.checkState])
  | some .locked => (.BUSY, [.checkState, .enterPin])
  | some .other => (.UNAVAILABLE, [.checkState])
  | some .unlocked =>
    if !d.canSendRawMessage then (.UNAVAILABLE, [.checkState, .forgetDevice])
    else if sending then (.BUSY, [.checkState])
    else (.SUCCESS, [.checkState])

def checkAvailable (d : Device) (t : Transport) : Status × Transport × List Effect :=
  if !d.enableRock then (.UNAVAILABLE, t, [])
  else if !d.paired then (.UNAVAILABLE, t, [])
  else
    let t := { t with messagingRequired := true }
    if !d.enabled then (.BUSY, t, [.enable])
    else
      let result := if !d.connected then awaitConnection d else lockedOrFree d t.sendingMsg.isSome
      (result.1, t, result.2)

def trySend (d : Device) (fragment : Fragment) (id : UInt16) (t : Transport) :
    Status × Transport × List Effect :=
  let (available, t, effects) := checkAvailable d t
  if available ≠ .SUCCESS then (available, t, effects)
  else if d.pretendRock then (.SUCCESS, t, effects)
  else
    (.SUCCESS, { t with sendingMsg := some id, sendingFragment := some fragment },
      effects ++ [.disableTimeout, .sendRawMessage id fragment.bytes])

def done (t : Transport) : Transport × List Effect :=
  ({ t with messagingRequired := false }, if t.sendingMsg = none then [.enableTimeout] else [])

def close (t : Transport) : Transport × List Effect :=
  let (t, effects) := done t
  ({ t with closed := true }, effects ++ if t.sendingMsg = none then [.deleteObserver] else [])

/-- What observers are notified of: a message, or anything else. The status of an
outgoing message may be null. -/
inductive Notification where
  | incoming (bytes : List UInt8)
  | outgoing (id : UInt16) (status : Option RockStatus)
  | other

/-- The transport, whether to call back, and what else is done; sendingMsg.id throws
where there is no message. -/
def onStatus (id : UInt16) (status : RockStatus) (t : Transport) :
    Option (Transport × Bool × List Effect) :=
  match status with
  | .transmitted => do
    let sendingMsg ← t.sendingMsg
    if id = sendingMsg then
      some ({ t with sendingMsg := none, sendingFragment := none }, true,
        [.requestBeep, .enableTimeout] ++ if t.closed then [.deleteObserver] else [])
    else some (t, t.messagingRequired, [.requestBeep])
  | .error => do
    let sendingMsg ← t.sendingMsg
    if id = sendingMsg
      then some ({ t with sendingMsg := none, sendingFragment := none }, true, [])
    else some (t, t.messagingRequired, [])
  | _ => some (t, t.messagingRequired, [])

def react (t : Transport) : Notification → Option (Transport × Bool × List Effect)
  | .incoming bytes => some (t, t.messagingRequired, [.receiveFragment bytes])
  | .outgoing id (some status) => onStatus id status t
  | .outgoing _ none => some (t, t.messagingRequired, [])
  | .other => some (t, t.messagingRequired, [])

def observe (notification : Notification) (t : Transport) : Option (Transport × List Effect) :=
  (react t notification).map fun (t, callback, effects) =>
    (t, effects ++ if callback && !t.closed then [.onStateChanged] else [])

inductive Event where
  | trySend (d : Device) (fragment : Fragment) (id : UInt16)
  | checkAvailable (d : Device)
  | done
  | close
  | observe (notification : Notification)

def step (t : Transport) : Event → Option (Transport × List Effect)
  | .trySend d fragment id => some (RockStatuses.trySend d fragment id t).2
  | .checkAvailable d => some (RockStatuses.checkAvailable d t).2
  | .done => some (RockStatuses.done t)
  | .close => some (RockStatuses.close t)
  | .observe notification => RockStatuses.observe notification t

/-- A message is sent, or its last status is delivered. -/
inductive Entry where
  | sent (id : UInt16)
  | reported (id : UInt16)
  deriving DecidableEq

def isFinal (status : RockStatus) : Bool := status = .transmitted || status = .error

def sentIds (effects : List Effect) : List UInt16 :=
  effects.filterMap fun
    | .sendRawMessage id _ => some id
    | _ => none

def entries (event : Event) (effects : List Effect) : List Entry :=
  match event with
  | .observe (.outgoing id (some status)) => if isFinal status then [.reported id] else []
  | _ => (sentIds effects).map .sent

structure World where
  transport : Transport
  history : List Entry

def start : World := ⟨newTransport, []⟩

def advance (w : World) (event : Event) : Option World :=
  (step w.transport event).map fun result => ⟨result.1, w.history ++ entries event result.2⟩

def run : World → List Event → Option World
  | w, [] => some w
  | w, event :: rest => (advance w event).bind fun w => run w rest

def EachReported (history : List Entry) : Prop :=
  ∀ before id after, history = before ++ .sent id :: after → .reported id ∈ after

def Device.Usable (d : Device) : Prop :=
  d.enableRock = true ∧ d.paired = true ∧ d.enabled = true ∧ d.connected = true ∧
    d.lockState = some .unlocked ∧ d.canSendRawMessage = true

def Settles (t : Transport) (event : Event) : Prop :=
  ∃ id status, event = .observe (.outgoing id (some status)) ∧ isFinal status = true ∧
    t.sendingMsg = some id

/-- What is wanted of an event: it does not throw, a message is sent only behind the
last statuses of those before it, and a last status makes the transport available. -/
structure Proper (w : World) (event : Event) : Prop where
  returns : advance w event ≠ none
  alone : ∀ t effects, step w.transport event = some (t, effects) → sentIds effects ≠ [] →
    EachReported w.history
  free : ∀ t effects, step w.transport event = some (t, effects) → Settles w.transport event →
    ∀ d : Device, d.Usable → (checkAvailable d t).1 = .SUCCESS

/-- A last status comes while a message is outstanding. -/
def Timely (t : Transport) (event : Event) : Prop :=
  ∀ id status, event = .observe (.outgoing id (some status)) → isFinal status = true →
    t.sendingMsg ≠ none

def Outstanding (w : World) : Prop :=
  ∀ before id after, w.history = before ++ .sent id :: after → .reported id ∈ after ∨
    w.transport.sendingMsg = some id

theorem checkAvailable_transport (d : Device) (t : Transport) :
    (checkAvailable d t).2.1.sendingMsg = t.sendingMsg := by
  rw [checkAvailable]
  split_ifs <;> rfl

theorem checkAvailable_success {d : Device} {t : Transport}
    (h : (checkAvailable d t).1 = .SUCCESS) :
    t.sendingMsg = none := by
  rw [checkAvailable] at h
  split_ifs at h
  · dsimp only [awaitConnection] at h
    split_ifs at h
  · dsimp only [lockedOrFree] at h
    split at h
    · cases h
    · cases h
    · cases h
    · split_ifs at h with hraw hsending
      exact Option.not_isSome_iff_eq_none.mp hsending

/-- No message is outstanding: the device decides alone. -/
theorem checkAvailable_usable {d : Device} (hd : d.Usable) {t : Transport}
    (h : t.sendingMsg = none) :
    (checkAvailable d t).1 = .SUCCESS := by
  obtain ⟨hrock, hpaired, henabled, hconnected, hlock, hraw⟩ := hd
  simp [checkAvailable, lockedOrFree, hrock, hpaired, henabled, hconnected, hlock, hraw, h]

theorem sentIds_awaitConnection (d : Device) : sentIds (awaitConnection d).2 = [] := by
  rw [awaitConnection]
  split_ifs <;> rfl

theorem sentIds_lockedOrFree (d : Device) (sending : Bool) :
    sentIds (lockedOrFree d sending).2 = [] := by
  rw [lockedOrFree]
  split
  · rfl
  · rfl
  · rfl
  · split_ifs <;> rfl

theorem sentIds_checkAvailable (d : Device) (t : Transport) :
    sentIds (checkAvailable d t).2.2 = [] := by
  rw [checkAvailable]
  split_ifs
  · rfl
  · rfl
  · rfl
  · exact sentIds_awaitConnection d
  · exact sentIds_lockedOrFree d _

inductive Moves (t t' : Transport) (ids : List UInt16) : List Entry → Prop where
  | sends (id : UInt16) (hfree : t.sendingMsg = none) (hsending : t'.sendingMsg = some id)
    (hids : ids = [id]) :
      Moves t t' ids [.sent id]
  | settles (id : UInt16) (hsending : t.sendingMsg = some id) (hfree : t'.sendingMsg = none)
    (hids : ids = []) :
      Moves t t' ids [.reported id]
  | ignores (id : UInt16) (hother : t.sendingMsg ≠ some id) (hsame : t'.sendingMsg = t.sendingMsg)
    (hids : ids = []) :
      Moves t t' ids [.reported id]
  | keeps (hsame : t'.sendingMsg = t.sendingMsg) (hids : ids = []) : Moves t t' ids []

theorem trySend_moves (d : Device) (fragment : Fragment) (id : UInt16) (t : Transport) :
    Moves t (trySend d fragment id t).2.1 (sentIds (trySend d fragment id t).2.2)
      ((sentIds (trySend d fragment id t).2.2).map .sent) := by
  have hids := sentIds_checkAvailable d t
  have hsame := checkAvailable_transport d t
  rw [trySend]
  dsimp only
  split_ifs with hbusy hpretend
  · rw [hids]
    exact .keeps hsame rfl
  · rw [hids]
    exact .keeps hsame rfl
  · have hsent : sentIds ((checkAvailable d t).2.2 ++
      [.disableTimeout, .sendRawMessage id fragment.bytes]) = [id] := by
      rw [sentIds, List.filterMap_append, ← sentIds, hids]
      rfl
    rw [hsent]
    exact .sends id (checkAvailable_success (not_not.mp hbusy)) rfl rfl

theorem isFinal_iff {status : RockStatus} : isFinal status = true ↔
    status = .transmitted ∨ status = .error := by
  rw [isFinal, Bool.or_eq_true, decide_eq_true_eq, decide_eq_true_eq]

/-- A last status: the outstanding message is over, or the status is for another. -/
theorem onStatus_final {id : UInt16} {status : RockStatus}
    (hfinal : isFinal status = true) (t : Transport) :
    (t.sendingMsg = none ∧ onStatus id status t = none) ∨
    (∃ t' callback effects, onStatus id status t = some (t', callback, effects) ∧
      sentIds effects = [] ∧
      (t.sendingMsg = some id ∧ t'.sendingMsg = none ∨ t.sendingMsg ≠ none ∧
        t.sendingMsg ≠ some id ∧ t'.sendingMsg = t.sendingMsg)) := by
  cases hsending : t.sendingMsg with
  | none =>
    left
    rcases isFinal_iff.mp hfinal with rfl | rfl
    · simp [onStatus, hsending]
    · simp [onStatus, hsending]
  | some current =>
    right
    by_cases hid : id = current
    · subst hid
      rcases isFinal_iff.mp hfinal with rfl | rfl
      · refine ⟨{ t with sendingMsg := none, sendingFragment := none }, true,
          [.requestBeep, .enableTimeout] ++ if t.closed then [.deleteObserver]
            else [], ?_, ?_, Or.inl ⟨rfl, rfl⟩⟩
        · simp [onStatus, hsending]
        · split <;> rfl
      · exact ⟨{ t with sendingMsg := none, sendingFragment := none }, true,
          [], by simp [onStatus, hsending], rfl, Or.inl ⟨rfl, rfl⟩⟩
    · have hne : some current ≠ some id := fun h => hid (Option.some.inj h).symm
      rcases isFinal_iff.mp hfinal with rfl | rfl
      · exact ⟨t, t.messagingRequired, [.requestBeep], by simp [onStatus, hsending, hid], rfl,
          Or.inr ⟨Option.some_ne_none _, hne, hsending⟩⟩
      · exact ⟨t, t.messagingRequired, [], by simp [onStatus, hsending, hid], rfl,
          Or.inr ⟨Option.some_ne_none _, hne, hsending⟩⟩

theorem sentIds_callback (effects : List Effect) (callback : Bool) :
    sentIds (effects ++ if callback then [.onStateChanged] else []) = sentIds effects := by
  rw [sentIds, List.filterMap_append]
  cases callback
  · exact List.append_nil _
  · exact List.append_nil _

/-- A status that is not a last one changes nothing. -/
theorem onStatus_of_not_final {id : UInt16} {status : RockStatus}
    (h : isFinal status = false) (t : Transport) :
    onStatus id status t = some (t, t.messagingRequired, []) := by
  cases status with
  | transmitted => cases h
  | error => cases h
  | received => rfl
  | receivedByDevice => rfl
  | queuedForTransmission => rfl
  | pending => rfl
  | transmitting => rfl

theorem observe_eq_some {notification : Notification} {t t' : Transport} {effects : List Effect}
    (h : observe notification t = some (t', effects)) :
    ∃ callback effects', react t notification = some (t', callback, effects') ∧
    sentIds effects = sentIds effects' := by
  obtain ⟨⟨t₁, callback, effects'⟩, hreact, heq⟩ := Option.map_eq_some_iff.mp h
  obtain ⟨rfl, rfl⟩ := Prod.mk.inj heq
  exact ⟨callback, effects', hreact, sentIds_callback effects' _⟩

theorem observe_moves {notification : Notification} {t t' : Transport} {effects : List Effect}
    (h : observe notification t = some (t', effects)) :
    Moves t t' (sentIds effects) (entries (.observe notification) effects) := by
  obtain ⟨callback, effects', hreact, hids⟩ := observe_eq_some h
  -- what is no status of a message changes no field and sends nothing
  have hkeeps : ∀ callback₀ received, sentIds received = [] →
      some (t, callback₀, received) = some (t', callback, effects') →
        Moves t t' (sentIds effects) ((sentIds effects).map .sent) := by
    intro callback₀ received hreceived hreact
    simp only [Option.some.injEq, Prod.mk.injEq] at hreact
    obtain ⟨rfl, -, rfl⟩ := hreact
    rw [hids, hreceived]
    exact .keeps rfl rfl
  cases notification with
  | incoming bytes => exact hkeeps _ _ rfl hreact
  | other => exact hkeeps _ _ rfl hreact
  | outgoing id status =>
    cases status with
    | none => exact hkeeps _ _ rfl hreact
    | some status =>
      change onStatus id status t = some (t', callback, effects') at hreact
      change Moves t t' (sentIds effects) (if isFinal status then [.reported id] else [])
      cases hfinal : isFinal status with
      | false =>
        rw [onStatus_of_not_final hfinal] at hreact
        simp only [Option.some.injEq, Prod.mk.injEq] at hreact
        obtain ⟨rfl, -, rfl⟩ := hreact
        exact .keeps rfl hids
      | true =>
        rcases onStatus_final hfinal t
          with ⟨-, hnone⟩ | ⟨t₁, callback₁, effects₁, hsome, hnone, hmoves⟩
        · rw [hnone] at hreact
          cases hreact
        · rw [hsome] at hreact
          simp only [Option.some.injEq, Prod.mk.injEq] at hreact
          obtain ⟨rfl, -, rfl⟩ := hreact
          rcases hmoves with ⟨hsending, hfree⟩ | ⟨-, hother, hsame⟩
          · exact .settles id hsending hfree (hids.trans hnone)
          · exact .ignores id hother hsame (hids.trans hnone)

theorem step_moves {t t' : Transport} {event : Event} {effects : List Effect}
    (h : step t event = some (t', effects)) :
    Moves t t' (sentIds effects) (entries event effects) := by
  cases event with
  | trySend d fragment id =>
    obtain ⟨rfl, rfl⟩ := Prod.mk.inj (Option.some.inj h)
    exact trySend_moves d fragment id t
  | checkAvailable d =>
    obtain ⟨rfl, rfl⟩ := Prod.mk.inj (Option.some.inj h)
    change Moves t _ (sentIds (checkAvailable d t).2.2)
      ((sentIds (checkAvailable d t).2.2).map .sent)
    rw [sentIds_checkAvailable]
    exact .keeps (checkAvailable_transport d t) rfl
  | done =>
    obtain ⟨rfl, rfl⟩ := Prod.mk.inj (Option.some.inj h)
    have hids : sentIds (done t).2 = [] := by
      rw [done]
      split <;> rfl
    change Moves t _ (sentIds (done t).2) ((sentIds (done t).2).map .sent)
    rw [hids]
    exact .keeps rfl rfl
  | close =>
    obtain ⟨rfl, rfl⟩ := Prod.mk.inj (Option.some.inj h)
    have hids : sentIds (close t).2 = [] := by
      rw [close, done]
      dsimp only
      split <;> rfl
    change Moves t _ (sentIds (close t).2) ((sentIds (close t).2).map .sent)
    rw [hids]
    exact .keeps rfl rfl
  | observe notification => exact observe_moves h

/-- A step throws where a last status finds no message. -/
theorem step_ne_none_iff (t : Transport) (event : Event) : step t event ≠ none ↔
    Timely t event := by
  cases event with
  | observe notification =>
    cases notification with
    | outgoing id status =>
      cases status with
      | none => exact iff_of_true (by simp [step, observe, react]) fun id status h => by cases h
      | some status =>
        have hstep : step t (.observe (.outgoing id (some status))) = none ↔
          onStatus id status t = none :=
          Option.map_eq_none_iff
        have htimely : Timely t (.observe (.outgoing id (some status))) ↔
            (isFinal status = true → t.sendingMsg ≠ none) := by
          refine ⟨fun h => h id status rfl, ?_⟩
          intro h id' status' heq
          cases heq
          exact h
        rw [ne_eq, hstep, htimely]
        cases hfinal : isFinal status with
        | false => simp [onStatus_of_not_final hfinal]
        | true =>
          rcases @onStatus_final id status hfinal t
            with ⟨hfree, hnone⟩ | ⟨t₁, callback, effects, hsome, -, hmoves⟩
          · simp [hfree, hnone]
          · have hsending : t.sendingMsg ≠ none := by
              rcases hmoves with ⟨hcurrent, -⟩ | ⟨hcurrent, -⟩
              · rw [hcurrent]
                exact Option.some_ne_none id
              · exact hcurrent
            simp [hsome, hsending]
    | incoming bytes =>
      exact iff_of_true (by simp [step, observe, react]) fun id status h => by cases h
    | other => exact iff_of_true (by simp [step, observe, react]) fun id status h => by cases h
  | _ => exact iff_of_true (Option.some_ne_none _) fun id status h => by cases h

/-- An entry behind a history: it is the one that is looked at, or comes behind it. -/
theorem split_snoc {history before after : List Entry} {e x : Entry}
    (h : history ++ [e] = before ++ x :: after) :
    after = [] ∧ e = x ∨ ∃ after', after = after' ++ [e] ∧ history = before ++ x :: after' := by
  rcases List.eq_nil_or_concat after with rfl | ⟨after', last, rfl⟩
  · exact Or.inl ⟨rfl, List.singleton_inj.mp (List.append_inj_right' h rfl)⟩
  · rw [List.concat_eq_append, ← List.cons_append, ← List.append_assoc] at h
    obtain ⟨hhistory, hlast⟩ := List.append_inj' h rfl
    exact Or.inr ⟨after', by rw [List.concat_eq_append, List.singleton_inj.mp hlast], hhistory⟩

/-- The messages without a last status are the one that is outstanding, if any. -/
theorem Outstanding.advance {w w' : World} {event : Event} (h : Outstanding w)
    (hadvance : advance w event = some w') : Outstanding w' := by
  obtain ⟨⟨t', effects⟩, hstep, rfl⟩ := Option.map_eq_some_iff.mp hadvance
  have hmoves := step_moves hstep
  intro before k after hsplit
  dsimp only at hsplit ⊢
  generalize entries event effects = new at hmoves hsplit
  cases hmoves with
  | keeps hsame =>
    rw [List.append_nil] at hsplit
    rw [hsame]
    exact h before k after hsplit
  | sends id hfree hsending =>
    rcases split_snoc hsplit with ⟨-, hid⟩ | ⟨after', rfl, hbefore⟩
    · obtain rfl := Entry.sent.inj hid
      exact Or.inr hsending
    · rcases h before k after' hbefore with hreported | hcurrent
      · exact Or.inl (List.mem_append_left _ hreported)
      · rw [hfree] at hcurrent
        cases hcurrent
  | settles id hsending =>
    rcases split_snoc hsplit with ⟨-, hid⟩ | ⟨after', rfl, hbefore⟩
    · cases hid
    · rcases h before k after' hbefore with hreported | hcurrent
      · exact Or.inl (List.mem_append_left _ hreported)
      · rw [hsending] at hcurrent
        obtain rfl := Option.some.inj hcurrent
        exact Or.inl (List.mem_append_right _ (List.mem_singleton_self _))
  | ignores id hother hsame =>
    rcases split_snoc hsplit with ⟨-, hid⟩ | ⟨after', rfl, hbefore⟩
    · cases hid
    · rw [hsame]
      exact (h before k after' hbefore).imp_left (List.mem_append_left _)

theorem Outstanding.run {w w' : World} {events : List Event} (h : Outstanding w)
    (hrun : run w events = some w') :
    Outstanding w' := by
  induction events generalizing w with
  | nil =>
    obtain rfl := Option.some.inj hrun
    exact h
  | cons event rest ih =>
    obtain ⟨w₁, hadvance, hrest⟩ := Option.bind_eq_some_iff.mp hrun
    exact ih (h.advance hadvance) hrest

theorem start_outstanding : Outstanding start := by
  intro before id after hsplit
  exact absurd hsplit (by simp [start])

/-- A step that does not throw is proper. -/
theorem proper_of_timely {w : World} (hw : Outstanding w) {event : Event}
    (h : Timely w.transport event) :
    Proper w event where
  returns := by
    rw [ne_eq, advance, Option.map_eq_none_iff]
    exact (step_ne_none_iff w.transport event).mpr h
  alone := by
    intro t effects hstep hids
    have hmoves := step_moves hstep
    generalize entries event effects = new at hmoves
    cases hmoves with
    | sends id hfree =>
      intro before k after hsplit
      refine (hw before k after hsplit).resolve_right ?_
      rw [hfree]
      exact fun h => by cases h
    | settles id _ _ hnone => exact absurd hnone hids
    | ignores id _ _ hnone => exact absurd hnone hids
    | keeps _ hnone => exact absurd hnone hids
  free := by
    intro t effects hstep hsettles d hd
    refine checkAvailable_usable hd ?_
    obtain ⟨id, status, rfl, hfinal, hcurrent⟩ := hsettles
    have hmoves := step_moves hstep
    have hentries : entries (.observe (.outgoing id (some status))) effects = [.reported id] :=
      if_pos hfinal
    rw [hentries] at hmoves
    cases hmoves with
    | settles _ _ hfree => exact hfree
    | ignores _ hother => exact absurd hcurrent hother

/-- In a run from the start every event is proper where every last status comes while
a message is outstanding. -/
theorem proper_iff_timely (events : List Event) :
    (∀ before event after w, events = before ++ event :: after →
      run start before = some w → Proper w event) ↔
    ∀ before event after w, events = before ++ event :: after → run start before = some w →
      Timely w.transport event := by
  constructor
  · intro h before event after w hsplit hrun
    have hreturns := (h before event after w hsplit hrun).returns
    rw [ne_eq, advance, Option.map_eq_none_iff] at hreturns
    exact (step_ne_none_iff w.transport event).mp hreturns
  · intro h before event after w hsplit hrun
    exact proper_of_timely (start_outstanding.run hrun) (h before event after w hsplit hrun)

def usableDevice : Device :=
  ⟨true, true, true, true, false, false, true, some .unlocked, true, false⟩

def someFragment : Fragment := ⟨[1, 2, 3], none, 7, 0, ByteBuffers.ByteBuffer.wrap [1, 2, 3]⟩

/-- The transmitted status of a message is delivered twice. -/
theorem repeated_status_throws : ¬ ∀ (events before : List Event) (event : Event)
    (after : List Event) (w : World),
    events = before ++ event :: after → run start before = some w → Proper w event := by
  intro h
  have hproper :=
    h [.trySend usableDevice someFragment 7, .observe (.outgoing 7 (some .transmitted)),
    .observe (.outgoing 7 (some .transmitted))]
    [.trySend usableDevice someFragment 7, .observe (.outgoing 7 (some .transmitted))]
    (.observe (.outgoing 7 (some .transmitted))) []
      ⟨⟨true, false, none, none⟩, [.sent 7, .reported 7]⟩ rfl rfl
  exact hproper.returns rfl

end Succinct.RockStatuses
