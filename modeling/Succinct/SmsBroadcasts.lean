import Succinct.FragmentDelivery

/-!
SMSTransport.java. A fragment is sent in the parts that divideMessage returns, and the
phone reports each part with the intent that was made for it. The settings, the
permission and the SIM card are arguments, and so is what the text of a fragment is
divided into.
-/
namespace Succinct.SmsBroadcasts

open ByteBuffers MessageQueue FragmentDelivery

structure SentIntent where
  seq : ℤ
  part : ℤ
  parts : ℤ
  deriving DecidableEq

structure Phone where
  enableSms : Bool
  destinationNumber : Option String
  granted : Bool
  simReady : Bool

structure Transport where
  airplaneMode : Bool
  sending : Option Fragment

def checkAvailable (phone : Phone) (t : Transport) : Status :=
  if !phone.enableSms then .UNAVAILABLE
  else if phone.destinationNumber = none ∨ phone.destinationNumber = some "" then .UNAVAILABLE
  else if !phone.granted then .UNAVAILABLE
  else if t.airplaneMode then .UNAVAILABLE
  else if !phone.simReady then .UNAVAILABLE
  else if t.sending.isSome then .BUSY
  else .SUCCESS

def fragmentSeq (fragment : Fragment) : ℤ := asInt fragment.seq.toNat

def sentIntents (fragment : Fragment) (parts : ℕ) : List SentIntent :=
  (List.range parts).map fun (i : ℕ) => ⟨fragmentSeq fragment, i, parts⟩

def trySend (phone : Phone) (divideMessage : List UInt8 → ℕ)
    (fragment : Fragment) (t : Transport) :
    Status × List SentIntent × Transport :=
  let available := checkAvailable phone t
  if available ≠ .SUCCESS then (available, [], t)
  else (.SUCCESS, sentIntents fragment (divideMessage fragment.bytes),
    { t with sending := some fragment })

def onSent (intent : SentIntent) (ok : Bool) (t : Transport) : Transport :=
  match t.sending with
  | none => t
  | some fragment =>
    if intent.seq = fragmentSeq fragment ∧ intent.part = intent.parts ∧ ok = true
      then { t with sending := none } else t

inductive Event where
  | sent (intent : SentIntent) (ok : Bool)
  | airplaneMode (state : Bool)
  | trySend (phone : Phone) (fragment : Fragment)

section Runs

variable (divideMessage : List UInt8 → ℕ)

def step (t : Transport) : Event → Transport
  | .sent intent ok => onSent intent ok t
  | .airplaneMode state => { t with airplaneMode := state }
  | .trySend phone fragment => (SmsBroadcasts.trySend phone divideMessage fragment t).2.2

def run (t : Transport) (events : List Event) : Transport := events.foldl (step divideMessage) t

def broadcasts (events : List Event) : List (SentIntent × Bool) :=
  events.filterMap fun
    | .sent intent ok => some (intent, ok)
    | _ => none

/-- The parts of the fragment are reported as sent, and besides them parts of fragments
from before. -/
def Reports (fragment : Fragment) (earlier : List Fragment) (events : List Event) : Prop :=
  ∃ old : List (SentIntent × Bool),
    (∀ b ∈ old, ∃ f ∈ earlier, b.1 ∈ sentIntents f (divideMessage f.bytes)) ∧
    (broadcasts events).Perm
      ((sentIntents fragment (divideMessage fragment.bytes)).map
        (fun intent => (intent, true)) ++ old)

/-- The fragment is held until a broadcast for it comes, and not behind the last one. -/
def Frees (phone : Phone) (fragment : Fragment) (t : Transport) (events : List Event) : Prop :=
  (run divideMessage t events).sending = none ∧
    checkAvailable phone (run divideMessage t events) ≠ .BUSY ∧
    ∀ before after, events = before ++ after →
      (∀ b ∈ broadcasts before, b.1 ∉ sentIntents fragment (divideMessage fragment.bytes)) →
      (run divideMessage t before).sending = some fragment

variable {divideMessage}

/-- The parts are counted from 0, so that none of them has the number of parts. -/
theorem part_ne_parts {fragment : Fragment} {parts : ℕ} {intent : SentIntent}
    (h : intent ∈ sentIntents fragment parts) : intent.part ≠ intent.parts := by
  obtain ⟨i, hi, rfl⟩ := List.mem_map.mp h
  have hlt := List.mem_range.mp hi
  change (i : ℤ) ≠ (parts : ℤ)
  omega

theorem onSent_of_ne {intent : SentIntent} (h : intent.part ≠ intent.parts)
    (ok : Bool) (t : Transport) :
    onSent intent ok t = t := by
  rw [onSent]
  split
  · rfl
  · exact if_neg fun hcond => h hcond.2.1

theorem trySend_of_busy (phone : Phone) (fragment : Fragment) {t : Transport}
    (h : t.sending ≠ none) :
    (trySend phone divideMessage fragment t).2.2 = t := by
  have hbusy : checkAvailable phone t ≠ .SUCCESS := by
    rw [checkAvailable, Option.isSome_iff_ne_none.mpr h]
    split_ifs <;> simp_all
  rw [trySend, if_pos hbusy]

theorem step_sending {t : Transport} {event : Event} (hsending : t.sending ≠ none)
    (hparts : ∀ intent ok, event = .sent intent ok → intent.part ≠ intent.parts) :
    (step divideMessage t event).sending = t.sending := by
  cases event with
  | sent intent ok => rw [step, onSent_of_ne (hparts intent ok rfl)]
  | airplaneMode state => rfl
  | trySend phone fragment => rw [step, trySend_of_busy phone fragment hsending]

/-- No broadcast of a part ends the sending. -/
theorem run_sending {t : Transport} {events : List Event} (hsending : t.sending ≠ none)
    (hparts : ∀ b ∈ broadcasts events, b.1.part ≠ b.1.parts) :
    (run divideMessage t events).sending = t.sending := by
  induction events generalizing t with
  | nil => rfl
  | cons event rest ih =>
    have hhere : ∀ intent ok, event = .sent intent ok → intent.part ≠ intent.parts := by
      rintro intent ok rfl
      exact hparts (intent, ok) List.mem_cons_self
    have hstep := @step_sending divideMessage t event hsending hhere
    rw [run, List.foldl_cons, ← run, ih (hstep ▸ hsending), hstep]
    intro b hb
    refine hparts b ?_
    rw [broadcasts, List.filterMap_cons]
    split
    · exact hb
    · exact List.mem_cons_of_mem _ hb

theorem Reports.parts {fragment : Fragment} {earlier : List Fragment} {events : List Event}
    (h : Reports divideMessage fragment earlier events) : ∀ b ∈ broadcasts events,
    b.1.part ≠ b.1.parts := by
  obtain ⟨old, hold, hperm⟩ := h
  intro b hb
  rcases List.mem_append.mp (hperm.mem_iff.mp hb) with hnew | hearlier
  · obtain ⟨intent, hintent, rfl⟩ := List.mem_map.mp hnew
    exact part_ne_parts hintent
  · obtain ⟨f, -, hintent⟩ := hold b hearlier
    exact part_ne_parts hintent

end Runs

/-- However the parts are reported, the transport goes on sending the fragment. -/
theorem never_free (divideMessage : List UInt8 → ℕ) (phone : Phone) (fragment : Fragment)
    (t : Transport) (hsent : (trySend phone divideMessage fragment t).1 = .SUCCESS)
    (earlier : List Fragment) (events : List Event)
    (hreports : Reports divideMessage fragment earlier events) :
    ¬ Frees divideMessage phone fragment (trySend phone divideMessage fragment t).2.2 events := by
  have hsending : (trySend phone divideMessage fragment t).2.2.sending = some fragment := by
    rw [trySend] at hsent ⊢
    split
    case isTrue hbusy =>
      rw [if_pos hbusy] at hsent
      exact absurd hsent hbusy
    case isFalse =>
      rfl
  rintro ⟨hnull, -, -⟩
  rw [run_sending (by rw [hsending]; exact Option.some_ne_none fragment) hreports.parts,
    hsending] at hnull
  cases hnull

def shortFragment : Fragment := ⟨[1, 2, 3], none, 7, 0, ByteBuffer.wrap [1, 2, 3]⟩

def readyPhone : Phone := ⟨true, some "100", true, true⟩

theorem shortFragment_reports : Reports (fun _ => 1) shortFragment [] [.sent ⟨7, 0, 1⟩ true] :=
  ⟨[], by simp, List.Perm.refl _⟩

theorem never_free_single : ¬ Frees (fun _ => 1) readyPhone shortFragment
    (trySend readyPhone (fun _ => 1) shortFragment ⟨false, none⟩).2.2 [.sent ⟨7, 0, 1⟩ true] :=
  never_free (fun _ => 1) readyPhone shortFragment ⟨false, none⟩ (by decide)
    [] _ shortFragment_reports

/-- One part, and the broadcast for it. -/
theorem single_part_busy : ¬ ∀ (divideMessage : List UInt8 → ℕ) (phone : Phone)
    (fragment : Fragment) (t : Transport),
    (trySend phone divideMessage fragment t).1 = .SUCCESS → 1 ≤ divideMessage fragment.bytes →
    ∀ (earlier : List Fragment) (events : List Event),
    Reports divideMessage fragment earlier events →
      Frees divideMessage phone fragment (trySend phone divideMessage fragment t).2.2 events := by
  intro h
  have hfrees :=
    h (fun _ => 1) readyPhone shortFragment ⟨false, none⟩ (by decide) le_rfl
      [] _ shortFragment_reports
  have hnull : (run (fun _ => 1) (trySend readyPhone (fun _ => 1) shortFragment ⟨false, none⟩).2.2
      [.sent ⟨7, 0, 1⟩ true]).sending.isSome = false := by
    rw [hfrees.1]
    rfl
  exact absurd hnull (by decide)

end Succinct.SmsBroadcasts
