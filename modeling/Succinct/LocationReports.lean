import Succinct.QueueWatchers

/-!
LocationQueueWatcher.java. The watcher jumps to the last record of a file, and
puts the locations of all queued peers into one message. What create and
packLatLngAcc make of a record, its time and six bytes, is a parameter: they
calculate with floating point.

A location that was put into a message is known by its peer and the offset of
its record.
-/
namespace Succinct.LocationReports

open RecordIterators Memberships MemberEnrolments QueueWatchers
open MessageQueue (PeerId)

structure Entry where
  peer : PeerId
  offset : ℤ
  bytes : List UInt8
  deriving DecidableEq

structure Locations where
  now : ℤ
  nextLocationMessage : ℤ
  serialiser : List Entry
  messages : List (List Entry)

section Watcher

variable (t : Tables) (describe : List UInt8 → Option (ℤ × List UInt8)) (epoc delay : ℤ)

def findNext (x : Locations) (file : List UInt8) (it : Iterator) :
    Option (Bool × Iterator × Locations) :=
  if it.offset = file.length then some (false, it, x)
  else
    match prev file (atEnd file) with
    | none => none
    | some (false, it) => some (false, it, x)
    | some (true, it) =>
      some (true, it, if x.now - x.nextLocationMessage > delay then
        { x with nextLocationMessage := x.now + 1000 } else x)

/-- None: an exception of create, of packLatLngAcc, or of a full buffer. -/
def generateMessage (x : Locations) (peer : PeerId) (file : List UInt8) (it : Iterator) :
    Option (Bool × Locations) :=
  match read file it with
  | some (some record) => do
    let (time, packed) ← describe record
    let position ← getPosition t peer
    let bytes := UInt8.ofNat position :: timeBytes time epoc ++ packed
    if (x.serialiser.flatMap Entry.bytes).length + bytes.length ≤ CAPACITY then
      some (false, { x with serialiser := x.serialiser ++ [⟨peer, it.offset, bytes⟩] })
    else none
  | _ => none

def locationWatcher : Watcher Locations where
  findNext x _ file it := findNext delay x file it
  generateMessage x peer file it := generateMessage t describe epoc x peer file it

def hasMessage (q : Queue Locations) : Bool :=
  !q.queue.isEmpty && decide (q.inner.now ≥ q.inner.nextLocationMessage)

def nextMessage (order : List PeerId) (q : Queue Locations) : Option Bool × Queue Locations :=
  if !hasMessage q then (some false, q)
  else
    let (result, q) := QueueWatchers.nextMessage (locationWatcher t describe epoc delay) t order
      { q with inner := { q.inner with serialiser := [] } }
    match result with
    | none => (none, q)
    | some _ =>
      if q.inner.serialiser = [] then (some false, q)
      else (some true, { q with inner :=
        { q.inner with messages := q.inner.messages ++ [q.inner.serialiser]
                       nextLocationMessage := q.inner.now + delay } })

inductive Event where
  | append (peer : PeerId) (record : List UInt8) (h : record.length + 8 < 2147483648)
  | visit (peer : PeerId)
  | tick (milliseconds : ℕ)
  | nextMessage (order : List PeerId)

def step (q : Queue Locations) : Event → Queue Locations
  | .append peer record h =>
    { q with files := Function.update q.files peer ((q.files peer).append record h) }
  | .visit peer => visit (locationWatcher t describe epoc delay) q peer
  | .tick milliseconds => { q with inner := { q.inner with now := q.inner.now + milliseconds } }
  | .nextMessage order => (nextMessage t describe epoc delay order q).2

def run (q : Queue Locations) (events : List Event) : Queue Locations :=
  events.foldl (step t describe epoc delay) q

def newWatcher (now : ℤ) : Queue Locations := ⟨fun _ => newFile, [], ⟨now, -1, [], []⟩⟩

def lastOf (records : List (List UInt8)) : ℤ := startOf records (records.length - 1)

/-- When a message is due, every queued peer that has been in a message has got
a location since. -/
def Fresh (q : Queue Locations) : Event → Prop
  | .nextMessage _ => hasMessage q = true → ∀ entry ∈ q.inner.messages.flatten,
      entry.peer ∈ q.queue.map Prod.fst → entry.offset ≠ lastOf (q.files entry.peer).records
  | _ => True

def made (q : Queue Locations) (e : Event) : List Entry :=
  ((step t describe epoc delay q e).inner.messages.drop q.inner.messages.length).flatten

def Along (P : Queue Locations → Event → Prop) : Queue Locations → List Event → Prop
  | _, [] => True
  | q, e :: rest => P q e ∧ Along P (step t describe epoc delay q e) rest

end Watcher

def Increasing (entries : List Entry) : Prop :=
  entries.Pairwise fun a b => a.peer = b.peer → a.offset < b.offset

section Runs

variable {t : Tables} {describe : List UInt8 → Option (ℤ × List UInt8)} {epoc delay : ℤ}

structure Puts (x x' : Locations) (new : List Entry) : Prop where
  messages : x'.messages = x.messages
  serialiser : x'.serialiser = x.serialiser ++ new

theorem Puts.refl (x : Locations) : Puts x x [] := ⟨rfl, (List.append_nil _).symm⟩

theorem Puts.trans {x x' x'' : Locations} {new new' : List Entry} (h : Puts x x' new)
    (h' : Puts x' x'' new') : Puts x x'' (new ++ new') := by
  refine ⟨h'.messages.trans h.messages, ?_⟩
  rw [h'.serialiser, h.serialiser, List.append_assoc]

/-- findNext goes to the last record. -/
theorem findNext_cases {records : List (List UInt8)} (hsized : Sized records) (x : Locations)
    (it : Iterator) {found : Bool} {it' : Iterator} {x' : Locations}
    (h : findNext delay x (fileOf records) it = some (found, it', x')) :
    Puts x x' [] ∧ (found = true → records ≠ [] ∧ it'.offset = lastOf records) := by
  rw [findNext] at h
  split at h
  · obtain ⟨rfl, -, rfl⟩ := Prod.mk.inj (Option.some.inj h) |>.imp id Prod.mk.inj
    exact ⟨Puts.refl _, fun hfalse => by cases hfalse⟩
  · rw [prev_spec hsized (atEnd (fileOf records)) records.length (Nat.le_refl _)
      (by rw [startOf_length]; rfl)] at h
    by_cases hempty : records.length = 0
    · rw [if_pos hempty] at h
      dsimp only at h
      obtain ⟨rfl, -, rfl⟩ := Prod.mk.inj (Option.some.inj h) |>.imp id Prod.mk.inj
      exact ⟨Puts.refl _, fun hfalse => by cases hfalse⟩
    · rw [if_neg hempty] at h
      dsimp only at h
      obtain ⟨-, rfl, rfl⟩ := Prod.mk.inj (Option.some.inj h) |>.imp id Prod.mk.inj
      refine ⟨?_, fun _ => ⟨fun hnil => hempty (by rw [hnil]; rfl), rfl⟩⟩
      split
      · exact ⟨rfl, (List.append_nil _).symm⟩
      · exact Puts.refl _

theorem generateMessage_cases {x : Locations} {peer : PeerId} {file : List UInt8} {it : Iterator}
    {done : Bool} {x' : Locations}
    (h : generateMessage t describe epoc x peer file it = some (done, x')) :
    done = false ∧ ∃ bytes, Puts x x' [⟨peer, it.offset, bytes⟩] := by
  rw [generateMessage] at h
  split at h
  · simp only [Option.bind_eq_bind, Option.bind_eq_some_iff, Option.ite_none_right_eq_some,
      Option.some.injEq, Prod.mk.injEq] at h
    obtain ⟨described, -, position, -, -, rfl, rfl⟩ := h
    exact ⟨rfl, _, rfl, rfl⟩
  · cases h

structure Turned (peer : PeerId) (f : PeerFile) (x : Locations)
    (turn : Turn Locations) : Prop where
  result : turn.result ≠ some true
  records : turn.file.records = f.records
  puts : ∃ new, Puts x turn.inner new ∧
    (new = [] ∨ ∃ bytes, new = [⟨peer, lastOf f.records, bytes⟩] ∧
    f.records ≠ [])

theorem Turned.unchanged {peer : PeerId} {f : PeerFile} {x x' : Locations} {result : Option Bool}
    {kept : Option Iterator} (h : Puts x x' []) (hresult : result ≠ some true) :
    Turned peer f x ⟨result, kept, f, x'⟩ := ⟨hresult, rfl, [], h, Or.inl rfl⟩

theorem sendFrom_turned (peer : PeerId) (f : PeerFile) (x : Locations) (it : Iterator) :
    Turned peer f x (sendFrom (locationWatcher t describe epoc delay) x peer f it) := by
  rw [sendFrom, locationWatcher]
  dsimp only
  cases hfirst : findNext delay x f.file it with
  | none => exact .unchanged (Puts.refl x) (by decide)
  | some found =>
    obtain ⟨found, it₁, x₁⟩ := found
    obtain ⟨hputs₁, hfound⟩ := findNext_cases f.sized x it hfirst
    cases found with
    | false => exact .unchanged hputs₁ (by decide)
    | true =>
      obtain ⟨hne, hoffset⟩ := hfound rfl
      dsimp only
      cases hgenerate : generateMessage t describe epoc x₁ peer f.file it₁ with
      | none => exact .unchanged hputs₁ (by decide)
      | some generated =>
        obtain ⟨done, x₂⟩ := generated
        obtain ⟨rfl, bytes, hputs₂⟩ := generateMessage_cases hgenerate
        rw [hoffset] at hputs₂
        have hputs := hputs₁.trans hputs₂
        have hentry : ∃ b, [] ++ [Entry.mk peer (lastOf f.records) bytes] =
            [⟨peer, lastOf f.records, b⟩] ∧ f.records ≠ [] := ⟨bytes, rfl, hne⟩
        dsimp only
        cases hsecond : findNext delay x₂ f.file it₁ with
        | none => exact ⟨by simp, rfl, _, hputs, Or.inr hentry⟩
        | some found =>
          obtain ⟨more, it₃, x₃⟩ := found
          obtain ⟨hputs₃, -⟩ := findNext_cases f.sized x₂ it₁ hsecond
          refine ⟨by simp, setMark_records _ _, _, hputs.trans hputs₃, Or.inr ?_⟩
          exact hentry

theorem entryTurn_turned (peer : PeerId) (f : PeerFile) (x : Locations) (it : Iterator) :
    Turned peer f x (entryTurn (locationWatcher t describe epoc delay) t x peer f it) := by
  rw [entryTurn]
  split
  · exact .unchanged (Puts.refl x) (by decide)
  split
  · exact .unchanged (Puts.refl x) (by decide)
  split
  · exact .unchanged (Puts.refl x) (by decide)
  split
  · exact .unchanged (Puts.refl x) (by decide)
  · exact sendFrom_turned peer f x _

structure Swept (entries : List (PeerId × Iterator)) (files : PeerId → PeerFile) (x : Locations)
    (q : Queue Locations) : Prop where
  records : ∀ p, (q.files p).records = (files p).records
  queue : (q.queue.map Prod.fst).Sublist (entries.map Prod.fst)
  puts : ∃ new, Puts x q.inner new ∧ (new.map Entry.peer).Sublist (entries.map Prod.fst) ∧
    ∀ entry ∈ new, entry.offset = lastOf (files entry.peer).records ∧
      (files entry.peer).records ≠ []

theorem kept_sublist (kept : Option Iterator) (peer : PeerId) :
    ((kept.toList.map fun it => (peer, it)).map Prod.fst).Sublist [peer] := by
  cases kept with
  | none => exact List.nil_sublist _
  | some it => exact List.Sublist.refl _

theorem put_records {files : PeerId → PeerFile} {peer : PeerId} {f : PeerFile}
    (h : f.records = (files peer).records) (p : PeerId) :
    (Function.update files peer f p).records = (files p).records := by
  by_cases heq : p = peer
  · subst heq
    rw [Function.update_self]
    exact h
  · rw [Function.update_of_ne heq]

theorem sendLoop_swept (entries : List (PeerId × Iterator)) (files : PeerId → PeerFile)
    (x : Locations) :
    Swept entries files x (sendLoop (locationWatcher t describe epoc delay) t
      entries files x).2 := by
  induction entries generalizing files x with
  | nil => exact ⟨fun _ => rfl, List.Sublist.refl _, [], Puts.refl x, List.nil_sublist _, by simp⟩
  | cons entry rest ih =>
    obtain ⟨peer, it⟩ := entry
    have hturn : Turned peer (files peer) x
        (entryTurn (locationWatcher t describe epoc delay) t x peer (files peer) it) :=
      entryTurn_turned peer (files peer) x it
    rw [sendLoop]
    generalize entryTurn (locationWatcher t describe epoc delay) t x peer
      (files peer) it = turn at hturn
    obtain ⟨result, kept, file, inner⟩ := turn
    obtain ⟨hresult, hrecords, new, hputs, hnew⟩ := hturn
    dsimp only at hresult hrecords hputs hnew ⊢
    have hkeys : (new.map Entry.peer).Sublist [peer] := by
      rcases hnew with rfl | ⟨bytes, rfl, -⟩
      · exact List.nil_sublist _
      · exact List.Sublist.refl _
    have hoffsets : ∀ entry ∈ new, entry.offset = lastOf (files entry.peer).records ∧
        (files entry.peer).records ≠ [] := by
      intro entry hentry
      rcases hnew with rfl | ⟨bytes, rfl, hne⟩
      · exact absurd hentry List.not_mem_nil
      · rw [List.mem_singleton.mp hentry]
        exact ⟨rfl, hne⟩
    have hkept := kept_sublist kept peer
    cases result with
    | none =>
      refine ⟨put_records hrecords, ?_, new, hputs, ?_, hoffsets⟩
      · rw [List.map_append]
        exact hkept.append (List.Sublist.refl _)
      · exact hkeys.trans (List.singleton_sublist.mpr List.mem_cons_self)
    | some done =>
      cases done with
      | true => exact absurd rfl hresult
      | false =>
        obtain ⟨hrecords', hqueue', new', hputs', hkeys', hoffsets'⟩ :=
          ih (Function.update files peer file) inner
        refine ⟨?_, ?_, new ++ new', hputs.trans hputs', ?_, ?_⟩
        · intro p
          exact (hrecords' p).trans (put_records hrecords p)
        · dsimp only
          rw [List.map_append]
          exact hkept.append hqueue'
        · rw [List.map_append]
          exact hkeys.append hkeys'
        · intro entry hentry
          rcases List.mem_append.mp hentry with hold | hnew'
          · exact hoffsets entry hold
          · have hlast := hoffsets' entry hnew'
            rw [put_records hrecords] at hlast
            exact hlast

/-- The invariant of a run: each queued peer once, and each location in a
message is a record of its file. -/
structure Reported (q : Queue Locations) : Prop where
  nodup : (q.queue.map Prod.fst).Nodup
  increasing : Increasing q.inner.messages.flatten
  recorded : ∀ entry ∈ q.inner.messages.flatten, ∃ k < (q.files entry.peer).records.length,
    entry.offset = startOf (q.files entry.peer).records k

theorem arrange_nodup (order : List PeerId) {queue : List (PeerId × Iterator)}
    (h : (queue.map Prod.fst).Nodup) : ((arrange order queue).map Prod.fst).Nodup := by
  have hfirst : (order.dedup.filterMap fun peer =>
    queue.find? fun entry => decide (entry.1 = peer)).map
      Prod.fst = order.dedup.filter fun peer => decide (peer ∈ queue.map Prod.fst) := by
    generalize order.dedup = peers
    induction peers with
    | nil => rfl
    | cons peer rest ih =>
      cases hfind : queue.find? fun entry => decide (entry.1 = peer) with
      | none =>
        have hout : peer ∉ queue.map Prod.fst := by
          intro hmem
          obtain ⟨entry, hentry, heq⟩ := List.mem_map.mp hmem
          exact List.find?_eq_none.mp hfind entry hentry (decide_eq_true heq)
        simp only [List.filterMap_cons, hfind]
        rw [ih, List.filter_cons_of_neg (by simpa using hout)]
      | some entry =>
        have heq := List.find?_some hfind
        rw [decide_eq_true_eq] at heq
        have hin : peer ∈ queue.map Prod.fst := by
          rw [← heq]
          exact List.mem_map_of_mem (List.mem_of_find?_eq_some hfind)
        simp only [List.filterMap_cons, hfind]
        rw [List.map_cons, ih, heq, List.filter_cons_of_pos (by simpa using hin)]
  rw [arrange, List.map_append, hfirst]
  refine List.Nodup.append ((List.nodup_dedup order).filter _) ?_ ?_
  · exact h.sublist (List.filter_sublist.map _)
  · intro peer hp hq
    obtain ⟨entry, hentry, rfl⟩ := List.mem_map.mp hq
    have hout := of_decide_eq_true (List.mem_filter.mp hentry).2
    exact hout (List.mem_dedup.mp (List.mem_of_mem_filter hp))

theorem Reported.of_records {q q' : Queue Locations} (h : Reported q)
    (hrecords : ∀ p, (q.files p).records <+: (q'.files p).records)
    (hmessages : q'.inner.messages = q.inner.messages) (hnodup : (q'.queue.map Prod.fst).Nodup) :
    Reported q' := by
  refine ⟨hnodup, ?_, ?_⟩
  · rw [hmessages]
    exact h.increasing
  · intro entry hentry
    rw [hmessages] at hentry
    obtain ⟨k, hk, hoffset⟩ := h.recorded entry hentry
    obtain ⟨more, hmore⟩ := hrecords entry.peer
    rw [← hmore]
    refine ⟨k, Nat.lt_of_lt_of_le hk (List.prefix_append _ _).length_le, ?_⟩
    rw [startOf_append _ _ k (Nat.le_of_lt hk)]
    exact hoffset

theorem append_records (files : PeerId → PeerFile) (peer : PeerId) (record : List UInt8)
    (hr : record.length + 8 < 2147483648) (p : PeerId) :
    (files p).records <+: (Function.update files peer
      ((files peer).append record hr) p).records := by
  by_cases heq : p = peer
  · subst heq
    rw [Function.update_self]
    exact List.prefix_append _ _
  · rw [Function.update_of_ne heq]

theorem Reported.visit {q : Queue Locations} (h : Reported q) (peer : PeerId) :
    Reported (visit (locationWatcher t describe epoc delay) q peer) := by
  rw [QueueWatchers.visit]
  cases heq : reset (q.files peer).file (q.files peer).sent with
  | none =>
    exact h
  | some it =>
    dsimp only
    have hwatcher : (locationWatcher t describe epoc delay).findNext q.inner peer
      (q.files peer).file it =
        findNext delay q.inner (q.files peer).file it := rfl
    rw [hwatcher]
    cases hfind : findNext delay q.inner (q.files peer).file it with
    | none => exact h
    | some found =>
      obtain ⟨found, it', x'⟩ := found
      obtain ⟨hputs, -⟩ := findNext_cases (q.files peer).sized q.inner it hfind
      cases found with
      | false => exact h.of_records (fun _ => List.prefix_rfl) hputs.messages h.nodup
      | true =>
        refine h.of_records (fun _ => List.prefix_rfl) hputs.messages ?_
        dsimp only
        by_cases hcontains : contains q peer = true
        · rw [if_pos hcontains]
          exact h.nodup
        · rw [if_neg hcontains]
          rw [List.map_append]
          refine List.Nodup.append h.nodup (List.nodup_singleton _) ?_
          intro p hp hpeer
          rw [List.mem_singleton.mp hpeer] at hp
          obtain ⟨entry, hentry, heq⟩ := List.mem_map.mp hp
          exact hcontains (List.any_eq_true.mpr ⟨entry, hentry, decide_eq_true heq⟩)

/-- Entries for different peers, each later than what the messages have. -/
theorem Reported.extend {q : Queue Locations} (h : Reported q) (new : List Entry)
    (hnodup : (new.map Entry.peer).Nodup)
    (hlast : ∀ entry ∈ new, entry.offset = lastOf (q.files entry.peer).records ∧
      (q.files entry.peer).records ≠ [])
    (hfresh : ∀ old ∈ q.inner.messages.flatten, old.peer ∈ new.map Entry.peer →
      old.offset ≠ lastOf (q.files old.peer).records) :
    Increasing (q.inner.messages ++ [new]).flatten ∧
      ∀ entry ∈ (q.inner.messages ++ [new]).flatten, ∃ k < (q.files entry.peer).records.length,
        entry.offset = startOf (q.files entry.peer).records k := by
  rw [List.flatten_append, List.flatten_singleton]
  constructor
  · refine List.pairwise_append.mpr ⟨h.increasing, ?_, ?_⟩
    · rw [List.nodup_iff_pairwise_ne, List.pairwise_map] at hnodup
      exact hnodup.imp fun hne heq => absurd heq hne
    · intro old hold entry hentry hpeer
      obtain ⟨k, hk, hoffset⟩ := h.recorded old hold
      obtain ⟨hend, -⟩ := hlast entry hentry
      have hne := hfresh old hold (by rw [hpeer]; exact List.mem_map_of_mem hentry)
      rw [lastOf, hoffset] at hne
      rw [hoffset, hend, lastOf, ← hpeer]
      have hk' : k < (q.files old.peer).records.length - 1 := by
        have hkne : k ≠ (q.files old.peer).records.length - 1 := fun heq => hne (by rw [heq])
        omega
      exact_mod_cast startOf_lt _ hk' (Nat.sub_le _ _)
  · intro entry hentry
    rcases List.mem_append.mp hentry with hold | hnew
    · exact h.recorded entry hold
    · obtain ⟨hend, hne⟩ := hlast entry hnew
      have hpos := List.length_pos_iff.mpr hne
      exact ⟨_, Nat.sub_lt hpos Nat.one_pos, hend⟩

/-- What nextMessage does to the messages: nothing, or it is due and adds one, with the last
records of queued peers, each peer once. -/
inductive Added (q : Queue Locations) : List (List Entry) → Prop
  | none : Added q []
  | one (new : List Entry) (hdue : hasMessage q = true) (hnodup : (new.map Entry.peer).Nodup)
      (hqueued : ∀ entry ∈ new, entry.peer ∈ q.queue.map Prod.fst)
      (hlast : ∀ entry ∈ new, entry.offset = lastOf (q.files entry.peer).records ∧
        (q.files entry.peer).records ≠ []) : Added q [new]

structure Sends (q q' : Queue Locations) : Prop where
  records : ∀ p, (q'.files p).records = (q.files p).records
  nodup : (q'.queue.map Prod.fst).Nodup
  messages : ∃ new, q'.inner.messages = q.inner.messages ++ new ∧ Added q new

theorem nextMessage_sends {q : Queue Locations} (h : (q.queue.map Prod.fst).Nodup)
    (order : List PeerId) : Sends q (nextMessage t describe epoc delay order q).2 := by
  rw [LocationReports.nextMessage]
  by_cases hhas : hasMessage q = true
  · rw [hhas, if_neg (by decide)]
    have hswept : Swept (arrange order q.queue) q.files { q.inner with serialiser := [] }
        (QueueWatchers.nextMessage (locationWatcher t describe epoc delay) t order
          { q with inner := { q.inner with serialiser := [] } }).2 := sendLoop_swept _ _ _
    generalize QueueWatchers.nextMessage (locationWatcher t describe epoc delay) t order
      { q with inner := { q.inner with serialiser := [] } } = result at hswept
    obtain ⟨result, q'⟩ := result
    obtain ⟨hrecords, hqueue, new, hputs, hkeys, hlast⟩ := hswept
    dsimp only at hrecords hqueue hputs
    have hnodup := arrange_nodup order h
    have hserialiser : q'.inner.serialiser = new := hputs.serialiser
    have hsame : Sends q q' :=
      ⟨hrecords, hnodup.sublist hqueue, [], by rw [List.append_nil]; exact hputs.messages, .none⟩
    cases result with
    | none => exact hsame
    | some done =>
      dsimp only
      by_cases hempty : q'.inner.serialiser = []
      · rw [if_pos hempty]
        exact hsame
      · rw [if_neg hempty, hserialiser]
        refine ⟨hrecords, hsame.nodup, [new], by rw [hputs.messages], ?_⟩
        refine .one new hhas (hnodup.sublist hkeys) ?_ hlast
        intro entry hentry
        exact (mem_arrange order q.queue entry.peer).mp
          (hkeys.subset (List.mem_map_of_mem hentry))
  · rw [Bool.not_eq_true] at hhas
    rw [hhas, Bool.not_false, if_pos rfl]
    exact ⟨fun _ => rfl, h, [], (List.append_nil _).symm, .none⟩

theorem Reported.nextMessage {q : Queue Locations} (h : Reported q) (order : List PeerId)
    (hfresh : Fresh q (.nextMessage order)) :
    Reported (nextMessage t describe epoc delay order q).2 := by
  obtain ⟨hrecords, hnodup, added, hmessages, hadded⟩ :=
    @nextMessage_sends t describe epoc delay q h.nodup order
  cases hadded with
  | none =>
    refine h.of_records (fun p => ?_) (hmessages.trans (List.append_nil _)) hnodup
    rw [hrecords p]
  | one new hdue hpeers hqueued hlast =>
    obtain ⟨hincreasing, hrecorded⟩ := h.extend new hpeers hlast (by
      intro old hold hpeer
      obtain ⟨entry, hentry, heq⟩ := List.mem_map.mp hpeer
      exact hfresh hdue old hold (heq ▸ hqueued entry hentry))
    refine ⟨hnodup, ?_, ?_⟩
    · rw [hmessages]
      exact hincreasing
    · intro entry hentry
      rw [hmessages] at hentry
      rw [hrecords]
      exact hrecorded entry hentry

theorem visit_messages (q : Queue Locations) (peer : PeerId) :
    (visit (locationWatcher t describe epoc delay) q peer).inner.messages = q.inner.messages := by
  rw [QueueWatchers.visit]
  cases hreset : reset (q.files peer).file (q.files peer).sent with
  | none => rfl
  | some it =>
    have hwatcher : (locationWatcher t describe epoc delay).findNext q.inner peer
        (q.files peer).file it = findNext delay q.inner (q.files peer).file it := rfl
    dsimp only
    rw [hwatcher]
    cases hfind : findNext delay q.inner (q.files peer).file it with
    | none => rfl
    | some found =>
      obtain ⟨found, it', x'⟩ := found
      obtain ⟨hputs, -⟩ := findNext_cases (q.files peer).sized q.inner it hfind
      cases found with
      | false => exact hputs.messages
      | true => exact hputs.messages

theorem visit_files (q : Queue Locations) (peer : PeerId) :
    (visit (locationWatcher t describe epoc delay) q peer).files = q.files := by
  rw [QueueWatchers.visit]
  split
  · rfl
  · split <;> rfl

/-- An event keeps the messages, and appends records to one peer at most. -/
theorem step_keeps {q : Queue Locations} (h : (q.queue.map Prod.fst).Nodup) (e : Event) :
    q.inner.messages <+: (step t describe epoc delay q e).inner.messages ∧
      ∀ peer, (∀ record hr, e ≠ .append peer record hr) →
        ((step t describe epoc delay q e).files peer).records = (q.files peer).records := by
  cases e with
  | append peer record hr =>
    refine ⟨List.prefix_rfl, fun p hp => ?_⟩
    have hne : p ≠ peer := fun heq => hp record hr (by rw [heq])
    change (Function.update q.files peer _ p).records = _
    rw [Function.update_of_ne hne]
  | visit peer =>
    rw [step, visit_messages, visit_files]
    exact ⟨List.prefix_rfl, fun _ _ => rfl⟩
  | tick milliseconds => exact ⟨List.prefix_rfl, fun _ _ => rfl⟩
  | nextMessage order =>
    obtain ⟨hrecords, -, new, hmessages, -⟩ := @nextMessage_sends t describe epoc delay q h order
    rw [step, hmessages]
    exact ⟨List.prefix_append _ _, fun peer _ => hrecords peer⟩

/-- The locations of a call are the last ones of queued peers, if a message is due. -/
theorem made_added {q : Queue Locations} (h : (q.queue.map Prod.fst).Nodup)
    (order : List PeerId) :
    made t describe epoc delay q (.nextMessage order) = [] ∨
      Added q [made t describe epoc delay q (.nextMessage order)] := by
  obtain ⟨-, -, new, hmessages, hadded⟩ := @nextMessage_sends t describe epoc delay q h order
  rw [made, step, hmessages, List.drop_left]
  cases hadded with
  | none => exact Or.inl rfl
  | one new hdue hnodup hqueued hlast =>
    rw [List.flatten_singleton]
    exact Or.inr (.one new hdue hnodup hqueued hlast)

theorem Reported.step {q : Queue Locations} (h : Reported q) (e : Event) (hfresh : Fresh q e) :
    Reported (step t describe epoc delay q e) := by
  cases e with
  | append peer record hr =>
    exact h.of_records (append_records q.files peer record hr) rfl h.nodup
  | visit peer => exact h.visit peer
  | tick milliseconds => exact h.of_records (fun _ => List.prefix_rfl) rfl h.nodup
  | nextMessage order => exact h.nextMessage order hfresh

theorem run_reported (events : List Event) {q : Queue Locations} (h : Reported q)
    (hfresh : Along t describe epoc delay Fresh q events) :
    Reported (run t describe epoc delay q events) := by
  induction events generalizing q with
  | nil => exact h
  | cons e rest ih =>
    obtain ⟨hfirst, hrest⟩ := hfresh
    exact ih (h.step e hfirst) hrest

theorem along_append {P : Queue Locations → Event → Prop} {q : Queue Locations}
    {events more : List Event} (h : Along t describe epoc delay P q (events ++ more)) :
    Along t describe epoc delay P q events ∧
      Along t describe epoc delay P (run t describe epoc delay q events) more := by
  induction events generalizing q with
  | nil => exact ⟨trivial, h⟩
  | cons e rest ih =>
    obtain ⟨hfirst, hrest⟩ := h
    obtain ⟨hbefore, hafter⟩ := ih hrest
    exact ⟨⟨hfirst, hbefore⟩, hafter⟩

/-- Events that append nothing for a peer leave its file and all messages as they are. -/
theorem run_keeps (events : List Event) {q : Queue Locations} (h : Reported q)
    (hfresh : Along t describe epoc delay Fresh q events) {peer : PeerId}
    (hnone : ∀ record hr, .append peer record hr ∉ events) :
    q.inner.messages <+: (run t describe epoc delay q events).inner.messages ∧
      ((run t describe epoc delay q events).files peer).records = (q.files peer).records := by
  induction events generalizing q with
  | nil => exact ⟨List.prefix_rfl, rfl⟩
  | cons e rest ih =>
    obtain ⟨hfirst, hrest⟩ := hfresh
    obtain ⟨hmessages, hrecords⟩ := @step_keeps t describe epoc delay q h.nodup e
    obtain ⟨hmessages', hrecords'⟩ := ih (h.step e hfirst) hrest fun record hr hmem =>
      hnone record hr (List.mem_cons_of_mem e hmem)
    refine ⟨hmessages.trans hmessages', hrecords'.trans (hrecords peer fun record hr heq => ?_)⟩
    exact hnone record hr (heq ▸ List.mem_cons_self)

/-- A call that is fresh has no location of a peer that was put into a message before, unless
there is a later one. -/
theorem made_fresh {q : Queue Locations} (h : Reported q) {order : List PeerId}
    (hfresh : Fresh q (.nextMessage order)) {entry : Entry}
    (hentry : entry ∈ made t describe epoc delay q (.nextMessage order)) {old : Entry}
    (hold : old ∈ q.inner.messages.flatten) (hpeer : old.peer = entry.peer) :
    old.offset ≠ lastOf (q.files entry.peer).records := by
  rcases @made_added t describe epoc delay q h.nodup order with hnone | hadded
  · rw [hnone] at hentry
    cases hentry
  · cases hadded with
    | one new hdue hnodup hqueued hlast =>
      rw [← hpeer]
      exact hfresh hdue old hold (hpeer ▸ hqueued entry hentry)

end Runs

/-- What a run reports: each location in one message at most, of each peer later ones in later
messages; a message has the last locations of its peers; and a peer of which a message was
made is in no later one before something is appended to its file. -/
structure ReportedOnce (t : Tables) (describe : List UInt8 → Option (ℤ × List UInt8))
    (epoc delay : ℤ) (start : Queue Locations) (events : List Event) : Prop where
  increasing : Increasing (run t describe epoc delay start events).inner.messages.flatten
  latest : ∀ before order after, events = before ++ .nextMessage order :: after →
    ∀ entry ∈ made t describe epoc delay (run t describe epoc delay start before)
      (.nextMessage order),
      entry.offset =
          lastOf ((run t describe epoc delay start before).files entry.peer).records ∧
        ((run t describe epoc delay start before).files entry.peer).records ≠ []
  silent : ∀ before order between order' after,
    events = before ++ .nextMessage order :: between ++ .nextMessage order' :: after →
    ∀ peer, peer ∈ (made t describe epoc delay (run t describe epoc delay start before)
        (.nextMessage order)).map Entry.peer →
      (∀ record hr, .append peer record hr ∉ between) →
      peer ∉ (made t describe epoc delay
        (run t describe epoc delay start (before ++ .nextMessage order :: between))
        (.nextMessage order')).map Entry.peer

/-- If a message is only due once every queued peer that has been in a message
has got a location since, then each location is reported once. -/
theorem reported_once (t : Tables) (describe : List UInt8 → Option (ℤ × List UInt8))
    (epoc delay now : ℤ) (events : List Event)
    (hfresh : Along t describe epoc delay Fresh (newWatcher now) events) :
    ReportedOnce t describe epoc delay (newWatcher now) events := by
  have hnew : Reported (newWatcher now) :=
    ⟨List.nodup_nil, List.Pairwise.nil, fun _ h => absurd h List.not_mem_nil⟩
  refine ⟨(run_reported events hnew hfresh).increasing, ?_, ?_⟩
  · rintro before order after rfl entry hentry
    have hq := run_reported before hnew (along_append hfresh).1
    rcases made_added hq.nodup order with hnone | hadded
    · rw [hnone] at hentry
      cases hentry
    · cases hadded with
      | one new hdue hnodup hqueued hlast => exact hlast entry hentry
  · rintro before order between order' after rfl peer hpeer hnone hagain
    obtain ⟨entry, hentry, rfl⟩ := List.mem_map.mp hpeer
    obtain ⟨entry', hentry', hsame⟩ := List.mem_map.mp hagain
    obtain ⟨hfirst, hsecond⟩ := along_append hfresh
    obtain ⟨hbefore, hcall, hbetween⟩ := along_append hfirst
    have hq := run_reported before hnew hbefore
    have hrun : run t describe epoc delay (newWatcher now)
      (before ++ .nextMessage order :: between) =
        run t describe epoc delay (step t describe epoc delay
          (run t describe epoc delay (newWatcher now) before) (.nextMessage order)) between := by
      rw [run, List.foldl_append, List.foldl_cons]
      rfl
    rw [hrun] at hentry' hsecond
    generalize run t describe epoc delay (newWatcher now) before = q at *
    have hq' := @Reported.step t describe epoc delay q hq (.nextMessage order) hcall
    obtain ⟨hmessages, hrecords⟩ := run_keeps between hq' hbetween hnone
    -- the first message has the last location, and it is still the last one
    have hlast : entry.offset = lastOf (q.files entry.peer).records := by
      rcases @made_added t describe epoc delay q hq.nodup order with hnone | hadded
      · rw [hnone] at hentry
        cases hentry
      · cases hadded with
        | one new hdue hnodup hqueued hlast => exact (hlast entry hentry).1
    have hkept := (@step_keeps t describe epoc delay q hq.nodup (.nextMessage order)).2
      entry.peer fun _ _ heq => by cases heq
    have hold : entry ∈ (step t describe epoc delay q
      (.nextMessage order)).inner.messages.flatten := by
      obtain ⟨message, hmessage, hin⟩ := List.mem_flatten.mp hentry
      exact List.mem_flatten.mpr ⟨message, List.mem_of_mem_drop hmessage, hin⟩
    have hold' := (hmessages.sublist.flatten).subset hold
    refine made_fresh (run_reported between hq' hbetween) hsecond.1 hentry' hold' hsame.symm ?_
    rw [hsame, hrecords, hkept]
    exact hlast

def sampleLocation : List UInt8 :=
  [0, 0x67, 0] ++ [0, 0, 0, 0, 0, 0, 0, 100] ++ List.replicate 16 0

def sampleDescribe (record : List UInt8) : Option (ℤ × List UInt8) :=
  if record = sampleLocation then some (100, [0x7f, 0xff, 0xfd, 0xff, 0xff, 0xf8]) else none

def sampleRun : List Event :=
  [.append alice sampleLocation (by decide), .visit alice, .nextMessage [], .tick 900000,
    .nextMessage []]

def movedRun : List Event :=
  [.append alice sampleLocation (by decide), .visit alice, .nextMessage [],
    .append alice sampleLocation (by decide), .tick 900000, .nextMessage []]

theorem reported_once_moved :
    ReportedOnce sampleTables sampleDescribe 0 900000 (newWatcher 0) movedRun ∧
      (run sampleTables sampleDescribe 0 900000 (newWatcher 0) movedRun).inner.messages.map
        (fun message => message.map Entry.offset) = [[0], [35]] := by
  refine ⟨reported_once sampleTables sampleDescribe 0 900000 0 _
    ⟨trivial, trivial, ?_, trivial, trivial, ?_, trivial⟩, by decide +kernel⟩
  · intro _
    decide +kernel
  · intro _
    decide +kernel

/-- The second message has the same location again. -/
theorem reported_twice : Enrolled sampleTables alice ∧
    ∃ a b, (run sampleTables sampleDescribe 0 900000 (newWatcher 0) sampleRun).inner.messages =
      [[a], [b]] ∧ a.peer = b.peer ∧ a.offset = b.offset := by
  refine ⟨enrolled_alice, ⟨alice, 0, [1, 0, 0, 0, 1, 0x7f, 0xff, 0xfd, 0xff, 0xff, 0xf8]⟩,
    ⟨alice, 0, [1, 0, 0, 0, 1, 0x7f, 0xff, 0xfd, 0xff, 0xff, 0xf8]⟩, ?_, rfl, rfl⟩
  decide +kernel

end Succinct.LocationReports
