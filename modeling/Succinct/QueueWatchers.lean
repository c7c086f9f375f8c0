import Succinct.MemberEnrolments

/-!
QueueWatcher.java, and the watchers of chat messages and forms. A watcher
queues the peers whose files have grown, and turns their records into messages;
the mark "sent" of a file says how far that has come.

The order in which a HashMap is iterated is an argument. The tables of the
membership list do not change. A restart keeps the files and what was saved of
their marks, and visits every file that exists.
-/
namespace Succinct.QueueWatchers

open RecordIterators ByteBuffers Utf8Texts Memberships MemberEnrolments
open MessageQueue (PeerId)

structure PeerFile where
  records : List (List UInt8)
  sent : ℤ
  saved : ℤ
  sized : Sized records

def PeerFile.file (f : PeerFile) : List UInt8 := fileOf f.records

theorem sized_nil : Sized [] := by
  intro record hrecord
  cases hrecord

def newFile : PeerFile := ⟨[], 0, 0, sized_nil⟩

def PeerFile.append (f : PeerFile) (record : List UInt8) (h : record.length + 8 < 2147483648) :
    PeerFile :=
  { f with records := f.records ++ [record], sized := sized_append f.sized h }

/-- setMark, for the one mark. The marks of an empty file are deleted. -/
def PeerFile.setMark (f : PeerFile) (offset : ℤ) : PeerFile :=
  if f.sent = offset then f
  else { f with sent := offset, saved := if f.records = [] then 0 else offset }

def PeerFile.reopen (f : PeerFile) : PeerFile :=
  if f.records = [] then { f with sent := 0, saved := 0 } else { f with sent := f.saved }

/-- What a watcher overrides; it has a state of its own. None is an exception. -/
structure Watcher (σ : Type) where
  findNext : σ → PeerId → List UInt8 → Iterator → Option (Bool × Iterator × σ)
  generateMessage : σ → PeerId → List UInt8 → Iterator → Option (Bool × σ)

structure Queue (σ : Type) where
  files : PeerId → PeerFile
  queue : List (PeerId × Iterator)
  inner : σ

variable {σ : Type}

def contains (q : Queue σ) (peer : PeerId) : Bool :=
  q.queue.any fun entry => decide (entry.1 = peer)

/-- Visit, with a new iterator; who calls it catches the exception. -/
def visit (w : Watcher σ) (q : Queue σ) (peer : PeerId) : Queue σ :=
  match reset (q.files peer).file (q.files peer).sent with
  | none => q
  | some it =>
    match w.findNext q.inner peer (q.files peer).file it with
    | none => q
    | some (false, _, x) => { q with inner := x }
    | some (true, it, x) =>
      { q with queue := if contains q peer then q.queue else q.queue ++ [(peer, it)], inner := x }

/-- What an entry of the queue comes to: an exception, the end of the call with
a message, or that the loop goes on; and whether the entry stays. -/
structure Turn (σ : Type) where
  result : Option Bool
  kept : Option Iterator
  file : PeerFile
  inner : σ

def sendFrom (w : Watcher σ) (x : σ) (peer : PeerId) (f : PeerFile) (it : Iterator) : Turn σ :=
  match w.findNext x peer f.file it with
  | none => ⟨none, some it, f, x⟩
  | some (false, _, x) => ⟨some false, none, f, x⟩
  | some (true, it, x) =>
    match w.generateMessage x peer f.file it with
    | none => ⟨none, some it, f, x⟩
    | some (done, x) =>
      match w.findNext x peer f.file it with
      | none => ⟨none, some it, f, x⟩
      | some (more, it, x) => ⟨some done, if more then some it else none, f.setMark it.offset, x⟩

def entryTurn (w : Watcher σ) (t : Tables) (x : σ) (peer : PeerId)
    (f : PeerFile) (it : Iterator) :
    Turn σ :=
  if !isActive t peer then ⟨some false, some it, f, x⟩
  else
    match getPosition t peer with
    | none => ⟨none, some it, f, x⟩
    | some position =>
      if position > 255 then ⟨some false, some it, f, x⟩
      else
        match reset f.file f.sent with
        | none => ⟨none, some it, f, x⟩
        | some it => sendFrom w x peer f it

def sendLoop (w : Watcher σ) (t : Tables) :
    List (PeerId × Iterator) → (PeerId → PeerFile) → σ → Option Bool × Queue σ
  | [], files, x => (some false, ⟨files, [], x⟩)
  | (peer, it) :: rest, files, x =>
    let turn := entryTurn w t x peer (files peer) it
    let files := Function.update files peer turn.file
    let kept := turn.kept.toList.map fun it => (peer, it)
    match turn.result with
    | some false =>
      let (result, q) := sendLoop w t rest files turn.inner
      (result, { q with queue := kept ++ q.queue })
    | result => (result, ⟨files, kept ++ rest, turn.inner⟩)

def arrange (order : List PeerId) (queue : List (PeerId × Iterator)) : List (PeerId × Iterator) :=
  (order.dedup.filterMap fun peer => queue.find? fun entry => decide (entry.1 = peer)) ++
    queue.filter fun entry => decide (entry.1 ∉ order)

def nextMessage (w : Watcher σ) (t : Tables) (order : List PeerId) (q : Queue σ) :
    Option Bool × Queue σ :=
  sendLoop w t (arrange order q.queue) q.files q.inner

abbrev Output := List (PeerId × Message)

def everyRecord (skips : PeerId → Bool) (message : PeerId → List UInt8 → Option Message) :
    Watcher Output where
  findNext x peer file it :=
    if skips peer then some (false, it, x)
      else (next file it).map fun (found, it) => (found, it, x)
  generateMessage x peer file it :=
    match read file it with
    | some (some bytes) => (message peer bytes).map fun m => (true, x ++ [(peer, m)])
    | _ => none

inductive Event where
  | append (peer : PeerId) (record : List UInt8) (h : record.length + 8 < 2147483648)
  | visit (peer : PeerId)
  | nextMessage (order : List PeerId)
  | restart (order : List PeerId)

/-- A device: the watcher, the peers whose files exist, and how many records of
each had been seen when its file was last visited. -/
structure Device (σ : Type) where
  queue : Queue σ
  devices : List PeerId
  visited : PeerId → ℕ

def newDevice (x : σ) : Device σ := ⟨⟨fun _ => newFile, [], x⟩, [], fun _ => 0⟩

def activate (w : Watcher σ) (files : PeerId → PeerFile) (x : σ)
    (peers : List PeerId) : Queue σ :=
  peers.foldl (visit w) ⟨fun peer => (files peer).reopen, [], x⟩

def step (w : Watcher σ) (t : Tables) (d : Device σ) : Event → Device σ
  | .append peer record h =>
    { d with queue := { d.queue
      with files := Function.update d.queue.files peer ((d.queue.files peer).append record h) }
             devices := if peer ∈ d.devices then d.devices else d.devices ++ [peer] }
  | .visit peer =>
    { d with queue := visit w d.queue peer
             visited := Function.update d.visited peer (d.queue.files peer).records.length }
  | .nextMessage order => { d with queue := (nextMessage w t order d.queue).2 }
  | .restart order =>
    let peers := order.filter (· ∈ d.devices) ++ d.devices.filter (· ∉ order)
    { d with queue := activate w d.queue.files d.queue.inner peers
             visited := fun peer =>
               if peer ∈ d.devices then (d.queue.files peer).records.length else d.visited peer }

def run (w : Watcher σ) (t : Tables) (d : Device σ) (events : List Event) : Device σ :=
  events.foldl (step w t) d

theorem mem_arrange (order : List PeerId) (queue : List (PeerId × Iterator)) (peer : PeerId) :
    peer ∈ (arrange order queue).map Prod.fst ↔ peer ∈ queue.map Prod.fst := by
  constructor
  · intro h
    obtain ⟨entry, hentry, rfl⟩ := List.mem_map.mp h
    rcases List.mem_append.mp hentry with hfirst | hrest
    · obtain ⟨peer, -, hfind⟩ := List.mem_filterMap.mp hfirst
      exact List.mem_map_of_mem (List.mem_of_find?_eq_some hfind)
    · exact List.mem_map_of_mem (List.mem_of_mem_filter hrest)
  · intro h
    obtain ⟨entry, hentry, rfl⟩ := List.mem_map.mp h
    by_cases horder : entry.1 ∈ order
    · obtain ⟨found, hfound⟩ :
        ∃ found, (queue.find? fun e => decide (e.1 = entry.1)) = some found :=
        Option.isSome_iff_exists.mp (List.find?_isSome.mpr ⟨entry, hentry, decide_eq_true rfl⟩)
      have heq := List.find?_some hfound
      rw [decide_eq_true_eq] at heq
      rw [← heq]
      refine List.mem_map_of_mem
        (List.mem_append_left _ (List.mem_filterMap.mpr ⟨entry.1, ?_, hfound⟩))
      exact List.mem_dedup.mpr horder
    · exact List.mem_map_of_mem (List.mem_append_right _
        (List.mem_filter.mpr ⟨hentry, decide_eq_true horder⟩))

def Enrolled (t : Tables) (peer : PeerId) : Prop :=
  isActive t peer = true ∧ ∃ position, t.positions peer = some position ∧ position ≤ 255

section EveryRecord

variable {skips : PeerId → Bool} {message : PeerId → List UInt8 → Option Message} {t : Tables}

def generated (x : Output) (peer : PeerId) : List Message :=
  (x.filter fun entry => decide (entry.1 = peer)).map Prod.snd

theorem generated_snoc_self (x : Output) (peer : PeerId) (m : Message) :
    generated (x ++ [(peer, m)]) peer = generated x peer ++ [m] := by
  simp [generated]

theorem generated_snoc_ne (x : Output) {peer peer' : PeerId} (m : Message) (h : peer' ≠ peer) :
    generated (x ++ [(peer, m)]) peer' = generated x peer' := by
  simp [generated, h.symm]

structure Generated (message : PeerId → List UInt8 → Option Message)
    (f : PeerFile) (peer : PeerId) (k : ℕ) (x : Output) : Prop where
  le : k ≤ f.records.length
  sent : f.sent = startOf f.records k
  saved : f.saved = f.sent
  output : (generated x peer).map some = (f.records.take k).map (message peer)
  messages : ∀ r ∈ f.records, (message peer r).isSome

theorem Generated.reset {f : PeerFile} {peer : PeerId} {k : ℕ} {x : Output}
    (h : Generated message f peer k x) : reset f.file f.sent = some (before f.records k) := by
  have hle := startOf_le f.records k
  rw [RecordIterators.reset, h.sent, PeerFile.file, if_neg (by omega)]
  rfl

theorem Generated.setMark {f : PeerFile} {peer : PeerId} {k : ℕ} {x : Output}
    (h : Generated message f peer k x) (hk : k < f.records.length) (m : Message)
    (hm : message peer f.records[k] = some m) :
    Generated message (f.setMark (startOf f.records (k + 1))) peer (k + 1)
      (x ++ [(peer, m)]) := by
  have hlt := startOf_lt f.records (show k < k + 1 by omega) hk
  have hset : f.setMark (startOf f.records (k + 1)) =
      { f with sent := startOf f.records (k + 1), saved := startOf f.records (k + 1) } := by
    rw [PeerFile.setMark, h.sent, if_neg (by omega), if_neg]
    intro hempty
    rw [hempty] at hk
    exact Nat.not_lt_zero k hk
  rw [hset]
  refine ⟨hk, rfl, rfl, ?_, h.messages⟩
  rw [generated_snoc_self, List.map_append, h.output, List.take_succ_eq_append_getElem hk,
    List.map_append, List.map_singleton, List.map_singleton, hm]

/-- An entry for which nothing is left is removed. -/
theorem entryTurn_none (hpeer : Enrolled t peer) {f : PeerFile} {x : Output}
    (h : Generated message f peer f.records.length x) (it : Iterator) :
    entryTurn (everyRecord skips message) t x peer f it = ⟨some false, none, f, x⟩ := by
  obtain ⟨hactive, position, hposition, hle⟩ := hpeer
  rw [entryTurn, hactive, if_neg (by decide), getPosition, hposition]
  dsimp only
  rw [if_neg (by omega), h.reset]
  dsimp only
  rw [sendFrom, everyRecord]
  dsimp only
  by_cases hskips : skips peer = true
  · rw [if_pos hskips]
  · rw [if_neg hskips, PeerFile.file,
      next_spec f.sized (before f.records f.records.length) f.records.length (Nat.le_refl _)
        (Int.add_zero _), if_neg (Nat.lt_irrefl _)]
    rfl

/-- An entry for which there is a record left gives its message. -/
theorem entryTurn_some (hpeer : Enrolled t peer) (hskips : skips peer = false)
    {f : PeerFile} {k : ℕ}
    {x : Output} (h : Generated message f peer k x) (hk : k < f.records.length) (it : Iterator) :
    ∃ m kept, message peer f.records[k] = some m ∧
      entryTurn (everyRecord skips message) t x peer f it =
        ⟨some true, kept, f.setMark (startOf f.records (k + 1)), x ++ [(peer, m)]⟩ ∧
      (kept = none → k + 1 = f.records.length) := by
  obtain ⟨m, hm⟩ := Option.isSome_iff_exists.mp (h.messages _ (List.getElem_mem hk))
  obtain ⟨hactive, position, hposition, hle⟩ := hpeer
  have hfirst := next_spec f.sized (before f.records k) k h.le (Int.add_zero _)
  have hsecond := next_spec f.sized (on f.records k) (k + 1) hk (follows_on k hk)
  rw [if_pos hk] at hfirst
  refine ⟨m, if k + 1 < f.records.length then some (on f.records (k + 1)) else none, hm, ?_, ?_⟩
  · rw [entryTurn, hactive, if_neg (by decide), getPosition, hposition]
    dsimp only
    rw [if_neg (by omega), h.reset]
    dsimp only
    rw [sendFrom, everyRecord]
    simp only [hskips, Bool.false_eq_true, if_false, PeerFile.file, hfirst, Option.map_some,
      read_spec k hk, hm, hsecond]
    by_cases hlast : k + 1 < f.records.length
    · simp only [if_pos hlast]
      rfl
    · simp only [if_neg hlast]
      rfl
  · intro hnone
    by_contra hne
    rw [if_pos (by omega)] at hnone
    cases hnone

structure Current (skips : PeerId → Bool) (message : PeerId → List UInt8 → Option Message)
    (t : Tables) (files : PeerId → PeerFile) (count : PeerId → ℕ) (x : Output) : Prop where
  generated : ∀ peer, skips peer = false → Generated message (files peer) peer (count peer) x
  enrolled : ∀ peer, (files peer).records ≠ [] → Enrolled t peer

/-- Another peer's message and mark do not matter. -/
theorem Generated.other {f : PeerFile} {peer peer' : PeerId} {k : ℕ} {x : Output} {m : Message}
    (h : Generated message f peer k x) (hne : peer ≠ peer') :
    Generated message f peer k (x ++ [(peer', m)]) := by
  refine ⟨h.le, h.sent, h.saved, ?_, h.messages⟩
  rw [generated_snoc_ne x m hne]
  exact h.output

theorem setMark_records (f : PeerFile) (offset : ℤ) : (f.setMark offset).records = f.records := by
  rw [PeerFile.setMark]
  split <;> rfl

theorem Current.advance {files : PeerId → PeerFile} {count : PeerId → ℕ} {x : Output}
    (h : Current skips message t files count x) {peer : PeerId} (hskips : skips peer = false)
    (hk : count peer < (files peer).records.length) (m : Message)
    (hm : message peer (files peer).records[count peer] = some m) :
    Current skips message t
      (Function.update files peer
        ((files peer).setMark (startOf (files peer).records (count peer + 1))))
      (Function.update count peer (count peer + 1)) (x ++ [(peer, m)]) := by
  constructor
  · intro peer' hskips'
    by_cases heq : peer' = peer
    · subst heq
      rw [Function.update_self, Function.update_self]
      exact (h.generated peer' hskips).setMark hk m hm
    · rw [Function.update_of_ne heq, Function.update_of_ne heq]
      exact (h.generated peer' hskips').other heq
  · intro peer' hne
    by_cases heq : peer' = peer
    · subst heq
      rw [Function.update_self, setMark_records] at hne
      exact h.enrolled peer' hne
    · rw [Function.update_of_ne heq] at hne
      exact h.enrolled peer' hne

/-- What the loop over some entries does: it finds nothing left, and removes
them all; or it generates one message. -/
inductive Swept (skips : PeerId → Bool)
    (message : PeerId → List UInt8 → Option Message) (t : Tables)
    (entries : List (PeerId × Iterator)) (files : PeerId → PeerFile)
    (count : PeerId → ℕ) (x : Output) :
    Option Bool × Queue Output → Prop where
  | nothing (hall : ∀ peer ∈ entries.map Prod.fst, count peer = (files peer).records.length) :
    Swept skips message t entries files count x (some false, ⟨files, [], x⟩)
  | message (peer : PeerId) (m : Message) (files' : PeerId → PeerFile)
    (queue' : List (PeerId × Iterator))
      (hcount : count peer < (files peer).records.length)
      (hcurrent : Current skips message t files' (Function.update count peer (count peer + 1))
        (x ++ [(peer, m)]))
      (hrecords : ∀ p, (files' p).records = (files p).records)
      (hkept : ∀ p ∈ entries.map Prod.fst, p ∈ queue'.map Prod.fst ∨
        Function.update count peer (count peer + 1) p = (files p).records.length)
      (hsub : ∀ p ∈ queue'.map Prod.fst, p ∈ entries.map Prod.fst) :
    Swept skips message t entries files count x (some true, ⟨files', queue', x ++ [(peer, m)]⟩)

/-- An entry without a message in front changes nothing. -/
theorem Swept.skip {entries : List (PeerId × Iterator)} {files : PeerId → PeerFile}
    {count : PeerId → ℕ} {x : Output} {result : Option Bool × Queue Output}
    (h : Swept skips message t entries files count x result) (peer : PeerId) (it : Iterator)
    (hall : count peer = (files peer).records.length) :
    Swept skips message t ((peer, it) :: entries) files count x result := by
  cases h with
  | nothing hrest =>
    refine .nothing ?_
    intro p hp
    rcases List.mem_cons.mp hp with rfl | hp
    · exact hall
    · exact hrest p hp
  | message peer' m files' queue' hcount hcurrent hrecords hkept hsub =>
    refine .message peer' m files' queue' hcount hcurrent hrecords ?_ ?_
    · intro p hp
      rcases List.mem_cons.mp hp with rfl | hp
      · right
        have hne' : p ≠ peer' := by
          rintro rfl
          omega
        rw [Function.update_of_ne hne']
        exact hall
      · exact hkept p hp
    · intro p hp
      exact List.mem_cons_of_mem _ (hsub p hp)

theorem sendLoop_swept {files : PeerId → PeerFile} {count : PeerId → ℕ} {x : Output}
    (h : Current skips message t files count x) (entries : List (PeerId × Iterator))
    (hentries : ∀ peer ∈ entries.map Prod.fst, skips peer = false ∧ (files peer).records ≠ []) :
    Swept skips message t entries files count x
      (sendLoop (everyRecord skips message) t entries files x) := by
  induction entries with
  | nil => exact .nothing fun _ hpeer => absurd hpeer List.not_mem_nil
  | cons entry rest ih =>
    obtain ⟨peer, it⟩ := entry
    obtain ⟨hskips, hne⟩ := hentries peer List.mem_cons_self
    have hpeer := h.enrolled peer hne
    have hgenerated := h.generated peer hskips
    rw [sendLoop]
    by_cases hk : count peer < (files peer).records.length
    · obtain ⟨m, kept, hm, hturn, hkept⟩ := entryTurn_some hpeer hskips hgenerated hk it
      rw [hturn]
      dsimp only
      refine .message peer m _ _ hk (h.advance hskips hk m hm) ?_ ?_ ?_
      · intro p
        by_cases heq : p = peer
        · subst heq
          rw [Function.update_self, setMark_records]
        · rw [Function.update_of_ne heq]
      · intro p hp
        rcases List.mem_cons.mp hp with rfl | hrest
        · cases kept with
          | some it' =>
            left
            exact List.mem_cons_self
          | none =>
            right
            rw [Function.update_self]
            exact hkept rfl
        · left
          rw [List.map_append]
          exact List.mem_append_right _ hrest
      · intro p hp
        rw [List.map_append, List.mem_append] at hp
        rcases hp with hp | hp
        · cases kept with
          | some it' =>
            rw [List.mem_singleton.mp hp]
            exact List.mem_cons_self
          | none => exact absurd hp List.not_mem_nil
        · exact List.mem_cons_of_mem _ hp
    · have hall : count peer = (files peer).records.length := by
        have := hgenerated.le
        omega
      rw [hall] at hgenerated
      rw [entryTurn_none hpeer hgenerated it]
      dsimp only
      rw [Function.update_eq_self]
      have hrest := ih fun p hp => hentries p (List.mem_cons_of_mem _ hp)
      exact hrest.skip peer it hall

theorem contains_eq (q : Queue Output) (peer : PeerId) :
    contains q peer = true ↔ peer ∈ q.queue.map Prod.fst := by
  rw [contains, List.any_eq_true, List.mem_map]
  simp only [decide_eq_true_eq]

structure Visits (skips : PeerId → Bool) (q : Queue Output) (count : PeerId → ℕ)
    (peers : List PeerId) (queue' : List (PeerId × Iterator)) : Prop where
  keeps : ∀ p ∈ q.queue.map Prod.fst, p ∈ queue'.map Prod.fst
  adds : ∀ p ∈ queue'.map Prod.fst, p ∈ q.queue.map Prod.fst ∨
    (skips p = false ∧ (q.files p).records ≠ [])
  finds : ∀ p ∈ peers, skips p = false →
    p ∈ queue'.map Prod.fst ∨ count p = (q.files p).records.length

theorem visit_skipped (q : Queue Output) {peer : PeerId} (hskips : skips peer = true) :
    visit (everyRecord skips message) q peer = q := by
  rw [visit]
  cases heq : reset (q.files peer).file (q.files peer).sent with
  | none =>
    rfl
  | some it =>
    dsimp only
    have hfind : (everyRecord skips message).findNext q.inner peer (q.files peer).file it =
        some (false, it, q.inner) := if_pos hskips
    rw [hfind]

theorem visit_visits {q : Queue Output} {count : PeerId → ℕ}
    (h : Current skips message t q.files count q.inner) (peer : PeerId) :
    ∃ queue', visit (everyRecord skips message) q peer = { q with queue := queue' } ∧
      Visits skips q count [peer] queue' := by
  by_cases hskips : skips peer = true
  · refine ⟨q.queue, visit_skipped q hskips, fun _ hp => hp, fun _ hp => Or.inl hp, ?_⟩
    intro p hp hfalse
    rw [List.mem_singleton.mp hp, hskips] at hfalse
    cases hfalse
  · have hfalse : skips peer = false := Bool.eq_false_iff.mpr hskips
    have hgenerated := h.generated peer hfalse
    have hnext := next_spec (q.files peer).sized (before (q.files peer).records (count peer))
      (count peer) hgenerated.le (Int.add_zero _)
    have hfind : (everyRecord skips message).findNext q.inner peer (q.files peer).file
        (before (q.files peer).records (count peer)) =
          (next (q.files peer).file (before (q.files peer).records (count peer))).map
            fun (found, it) => (found, it, q.inner) := if_neg hskips
    rw [visit, hgenerated.reset]
    dsimp only
    rw [hfind, PeerFile.file, hnext]
    by_cases hk : count peer < (q.files peer).records.length
    · have hne : (q.files peer).records ≠ [] := by
        intro hempty
        rw [hempty] at hk
        exact Nat.not_lt_zero _ hk
      rw [if_pos hk]
      refine ⟨_, rfl, ?_, ?_, ?_⟩
      · intro p hp
        split
        · exact hp
        · rw [List.map_append]
          exact List.mem_append_left _ hp
      · intro p hp
        split at hp
        · exact Or.inl hp
        · rw [List.map_append, List.mem_append] at hp
          rcases hp with hold | hnew
          · exact Or.inl hold
          · right
            rw [List.mem_singleton.mp hnew]
            exact ⟨hfalse, hne⟩
      · intro p hp _
        rw [List.mem_singleton.mp hp]
        left
        by_cases hcontains : contains q peer = true
        · rw [if_pos hcontains]
          exact (contains_eq q peer).mp hcontains
        · rw [if_neg hcontains]
          rw [List.map_append]
          exact List.mem_append_right _ List.mem_cons_self
    · rw [if_neg hk]
      refine ⟨q.queue, rfl, fun _ hp => hp, fun _ hp => Or.inl hp, ?_⟩
      intro p hp _
      rw [List.mem_singleton.mp hp]
      right
      have := hgenerated.le
      omega

theorem foldl_visits (peers : List PeerId) {q : Queue Output} {count : PeerId → ℕ}
    (h : Current skips message t q.files count q.inner) :
    ∃ queue', peers.foldl (visit (everyRecord skips message)) q = { q with queue := queue' } ∧
      Visits skips q count peers queue' := by
  induction peers generalizing q with
  | nil =>
    exact ⟨q.queue, rfl, fun _ hp => hp, fun _ hp =>
      Or.inl hp, fun _ hp => absurd hp List.not_mem_nil⟩
  | cons peer rest ih =>
    obtain ⟨queue₁, heq₁, hvisit₁⟩ := visit_visits h peer
    obtain ⟨queue₂, heq₂, hvisit₂⟩ := ih (q := { q with queue := queue₁ }) h
    refine ⟨queue₂, ?_, ?_, ?_, ?_⟩
    · rw [List.foldl_cons, heq₁, heq₂]
    · intro p hp
      exact hvisit₂.keeps p (hvisit₁.keeps p hp)
    · intro p hp
      rcases hvisit₂.adds p hp with hold | hnew
      · exact hvisit₁.adds p hold
      · exact Or.inr hnew
    · intro p hp hskips
      rcases List.mem_cons.mp hp with rfl | hrest
      · rcases hvisit₁.finds p List.mem_cons_self hskips with hqueued | hall
        · exact Or.inl (hvisit₂.keeps p hqueued)
        · exact Or.inr hall
      · exact hvisit₂.finds p hrest hskips

structure Sound (skips : PeerId → Bool) (message : PeerId → List UInt8 → Option Message)
    (t : Tables) (d : Device Output) (count : PeerId → ℕ) : Prop where
  current : Current skips message t d.queue.files count d.queue.inner
  queued : ∀ peer ∈ d.queue.queue.map Prod.fst,
    skips peer = false ∧ (d.queue.files peer).records ≠ []
  visited : ∀ peer, skips peer = false →
    peer ∈ d.queue.queue.map Prod.fst ∨ d.visited peer ≤ count peer
  visited_le : ∀ peer, d.visited peer ≤ (d.queue.files peer).records.length
  devices : ∀ peer, (d.queue.files peer).records ≠ [] → peer ∈ d.devices

/-- A record is appended only for an enrolled peer, and makes a message. -/
def Event.Allowed (t : Tables) (message : PeerId → List UInt8 → Option Message) : Event → Prop
  | .append peer record _ => Enrolled t peer ∧ (message peer record).isSome
  | _ => True

theorem Generated.append {f : PeerFile} {peer : PeerId} {k : ℕ} {x : Output}
    (h : Generated message f peer k x) (record : List UInt8) (hr : record.length + 8 < 2147483648)
    (hm : (message peer record).isSome) : Generated message (f.append record hr) peer k x := by
  refine ⟨?_, ?_, h.saved, ?_, ?_⟩
  · exact Nat.le_trans h.le (List.prefix_append _ _).length_le
  · exact h.sent.trans (congrArg Nat.cast (startOf_append _ _ k h.le).symm)
  · rw [h.output, PeerFile.append, List.take_append_of_le_length h.le]
  · intro r hr'
    rcases List.mem_append.mp hr' with hold | hnew
    · exact h.messages r hold
    · rw [List.mem_singleton.mp hnew]
      exact hm

theorem Sound.append {d : Device Output} {count : PeerId → ℕ} (h : Sound skips message t d count)
    (w : Watcher Output) (peer : PeerId) (record : List UInt8)
    (hr : record.length + 8 < 2147483648)
    (hallowed : (Event.append peer record hr).Allowed t message) :
    Sound skips message t (step w t d (.append peer record hr)) count := by
  have hrecords : ∀ p, (d.queue.files p).records <+:
      (Function.update d.queue.files peer ((d.queue.files peer).append record hr) p).records := by
    intro p
    by_cases heq : p = peer
    · subst heq
      rw [Function.update_self]
      exact List.prefix_append _ _
    · rw [Function.update_of_ne heq]
  refine ⟨⟨?_, ?_⟩, ?_, h.visited, ?_, ?_⟩
  · intro p hskips
    rw [step]
    dsimp only
    by_cases heq : p = peer
    · subst heq
      rw [Function.update_self]
      exact (h.current.generated p hskips).append record hr hallowed.2
    · rw [Function.update_of_ne heq]
      exact h.current.generated p hskips
  · intro p hne
    rw [step] at hne
    dsimp only at hne
    by_cases heq : p = peer
    · rw [heq]
      exact hallowed.1
    · rw [Function.update_of_ne heq] at hne
      exact h.current.enrolled p hne
  · intro p hp
    obtain ⟨hskips, hne⟩ := h.queued p hp
    refine ⟨hskips, ?_⟩
    intro hempty
    have hnil := hrecords p
    rw [show (Function.update d.queue.files peer ((d.queue.files peer).append record hr)
      p).records = [] from hempty, List.prefix_nil] at hnil
    exact hne hnil
  · intro p
    exact Nat.le_trans (h.visited_le p) (hrecords p).length_le
  · intro p hne
    rw [step] at hne ⊢
    dsimp only at hne ⊢
    by_cases heq : p = peer
    · rw [heq]
      split
      · assumption
      · exact List.mem_append_right _ List.mem_cons_self
    · rw [Function.update_of_ne heq] at hne
      have hmem := h.devices p hne
      split
      · exact hmem
      · exact List.mem_append_left _ hmem

theorem Sound.visit {d : Device Output} {count : PeerId → ℕ} (h : Sound skips message t d count)
    (peer : PeerId) :
    Sound skips message t (step (everyRecord skips message) t d (.visit peer)) count := by
  obtain ⟨queue', heq, hvisits⟩ := visit_visits h.current peer
  rw [step, heq]
  refine ⟨h.current, ?_, ?_, ?_, h.devices⟩
  · intro p hp
    rcases hvisits.adds p hp with hold | hnew
    · exact h.queued p hold
    · exact hnew
  · intro p hskips
    dsimp only
    by_cases hp : p = peer
    · subst hp
      rw [Function.update_self]
      rcases hvisits.finds p List.mem_cons_self hskips with hqueued | hall
      · exact Or.inl hqueued
      · exact Or.inr (Nat.le_of_eq hall.symm)
    · rw [Function.update_of_ne hp]
      rcases h.visited p hskips with hqueued | hle
      · exact Or.inl (hvisits.keeps p hqueued)
      · exact Or.inr hle
  · intro p
    dsimp only
    by_cases hp : p = peer
    · subst hp
      rw [Function.update_self]
    · rw [Function.update_of_ne hp]
      exact h.visited_le p

theorem Generated.reopen {f : PeerFile} {peer : PeerId} {k : ℕ} {x : Output}
    (h : Generated message f peer k x) : Generated message f.reopen peer k x := by
  rw [PeerFile.reopen]
  by_cases hempty : f.records = []
  · rw [if_pos hempty]
    have hk : k = 0 := by
      have hle := h.le
      rw [hempty] at hle
      exact Nat.le_zero.mp hle
    subst hk
    exact ⟨h.le, rfl, rfl, h.output, h.messages⟩
  · rw [if_neg hempty]
    exact ⟨h.le, h.saved.trans h.sent, rfl, h.output, h.messages⟩

theorem reopen_records (f : PeerFile) : f.reopen.records = f.records := by
  rw [PeerFile.reopen]
  split <;> rfl

theorem Sound.restart {d : Device Output} {count : PeerId → ℕ} (h : Sound skips message t d count)
    (order : List PeerId) :
    Sound skips message t (step (everyRecord skips message) t d (.restart order)) count := by
  have hcurrent : Current skips message t (fun peer => (d.queue.files peer).reopen) count
    d.queue.inner := by
    constructor
    · intro peer hskips
      exact (h.current.generated peer hskips).reopen
    · intro peer hne
      rw [reopen_records] at hne
      exact h.current.enrolled peer hne
  have hpeers : ∀ p ∈ d.devices,
    p ∈ order.filter (· ∈ d.devices) ++ d.devices.filter (· ∉ order) := by
    intro p hp
    by_cases horder : p ∈ order
    · exact List.mem_append_left _ (List.mem_filter.mpr ⟨horder, decide_eq_true hp⟩)
    · exact List.mem_append_right _ (List.mem_filter.mpr ⟨hp, decide_eq_true horder⟩)
  rw [step, activate]
  generalize order.filter (· ∈ d.devices) ++ d.devices.filter (· ∉ order) = peers at hpeers
  obtain ⟨queue', heq, hvisits⟩ := foldl_visits peers
    (q := ⟨fun peer => (d.queue.files peer).reopen, [], d.queue.inner⟩) hcurrent
  rw [heq]
  refine ⟨hcurrent, ?_, ?_, ?_, ?_⟩
  · intro p hp
    rcases hvisits.adds p hp with hold | hnew
    · exact absurd hold List.not_mem_nil
    · exact hnew
  · intro p hskips
    dsimp only
    by_cases hp : p ∈ d.devices
    · rw [if_pos hp]
      rcases hvisits.finds p (hpeers p hp) hskips with hqueued | hall
      · exact Or.inl hqueued
      · right
        dsimp only at hall
        rw [reopen_records] at hall
        exact Nat.le_of_eq hall.symm
    · right
      have hempty : (d.queue.files p).records = [] := not_not.mp fun hne => hp (h.devices p hne)
      have hle := h.visited_le p
      rw [hempty] at hle
      rw [if_neg hp]
      exact Nat.le_trans hle (Nat.zero_le _)
  · intro p
    dsimp only
    rw [reopen_records]
    split
    · exact Nat.le_refl _
    · exact h.visited_le p
  · intro p hne
    dsimp only at hne
    rw [reopen_records] at hne
    exact h.devices p hne

/-- What nextMessage does: all that was visited has been generated, or one
message more has. -/
theorem Sound.nextMessage {d : Device Output} {count : PeerId → ℕ}
    (h : Sound skips message t d count) (order : List PeerId) :
    ∃ returned q' count', nextMessage (everyRecord skips message) t order d.queue =
      (some returned, q') ∧ Sound skips message t { d with queue := q' } count' ∧
      (returned = false → ∀ peer, skips peer = false → d.visited peer ≤ count' peer) := by
  have hswept := sendLoop_swept h.current (arrange order d.queue.queue) (by
    intro peer hpeer
    exact h.queued peer ((mem_arrange order d.queue.queue peer).mp hpeer))
  rw [QueueWatchers.nextMessage]
  generalize sendLoop (everyRecord skips message) t (arrange order d.queue.queue) d.queue.files
    d.queue.inner = result at hswept
  cases hswept with
  | nothing hall =>
    have hvisited : ∀ peer, skips peer = false → d.visited peer ≤ count peer := by
      intro peer hskips
      rcases h.visited peer hskips with hqueued | hle
      · rw [hall peer ((mem_arrange order d.queue.queue peer).mpr hqueued)]
        exact h.visited_le peer
      · exact hle
    refine ⟨false, _, count, rfl, ⟨h.current, ?_, ?_, h.visited_le, h.devices⟩, fun _ => hvisited⟩
    · intro peer hpeer
      exact absurd hpeer List.not_mem_nil
    · intro peer hskips
      exact Or.inr (hvisited peer hskips)
  | message peer m files' queue' hcount hcurrent hrecords hkept hsub =>
    refine ⟨true, _, _, rfl, ⟨hcurrent, ?_, ?_, ?_, ?_⟩, fun hfalse => by cases hfalse⟩
    · intro p hp
      obtain ⟨hskips, hne⟩ := h.queued p ((mem_arrange order d.queue.queue p).mp (hsub p hp))
      dsimp only
      rw [hrecords p]
      exact ⟨hskips, hne⟩
    · intro p hskips
      rcases h.visited p hskips with hqueued | hle
      · rcases hkept p ((mem_arrange order d.queue.queue p).mpr hqueued) with hstays | hall
        · exact Or.inl hstays
        · right
          rw [hall]
          exact h.visited_le p
      · right
        by_cases heq : p = peer
        · subst heq
          rw [Function.update_self]
          exact Nat.le_succ_of_le hle
        · rw [Function.update_of_ne heq]
          exact hle
    · intro p
      dsimp only
      rw [hrecords p]
      exact h.visited_le p
    · intro p hne
      dsimp only at hne
      rw [hrecords p] at hne
      exact h.devices p hne

end EveryRecord

def Event.Proper (t : Tables) (factory : List UInt8 → Prop) : Event → Prop
  | .append peer record _ => Enrolled t peer ∧ factory record
  | _ => True

def sampleTables : Tables := initial.add alice

theorem enrolled_alice : Enrolled sampleTables alice := ⟨by decide, 1, by decide, by decide⟩

def sampleRun (record : List UInt8) (h : record.length + 8 < 2147483648) : List Event :=
  [.append alice record h, .visit alice, .nextMessage [], .restart [], .nextMessage []]

end Succinct.QueueWatchers
