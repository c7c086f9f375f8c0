import Succinct.ConnectionWrites

/-!
Two peers that connect to each other at the same time, and how they come to
keep the same connection: Peer.getConnection and setConnection, and shutdown
and close of PeerConnection, which call each other. In each process there is
one Peer object for the other party, the connection that this process
initiated and the one that it accepted. The calls are bounded by a fuel that
is never used up.

Left out: the links that addresses are taken from, and what the selector is
told.
-/
namespace Succinct.PeerConnections

open Messages

open ConnectionWrites (Head)

/-- The first bytes that differ, as signed numbers. -/
def compareBytes : List UInt8 → List UInt8 → ℤ
  | a :: as, b :: bs => if a ≠ b then asByte a - asByte b else compareBytes as bs
  | _, _ => 0

def compare (id other : PeerId) : ℤ := compareBytes (List.ofFn id) (List.ofFn other)

inductive Link where
  | initiated
  | accepted
  deriving DecidableEq

/-- A PeerConnection. Its peer is null until the header arrives. -/
structure Endpoint where
  initiated : Bool
  peer : Bool
  writes : ConnectionWrites.Connection

structure Peer where
  myId : PeerId
  id : PeerId
  connection : Option Link
  initiated : Option Endpoint
  accepted : Option Endpoint

namespace Peer

def get (s : Peer) : Link → Option Endpoint
  | .initiated => s.initiated
  | .accepted => s.accepted

def set (s : Peer) (e : Endpoint) : Link → Peer
  | .initiated => { s with initiated := some e }
  | .accepted => { s with accepted := some e }

/-- The comparison in setConnection by which a connection is not replaced. -/
def keeps (s : Peer) (old new : Link) : Bool :=
  match s.get old, s.get new with
  | some o, some n =>
    n.initiated != o.initiated && !o.writes.shutdown &&
      decide ((if n.initiated then -compare s.myId s.id else compare s.myId s.id) < 0)
  | _, _ => false

end Peer

mutual

def setConnection : ℕ → Peer → Option Link → Option Peer
  | 0, _, _ => none
  | fuel + 1, s, connection =>
    if s.connection = connection then some s
    else
      match s.connection with
      | none => some { s with connection := connection }
      | some old =>
        match connection.filter (s.keeps old) with
        | some new => shutdown fuel s new
        | none => (shutdown fuel s old).map fun s => { s with connection := connection }

def shutdown : ℕ → Peer → Link → Option Peer
  | 0, _, _ => none
  | fuel + 1, s, l =>
    match s.get l with
    | none => none
    | some e =>
      if e.writes.shutdown then some s
      else
        let s := s.set { e with writes := { e.writes with shutdown := true } } l
        let cleared := if e.peer = true ∧ s.connection = some l
          then setConnection fuel s none else some s
        if e.writes.queue.isEmpty then cleared.bind fun s => close fuel s l else cleared

def close : ℕ → Peer → Link → Option Peer
  | 0, _, _ => none
  | fuel + 1, s, l =>
    match s.get l with
    | none => none
    | some e =>
      let s := s.set { e with writes := ConnectionWrites.close e.writes } l
      if e.peer = true ∧ s.connection = some l then setConnection fuel s none else some s

end

/-- Enough for the calls of one event. -/
def FUEL : ℕ := 8

def Endpoint.greet (head : Head) (myId : PeerId) (e : Endpoint) : Option Endpoint :=
  (ConnectionWrites.tryFill head
    (ConnectionWrites.add e.writes (.whole (.header myId true (-1))))).map
    fun writes => { e with writes := writes }

/-- A connection is made when there is none, or only one that was shut down. -/
def getConnection (head : Head) (s : Peer) : Option Peer :=
  if (s.connection.bind s.get).all fun e => e.writes.shutdown then do
    let s ← setConnection FUEL { s with initiated := some ⟨true, true, ConnectionWrites.opened⟩ }
      (some .initiated)
    let e ← s.initiated
    let e ← e.greet head s.myId
    return { s with initiated := some e, connection := some .initiated }
  else some s

def accept (head : Head) (s : Peer) : Option Peer :=
  (Endpoint.greet head s.myId ⟨false, false, ConnectionWrites.opened⟩).map fun e =>
    { s with accepted := some e }

/-- A header on a connection; only the first one counts. -/
def processHeader (s : Peer) (l : Link) : Option Peer := do
  let e ← s.get l
  if e.peer then some s else setConnection FUEL (s.set { e with peer := true } l) (some l)

inductive Party where
  | alice
  | bob
  deriving DecidableEq

def Party.other : Party → Party
  | .alice => .bob
  | .bob => .alice

abbrev World := Party → Peer

def World.start (ids : Party → PeerId) : World := fun p => ⟨ids p, ids p.other, none, none, none⟩

def World.put (w : World) (p : Party) (s : Peer) : World := fun q => if q = p then s else w q

def World.remote (w : World) (p : Party) : Link → Option Endpoint
  | .initiated => (w p.other).accepted
  | .accepted => (w p.other).initiated

inductive Action where
  | initiate (p : Party)
  | accept (p : Party)
  | header (p : Party)
  | notice (p : Party) (l : Link)

/-- A party initiates its connection before it has processed a header and
while there is no connection. A connection can be accepted once it was
initiated, and its header is processed if the party has initiated its own.
The end of a connection is noticed when the remote end was closed, and behind
the header. -/
def World.enabled (w : World) : Action → Bool
  | .initiate p =>
    (w p).initiated.isNone && (w p).connection.isNone && (w p).accepted.all (!·.peer)
  | .accept p => (w p).accepted.isNone && (w p.other).initiated.isSome
  | .header p => (w p).initiated.isSome && (w p).accepted.any fun e => !e.peer && !e.writes.closed
  | .notice p l => ((w p).get l).any (fun e => e.peer && !e.writes.closed) &&
      (w.remote p l).any fun e => e.writes.closed

def World.effect (head : Head) (w : World) : Action → Option World
  | .initiate p => (getConnection head (w p)).map (w.put p)
  | .accept p => (accept head (w p)).map (w.put p)
  | .header p => (processHeader (w p) .accepted).map (w.put p)
  | .notice p l => (close FUEL (w p) l).map (w.put p)

def World.act (head : Head) (w : World) (a : Action) : Option World :=
  if w.enabled a then w.effect head a else none

def World.run (head : Head) (w : World) (actions : List Action) : Option World :=
  actions.foldlM (World.act head) w

def World.Final (w : World) : Prop := ∀ a, w.enabled a = false

section Comparing

theorem asByte_inj {a b : UInt8} (h : asByte a = asByte b) : a = b := by
  have ha := a.toNat_lt
  have hb := b.toNat_lt
  have hnat : a.toNat = b.toNat := by
    rw [asByte, asByte] at h
    split at h <;> split at h <;> omega
  exact UInt8.toNat_inj.mp hnat

theorem compareBytes_swap (as bs : List UInt8) : compareBytes bs as = -compareBytes as bs := by
  induction as generalizing bs with
  | nil => cases bs <;> rfl
  | cons a as ih =>
    cases bs with
    | nil => rfl
    | cons b bs =>
      by_cases hab : a = b
      · rw [compareBytes, compareBytes, if_neg (not_not.mpr hab),
          if_neg (not_not.mpr hab.symm), ih]
      · rw [compareBytes, compareBytes, if_pos hab, if_pos (Ne.symm hab), neg_sub]

theorem compareBytes_eq_zero {as bs : List UInt8} (hlength : as.length = bs.length)
    (h : compareBytes as bs = 0) : as = bs := by
  induction as generalizing bs with
  | nil => exact (List.length_eq_zero_iff.mp hlength.symm).symm
  | cons a as ih =>
    cases bs with
    | nil => cases hlength
    | cons b bs =>
      rw [compareBytes] at h
      by_cases hne : a ≠ b
      · rw [if_pos hne] at h
        exact absurd (asByte_inj (sub_eq_zero.mp h)) hne
      · rw [if_neg hne] at h
        rw [not_not.mp hne, ih (Nat.succ.inj hlength) h]

theorem compare_swap (id other : PeerId) : compare other id = -compare id other :=
  compareBytes_swap _ _

theorem compare_ne_zero {id other : PeerId} (h : id ≠ other) : compare id other ≠ 0 := by
  intro hzero
  refine h (List.ofFn_injective (compareBytes_eq_zero ?_ hzero))
  rw [List.length_ofFn, List.length_ofFn]

/-- One of two different ids is the smaller one. -/
theorem exists_smaller {ids : Party → PeerId} (h : ids .alice ≠ ids .bob) :
    ∃ p : Party, compare (ids p) (ids p.other) < 0 := by
  rcases lt_trichotomy (compare (ids .alice) (ids .bob)) 0 with hlt | hzero | hgt
  · exact ⟨.alice, hlt⟩
  · exact absurd hzero (compare_ne_zero h)
  · refine ⟨.bob, ?_⟩
    change compare (ids .bob) (ids .alice) < 0
    rw [compare_swap]
    omega

end Comparing

structure Open (e : Endpoint) (initiated peer : Bool) : Prop where
  initiated : e.initiated = initiated
  peer : e.peer = peer
  queue : e.writes.queue = []
  shutdown : e.writes.shutdown = false
  closed : e.writes.closed = false

structure Shut (e : Endpoint) : Prop where
  shutdown : e.writes.shutdown = true
  closed : e.writes.closed = true

namespace Peer

@[simp] theorem get_set (s : Peer) (e : Endpoint) (l : Link) : (s.set e l).get l = some e := by
  cases l <;> rfl

@[simp] theorem connection_set (s : Peer) (e : Endpoint) (l : Link) :
    (s.set e l).connection = s.connection := by
  cases l <;> rfl

@[simp] theorem set_set (s : Peer) (e e' : Endpoint) (l : Link) :
    (s.set e l).set e' l = s.set e' l := by
  cases l <;> rfl

theorem get_connection (s : Peer) (connection : Option Link) (l : Link) :
    ({ s with connection := connection } : Peer).get l = s.get l := by
  cases l <;> rfl

theorem set_connection (s : Peer) (connection : Option Link) (e : Endpoint) (l : Link) :
    ({ s with connection := connection } : Peer).set e l =
      { s.set e l with connection := connection } := by
  cases l <;> rfl

end Peer

def Endpoint.down (e : Endpoint) : Endpoint :=
  { e with writes := { e.writes with shutdown := true } }

def Endpoint.shut (e : Endpoint) : Endpoint :=
  { e with writes := ConnectionWrites.close { e.writes with shutdown := true } }

section Calls

variable {s : Peer} {e : Endpoint} {l : Link}

theorem close_other (fuel : ℕ) (hget : s.get l = some e) (hother : s.connection ≠ some l) :
    close (fuel + 1) s l = some
      (s.set { e with writes := ConnectionWrites.close e.writes } l) := by
  simp only [close, hget, Peer.connection_set, hother, and_false, if_false]

theorem shutdown_again (fuel : ℕ) (hget : s.get l = some e) (he : e.writes.shutdown = true) :
    shutdown (fuel + 1) s l = some s := by
  simp only [shutdown, hget, he, if_true]

/-- Clearing a connection that was shut down before. -/
theorem setConnection_clear (fuel : ℕ) (hget : s.get l = some e) (he : e.writes.shutdown = true)
    (hconnection : s.connection = some l) :
    setConnection (fuel + 2) s none = some { s with connection := none } := by
  simp only [setConnection, hconnection, reduceCtorEq, if_false, Option.filter_none,
    shutdown_again fuel hget he, Option.map_some]

theorem shutdown_open (fuel : ℕ) (hget : s.get l = some e) (hqueue : e.writes.queue = [])
    (he : e.writes.shutdown = false) :
    shutdown (fuel + 1) s l =
      (if e.peer = true ∧ s.connection = some l then setConnection fuel (s.set e.down l) none
        else some (s.set e.down l)).bind fun s => close fuel s l := by
  simp only [shutdown, hget]
  rw [if_neg (by rw [he]; exact Bool.false_ne_true), if_pos (by rw [hqueue]; rfl),
    Peer.connection_set]
  rfl

theorem shutdown_other (fuel : ℕ) (hget : s.get l = some e) (hqueue : e.writes.queue = [])
    (he : e.writes.shutdown = false) (hother : s.connection ≠ some l) :
    shutdown (fuel + 2) s l = some (s.set e.shut l) := by
  rw [shutdown_open (fuel + 1) hget hqueue he, if_neg fun h => hother h.2, Option.bind_some,
    close_other fuel (s.get_set e.down l) (by rw [Peer.connection_set]; exact hother),
      Peer.set_set]
  rfl

/-- A shutdown of the current connection clears the field and then closes. -/
theorem shutdown_current (fuel : ℕ) (hget : s.get l = some e) (hpeer : e.peer = true)
    (hqueue : e.writes.queue = []) (he : e.writes.shutdown = false)
    (hconnection : s.connection = some l) :
    shutdown (fuel + 3) s l = some { s.set e.shut l with connection := none } := by
  rw [shutdown_open (fuel + 2) hget hqueue he, if_pos ⟨hpeer, hconnection⟩,
    setConnection_clear fuel (s.get_set e.down l) rfl
      (by rw [Peer.connection_set]; exact hconnection),
    Option.bind_some, close_other (e := e.down) (fuel + 1)
      (by rw [Peer.get_connection, Peer.get_set])
      (fun hno => by cases hno), Peer.set_connection, Peer.set_set]
  rfl

theorem setConnection_first (fuel : ℕ) (l : Link) (hnone : s.connection = none) :
    setConnection (fuel + 1) s (some l) = some { s with connection := some l } := by
  simp only [setConnection, hnone, reduceCtorEq, if_false]

theorem setConnection_keep (fuel : ℕ) {old new : Link} (hconnection : s.connection = some old)
    (hne : old ≠ new) (hkeeps : s.keeps old new = true) :
    setConnection (fuel + 1) s (some new) = shutdown fuel s new := by
  rw [setConnection, if_neg (by rw [hconnection]; exact fun hno => hne (Option.some.inj hno))]
  simp only [hconnection, Option.filter_some, hkeeps, if_true]

theorem setConnection_replace (fuel : ℕ) {old new : Link} (hconnection : s.connection = some old)
    (hne : old ≠ new) (hkeeps : ¬ s.keeps old new = true) :
    setConnection (fuel + 1) s (some new) =
      (shutdown fuel s old).map fun s => { s with connection := some new } := by
  rw [setConnection, if_neg (by rw [hconnection]; exact fun hno => hne (Option.some.inj hno))]
  simp only [hconnection, Option.filter_some, hkeeps, Bool.false_eq_true, if_false]

/-- The end of the current connection. -/
theorem close_current (fuel : ℕ) (hget : s.get l = some e) (hpeer : e.peer = true)
    (hqueue : e.writes.queue = []) (he : e.writes.shutdown = false)
    (hconnection : s.connection = some l) :
    close (fuel + 5) s l = some { s.set e.shut l with connection := none } := by
  have hshutdown : shutdown (fuel + 3)
      (s.set { e with writes := ConnectionWrites.close e.writes } l) l =
        some { s.set e.shut l with connection := none } := by
    rw [shutdown_current (e := { e with writes := ConnectionWrites.close e.writes })
      fuel (s.get_set _ l)
      hpeer hqueue he (by rw [Peer.connection_set]; exact hconnection), Peer.set_set]
    rfl
  have hclear : setConnection (fuel + 4)
      (s.set { e with writes := ConnectionWrites.close e.writes } l) none =
        some { s.set e.shut l with connection := none } := by
    simp only [setConnection, Peer.connection_set, hconnection, reduceCtorEq, if_false,
      Option.filter_none, hshutdown, Option.map_some]
  simp only [close, hget, Peer.connection_set]
  rw [if_pos ⟨hpeer, hconnection⟩]
  exact hclear

/-- The competing connection is kept or replaced, as the ids say. -/
theorem keeps_iff {a : Endpoint} (hinitiated : s.initiated = some e) (he : Open e true true)
    (haccepted : s.accepted = some a) (ha : a.initiated = false) :
    s.keeps .initiated .accepted = true ↔ compare s.myId s.id < 0 := by
  simp [Peer.keeps, Peer.get, hinitiated, haccepted, he.initiated, he.shutdown, ha]

end Calls

theorem greet_spec (head : Head) (myId : PeerId) (initiated peer : Bool) :
    ∃ e, Endpoint.greet head myId ⟨initiated, peer, ConnectionWrites.opened⟩ = some e ∧
      Open e initiated peer := by
  obtain ⟨c, hc, hrunning, hqueue⟩ := ConnectionWrites.connect_spec head myId
  exact ⟨⟨initiated, peer, c⟩, congrArg (Option.map _) hc, rfl, rfl, hqueue, hrunning.shutdown,
    hrunning.closed⟩

def Accepting (s : Peer) : Prop :=
  s.accepted = none ∨ ∃ a, s.accepted = some a ∧ Open a false false

structure Initiated (s : Peer) : Prop where
  connection : s.connection = some .initiated
  endpoint : ∃ e, s.initiated = some e ∧ Open e true true

section Sides

variable {s : Peer}

theorem getConnection_spec (head : Head) (hnone : s.connection = none) :
    ∃ e, getConnection head s =
      some { s with connection := some .initiated, initiated := some e } ∧
      Open e true true := by
  obtain ⟨e, hgreet, he⟩ := greet_spec head s.myId true true
  refine ⟨e, ?_, he⟩
  have hset : setConnection FUEL
    { s with initiated := some ⟨true, true, ConnectionWrites.opened⟩ }
      (some .initiated) = some { s with
        connection := some .initiated
        initiated := some ⟨true, true, ConnectionWrites.opened⟩ } :=
    setConnection_first 7 .initiated hnone
  have hall : ((s.connection.bind s.get).all fun e => e.writes.shutdown) = true := by
    rw [hnone]
    rfl
  rw [getConnection, if_pos hall, hset]
  change (Endpoint.greet head s.myId ⟨true, true, ConnectionWrites.opened⟩ >>= _) = _
  rw [hgreet]
  rfl

theorem accept_spec (head : Head) :
    ∃ a, accept head s = some { s with accepted := some a } ∧ Open a false false := by
  obtain ⟨a, hgreet, ha⟩ := greet_spec head s.myId false false
  exact ⟨a, congrArg (Option.map _) hgreet, ha⟩

variable {a : Endpoint} (haccepted : s.accepted = some a) (ha : Open a false false)

include haccepted ha

theorem processHeader_eq : processHeader s .accepted =
    setConnection FUEL { s with accepted := some { a with peer := true } } (some .accepted) := by
  rw [processHeader]
  change (s.accepted >>= _) = _
  rw [haccepted]
  change (if a.peer then some s else _) = _
  rw [if_neg (by rw [ha.peer]; exact Bool.false_ne_true)]
  rfl

theorem processHeader_first (hnone : s.connection = none) :
    ∃ a', processHeader s .accepted = some { s with
        connection := some .accepted, accepted := some a' } ∧ Open a' false true := by
  refine ⟨{ a with peer := true }, ?_, ha.initiated, rfl, ha.queue, ha.shutdown, ha.closed⟩
  rw [processHeader_eq haccepted ha]
  exact setConnection_first 7 .accepted hnone

/-- The party with the smaller id closes what it accepted. -/
theorem processHeader_keep (hinit : Initiated s) (hcmp : compare s.myId s.id < 0) :
    ∃ a', processHeader s .accepted = some { s with accepted := some a' } ∧ Shut a' := by
  obtain ⟨e, hinitiated, he⟩ := hinit.endpoint
  have hkeeps :=
    (keeps_iff (s := { s with accepted := some { a with peer := true } }) hinitiated he rfl
    ha.initiated).mpr hcmp
  refine ⟨Endpoint.shut { a with peer := true }, ?_, rfl, rfl⟩
  have hshut : shutdown 7 { s with accepted := some { a with peer := true } } .accepted =
      some { s with accepted := some (Endpoint.shut { a with peer := true }) } :=
    shutdown_other (e := { a with peer := true }) 5 rfl ha.queue ha.shutdown
      (by rw [hinit.connection]; decide)
  rw [processHeader_eq haccepted ha]
  exact (setConnection_keep (s := { s with accepted := some { a with peer := true } }) 7
    hinit.connection (by decide) hkeeps).trans hshut

/-- The other party closes what it initiated. -/
theorem processHeader_replace (hinit : Initiated s) (hcmp : ¬ compare s.myId s.id < 0) :
    ∃ e' a', processHeader s .accepted = some { s with
        connection := some .accepted, initiated := some e', accepted := some a' } ∧
      Shut e' ∧ Open a' false true := by
  obtain ⟨e, hinitiated, he⟩ := hinit.endpoint
  have hkeeps :=
    (keeps_iff (s := { s with accepted := some { a with peer := true } }) hinitiated he rfl
    ha.initiated).not.mpr hcmp
  refine ⟨e.shut, { a with peer := true }, ?_, ⟨rfl, rfl⟩,
    ha.initiated, rfl, ha.queue, ha.shutdown, ha.closed⟩
  have hshut : shutdown 7 { s with accepted := some { a with peer := true } } .initiated =
      some { s with connection := none, initiated := some e.shut
                    accepted := some { a with peer := true } } :=
    shutdown_current (e := e) 4 hinitiated he.peer he.queue he.shutdown hinit.connection
  rw [processHeader_eq haccepted ha]
  exact (setConnection_replace (s := { s with accepted := some { a with peer := true } }) 7
    hinit.connection (by decide) hkeeps).trans (congrArg (Option.map _) hshut)

end Sides

/-- How far a party is. With the smaller id it keeps its own connection and
closes the one it accepted. With the greater id its own one is closed when the
competing header arrives, or before that by the remote end. -/
inductive Phase (s : Peer) : Prop where
  | idle (connection : s.connection = none) (initiated : s.initiated = none)
    (accepting : Accepting s)
  | waiting (initiated : Initiated s) (accepting : Accepting s)
  | kept (smaller : compare s.myId s.id < 0) (initiated : Initiated s)
      (shut : ∃ a, s.accepted = some a ∧ Shut a)
  | dropped (greater : ¬ compare s.myId s.id < 0) (connection : s.connection = none)
      (shut : ∃ e, s.initiated = some e ∧ Shut e) (accepting : Accepting s)
  | replaced (greater : ¬ compare s.myId s.id < 0) (connection : s.connection = some .accepted)
      (shut : ∃ e, s.initiated = some e ∧ Shut e)
        (accepted : ∃ a, s.accepted = some a ∧ Open a false true)

/-- The connection of this party: not made, open, or closed with the greater id. -/
theorem Phase.initiated_cases {s : Peer} (h : Phase s) :
    (s.connection = none ∧ s.initiated = none ∧ Accepting s) ∨ Initiated s ∨
      (¬ compare s.myId s.id < 0 ∧ ∃ e, s.initiated = some e ∧ Shut e) := by
  cases h with
  | idle hconnection hinitiated haccepting => exact .inl ⟨hconnection, hinitiated, haccepting⟩
  | waiting hinitiated _ => exact .inr (.inl hinitiated)
  | kept _ hinitiated _ => exact .inr (.inl hinitiated)
  | dropped hgreater _ hshut _ => exact .inr (.inr ⟨hgreater, hshut⟩)
  | replaced hgreater _ hshut _ => exact .inr (.inr ⟨hgreater, hshut⟩)

/-- The connection from the other party: not introduced, closed with the
smaller id, or the one that is kept with the greater id. -/
theorem Phase.accepted_cases {s : Peer} (h : Phase s) :
    Accepting s ∨ (compare s.myId s.id < 0 ∧ ∃ a, s.accepted = some a ∧ Shut a) ∨
      (¬ compare s.myId s.id < 0 ∧ ∃ a, s.accepted = some a ∧ Open a false true) := by
  cases h with
  | idle _ _ haccepting => exact .inl haccepting
  | waiting _ haccepting => exact .inl haccepting
  | kept hsmaller _ hshut => exact .inr (.inl ⟨hsmaller, hshut⟩)
  | dropped _ _ _ haccepting => exact .inl haccepting
  | replaced hgreater _ _ hopen => exact .inr (.inr ⟨hgreater, hopen⟩)

/-- What is still to be done with a connection of this party, and with one
that it accepts. -/
def rankInitiated : Option Endpoint → ℕ
  | none => 2
  | some e => if e.writes.closed then 0 else 1

def rankAccepted : Option Endpoint → ℕ
  | none => 3
  | some a => if a.writes.closed then 0 else if a.peer then 1 else 2

def Peer.rank (s : Peer) : ℕ := rankInitiated s.initiated + rankAccepted s.accepted

structure Stepped (s s' : Peer) : Prop where
  phase : Phase s'
  myId : s'.myId = s.myId
  id : s'.id = s.id
  rank : s'.rank < s.rank

section Ranks

variable {e : Endpoint} {peer : Bool}

theorem rankInitiated_open (h : Open e true peer) : rankInitiated (some e) = 1 := by
  rw [rankInitiated, h.closed, if_neg Bool.false_ne_true]

theorem rankInitiated_shut (h : Shut e) : rankInitiated (some e) = 0 := by
  rw [rankInitiated, h.closed, if_pos rfl]

theorem rankAccepted_new (h : Open e false false) : rankAccepted (some e) = 2 := by
  rw [rankAccepted, h.closed, h.peer, if_neg Bool.false_ne_true, if_neg Bool.false_ne_true]

theorem rankAccepted_known (h : Open e false true) : rankAccepted (some e) = 1 := by
  rw [rankAccepted, h.closed, h.peer, if_neg Bool.false_ne_true, if_pos rfl]

theorem rankAccepted_shut (h : Shut e) : rankAccepted (some e) = 0 := by
  rw [rankAccepted, h.closed, if_pos rfl]

end Ranks

section Steps

variable {s : Peer}

theorem Phase.initiate (head : Head) (h : Phase s) (hnone : s.initiated = none) :
    ∃ s', getConnection head s = some s' ∧ Stepped s s' := by
  have habsurd : ∀ {e}, s.initiated = some e → False := by
    intro e he
    rw [hnone] at he
    cases he
  rcases h.initiated_cases with ⟨hconnection, -, haccepting⟩ | hinitiated | ⟨-, e, he, -⟩
  · obtain ⟨e, hget, he⟩ := getConnection_spec head hconnection
    refine ⟨_, hget, .waiting ⟨rfl, e, rfl, he⟩ haccepting, rfl, rfl, ?_⟩
    rw [Peer.rank, Peer.rank, hnone, rankInitiated_open he]
    exact Nat.add_lt_add_right (by decide) _
  · obtain ⟨e, he, -⟩ := hinitiated.endpoint
    exact (habsurd he).elim
  · exact (habsurd he).elim

theorem Phase.accept (head : Head) (h : Phase s) (hnone : s.accepted = none) :
    ∃ s', accept head s = some s' ∧ Stepped s s' := by
  have habsurd : (∃ a, s.accepted = some a) → False := by
    rintro ⟨a, ha⟩
    rw [hnone] at ha
    cases ha
  obtain ⟨a, haccept, ha⟩ := accept_spec (s := s) head
  have hnew : Accepting { s with accepted := some a } := Or.inr ⟨a, rfl, ha⟩
  have hrank : Peer.rank { s with accepted := some a } < s.rank := by
    rw [Peer.rank, Peer.rank, hnone, rankAccepted_new ha]
    exact Nat.add_lt_add_left (by decide) _
  cases h with
  | idle hconnection hinitiated _ =>
    exact ⟨_, haccept, .idle hconnection hinitiated hnew, rfl, rfl, hrank⟩
  | waiting hinitiated _ =>
    exact ⟨_, haccept, .waiting ⟨hinitiated.connection, hinitiated.endpoint⟩ hnew, rfl,
      rfl, hrank⟩
  | kept _ _ hshut => exact (habsurd (hshut.imp fun e he => he.1)).elim
  | dropped hgreater hconnection hshut _ =>
    exact ⟨_, haccept, .dropped hgreater hconnection hshut hnew, rfl, rfl, hrank⟩
  | replaced _ _ _ haccepted => exact (habsurd (haccepted.imp fun e he => he.1)).elim

/-- The header arrives on a connection that was not introduced before. -/
theorem Phase.header (h : Phase s) {a : Endpoint} (haccepted : s.accepted = some a)
    (ha : Open a false false) (hsome : s.initiated ≠ none) :
    ∃ s', processHeader s .accepted = some s' ∧ Stepped s s' := by
  have hbefore : s.rank = rankInitiated s.initiated + 2 := by
    rw [Peer.rank, haccepted, rankAccepted_new ha]
  cases h with
  | idle _ hinitiated _ => exact absurd hinitiated hsome
  | waiting hinitiated _ =>
    by_cases hcmp : compare s.myId s.id < 0
    · obtain ⟨a', hheader, hshut⟩ := processHeader_keep haccepted ha hinitiated hcmp
      refine ⟨_, hheader, .kept hcmp
        ⟨hinitiated.connection, hinitiated.endpoint⟩ ⟨a', rfl, hshut⟩,
        rfl, rfl, ?_⟩
      rw [hbefore, Peer.rank, rankAccepted_shut hshut]
      exact Nat.add_lt_add_left (by decide) _
    · obtain ⟨e', a', hheader, hshut, hopen⟩ := processHeader_replace haccepted ha hinitiated hcmp
      refine ⟨_, hheader, .replaced hcmp rfl ⟨e', rfl, hshut⟩ ⟨a', rfl, hopen⟩, rfl, rfl, ?_⟩
      rw [hbefore, Peer.rank, rankInitiated_shut hshut, rankAccepted_known hopen]
      omega
  | kept _ _ hshut =>
    obtain ⟨a', ha', hshut⟩ := hshut
    rw [haccepted] at ha'
    rw [← Option.some.inj ha'] at hshut
    exact absurd (ha.closed.symm.trans hshut.closed) Bool.false_ne_true
  | dropped hgreater hconnection hshut _ =>
    obtain ⟨a', hheader, hopen⟩ := processHeader_first haccepted ha hconnection
    refine ⟨_, hheader, .replaced hgreater rfl hshut ⟨a', rfl, hopen⟩, rfl, rfl, ?_⟩
    rw [hbefore, Peer.rank, rankAccepted_known hopen]
    exact Nat.add_lt_add_left (by decide) _
  | replaced _ _ _ hopen =>
    obtain ⟨a', ha', hopen⟩ := hopen
    rw [haccepted] at ha'
    rw [← Option.some.inj ha'] at hopen
    exact absurd (ha.peer.symm.trans hopen.peer) Bool.false_ne_true

/-- The remote end has closed the connection of this party. -/
theorem Phase.notice (hinitiated : Initiated s) (haccepting : Accepting s)
    (hgreater : ¬ compare s.myId s.id < 0) :
    ∃ s', close FUEL s .initiated = some s' ∧ Stepped s s' := by
  obtain ⟨e, hget, he⟩ := hinitiated.endpoint
  have hshut : Shut e.shut := ⟨rfl, rfl⟩
  refine ⟨_, close_current 3 hget he.peer he.queue he.shutdown hinitiated.connection,
    .dropped hgreater rfl ⟨e.shut, rfl, hshut⟩ haccepting, rfl, rfl, ?_⟩
  rw [Peer.rank, Peer.rank, hget, rankInitiated_open he]
  change rankInitiated (some e.shut) + _ < _
  rw [rankInitiated_shut hshut]
  exact Nat.add_lt_add_right (by decide) _

end Steps

theorem Phase.closed_initiated {s : Peer} (h : Phase s)
    (hclosed : (s.initiated.any fun e => e.writes.closed) = true) :
    ¬ compare s.myId s.id < 0 := by
  rcases h.initiated_cases with ⟨-, hnone, -⟩ | hinitiated | ⟨hgreater, -⟩
  · rw [hnone] at hclosed
    cases hclosed
  · obtain ⟨e, he, hopen⟩ := hinitiated.endpoint
    rw [he, Option.any_some, hopen.closed] at hclosed
    cases hclosed
  · exact hgreater

theorem Phase.closed_accepted {s : Peer} (h : Phase s)
    (hclosed : (s.accepted.any fun e => e.writes.closed) = true) : compare s.myId s.id < 0 := by
  rcases h.accepted_cases with (hnone | ⟨a, ha, hopen⟩) | ⟨hsmaller, -⟩ | ⟨-, a, ha, hopen⟩
  · rw [hnone] at hclosed
    cases hclosed
  · rw [ha, Option.any_some, hopen.closed] at hclosed
    cases hclosed
  · exact hsmaller
  · rw [ha, Option.any_some, hopen.closed] at hclosed
    cases hclosed

structure Agreeing (ids : Party → PeerId) (w : World) : Prop where
  phase : ∀ q, Phase (w q)
  myId : ∀ q, (w q).myId = ids q
  id : ∀ q, (w q).id = ids q.other

def World.rank (w : World) : ℕ := (w .alice).rank + (w .bob).rank

section Worlds

variable {ids : Party → PeerId} {w : World}

@[simp] theorem Party.other_other (p : Party) : p.other.other = p := by
  cases p <;> rfl

theorem World.put_self (p : Party) (s : Peer) : w.put p s p = s := if_pos rfl

theorem World.put_ne {p q : Party} (s : Peer) (h : q ≠ p) : w.put p s q = w q := if_neg h

/-- One party makes a step. -/
theorem Agreeing.put (h : Agreeing ids w) {p : Party} {s' : Peer} (hs : Stepped (w p) s') :
    Agreeing ids (w.put p s') ∧ (w.put p s').rank < w.rank := by
  have hcases : ∀ q, (q = p ∧ w.put p s' q = s') ∨ (q ≠ p ∧ w.put p s' q = w q) := by
    intro q
    by_cases hq : q = p
    · subst hq
      exact Or.inl ⟨rfl, World.put_self q s'⟩
    · exact Or.inr ⟨hq, World.put_ne s' hq⟩
  refine ⟨⟨fun q => ?_, fun q => ?_, fun q => ?_⟩, ?_⟩
  · rcases hcases q with ⟨-, hput⟩ | ⟨-, hput⟩
    · rw [hput]
      exact hs.phase
    · rw [hput]
      exact h.phase q
  · rcases hcases q with ⟨rfl, hput⟩ | ⟨-, hput⟩
    · rw [hput, hs.myId, h.myId]
    · rw [hput, h.myId]
  · rcases hcases q with ⟨rfl, hput⟩ | ⟨-, hput⟩
    · rw [hput, hs.id, h.id]
    · rw [hput, h.id]
  · have hrank := hs.rank
    cases p with
    | alice =>
      rw [World.rank, World.rank, World.put_self, World.put_ne s' (by decide)]
      omega
    | bob =>
      rw [World.rank, World.rank, World.put_self, World.put_ne s' (by decide)]
      omega

theorem Agreeing.smaller_iff (h : Agreeing ids w) (q : Party) :
    compare (w q).myId (w q).id < 0 ↔ compare (ids q) (ids q.other) < 0 := by
  rw [h.myId, h.id]

/-- Not both ids are the smaller one. -/
theorem Agreeing.not_both (h : Agreeing ids w) {q : Party}
    (hq : compare (w q.other).myId (w q.other).id < 0) : ¬ compare (w q).myId (w q).id < 0 := by
  rw [h.smaller_iff, Party.other_other, compare_swap (ids q)] at hq
  rw [h.smaller_iff]
  omega

theorem Phase.of_notice {s : Peer} (h : Phase s) (hgreater : ¬ compare s.myId s.id < 0)
    (henabled : (s.initiated.any fun e => e.peer && !e.writes.closed) = true) :
    Initiated s ∧ Accepting s := by
  have habsurd : (∃ e, s.initiated = some e ∧ Shut e) → False := by
    rintro ⟨e, he, hshut⟩
    rw [he, Option.any_some, hshut.closed, Bool.not_true, Bool.and_false] at henabled
    cases henabled
  cases h with
  | idle _ hinitiated _ =>
    rw [hinitiated] at henabled
    cases henabled
  | waiting hinitiated haccepting => exact ⟨hinitiated, haccepting⟩
  | kept hsmaller _ _ => exact absurd hsmaller hgreater
  | dropped _ _ hshut _ => exact (habsurd hshut).elim
  | replaced _ _ hshut _ => exact (habsurd hshut).elim

/-- A header that was not processed, on a connection that is open. -/
theorem Phase.of_header {s : Peer} (h : Phase s)
    (henabled : (s.accepted.any fun e => !e.peer && !e.writes.closed) = true) :
    ∃ a, s.accepted = some a ∧ Open a false false := by
  rcases h.accepted_cases with (hnone | hsome) | ⟨-, a, ha, hshut⟩ | ⟨-, a, ha, hopen⟩
  · rw [hnone] at henabled
    cases henabled
  · exact hsome
  · rw [ha, Option.any_some, hshut.closed, Bool.not_true, Bool.and_false] at henabled
    cases henabled
  · rw [ha, Option.any_some, hopen.peer, Bool.not_true, Bool.false_and] at henabled
    cases henabled

/-- An open connection that was introduced is kept only with the greater id. -/
theorem Phase.of_known {s : Peer} (h : Phase s)
    (hknown : (s.accepted.any fun e => e.peer && !e.writes.closed) = true) :
    ¬ compare s.myId s.id < 0 := by
  rcases h.accepted_cases with (hnone | ⟨a, ha, hopen⟩) | ⟨-, a, ha, hshut⟩ | ⟨hgreater, -⟩
  · rw [hnone] at hknown
    cases hknown
  · rw [ha, Option.any_some, hopen.peer, Bool.false_and] at hknown
    cases hknown
  · rw [ha, Option.any_some, hshut.closed, Bool.not_true, Bool.and_false] at hknown
    cases hknown
  · exact hgreater

/-- One of the ids is the smaller one. -/
theorem Agreeing.not_neither (h : Agreeing ids w) (hne : ids .alice ≠ ids .bob) (q : Party)
    (hq : ¬ compare (w q).myId (w q).id < 0) : compare (w q.other).myId (w q.other).id < 0 := by
  have hzero : compare (ids q) (ids q.other) ≠ 0 := by
    cases q with
    | alice => exact compare_ne_zero hne
    | bob => exact compare_ne_zero hne.symm
  rw [h.smaller_iff] at hq
  rw [h.smaller_iff, Party.other_other, compare_swap (ids q)]
  omega

/-- Everything that can happen has an effect, and keeps the parties agreeing. -/
theorem Agreeing.effect (h : Agreeing ids w) (hne : ids .alice ≠ ids .bob)
    (head : Head) {a : Action} (henabled : w.enabled a = true) :
    ∃ w', w.effect head a = some w' ∧ Agreeing ids w' ∧ w'.rank < w.rank := by
  have hput : ∀ p s', Stepped (w p) s' → Agreeing ids (w.put p s') ∧ (w.put p s').rank < w.rank :=
    fun p s' hs => h.put hs
  cases a with
  | initiate p =>
    rw [World.enabled, Bool.and_eq_true, Bool.and_eq_true, Option.isNone_iff_eq_none] at henabled
    obtain ⟨s', hstep, hs⟩ := (h.phase p).initiate head henabled.1.1
    exact ⟨w.put p s', congrArg (Option.map _) hstep, hput p s' hs⟩
  | accept p =>
    rw [World.enabled, Bool.and_eq_true, Option.isNone_iff_eq_none] at henabled
    obtain ⟨s', hstep, hs⟩ := (h.phase p).accept head henabled.1
    exact ⟨w.put p s', congrArg (Option.map _) hstep, hput p s' hs⟩
  | header p =>
    rw [World.enabled, Bool.and_eq_true] at henabled
    obtain ⟨a, ha, hopen⟩ := (h.phase p).of_header henabled.2
    obtain ⟨s', hstep, hs⟩ := (h.phase p).header ha hopen (by
      intro hno
      rw [hno] at henabled
      exact Bool.false_ne_true henabled.1)
    exact ⟨w.put p s', congrArg (Option.map _) hstep, hput p s' hs⟩
  | notice p l =>
    rw [World.enabled, Bool.and_eq_true] at henabled
    obtain ⟨hlocal, hremote⟩ := henabled
    cases l with
    | initiated =>
      have hgreater := h.not_both ((h.phase p.other).closed_accepted hremote)
      obtain ⟨hinitiated, haccepting⟩ := (h.phase p).of_notice hgreater hlocal
      obtain ⟨s', hstep, hs⟩ := Phase.notice hinitiated haccepting hgreater
      exact ⟨w.put p s', congrArg (Option.map _) hstep, hput p s' hs⟩
    | accepted =>
      have hgreater := (h.phase p).of_known hlocal
      exact absurd (h.not_neither hne p hgreater) ((h.phase p.other).closed_initiated hremote)

theorem Agreeing.run (hne : ids .alice ≠ ids .bob) (head : Head)
    (actions : List Action) {w w' : World}
    (h : Agreeing ids w) (hrun : w.run head actions = some w') :
    Agreeing ids w' ∧ actions.length + w'.rank ≤ w.rank := by
  induction actions generalizing w with
  | nil =>
    cases hrun
    exact ⟨h, by simp⟩
  | cons a actions ih =>
    rw [World.run, List.foldlM_cons] at hrun
    obtain ⟨w₁, hact, hrun⟩ := Option.bind_eq_some_iff.mp hrun
    rw [World.act] at hact
    by_cases henabled : w.enabled a = true
    · rw [if_pos henabled] at hact
      obtain ⟨w₂, heffect, hagree, hrank⟩ := h.effect hne head henabled
      rw [heffect] at hact
      rw [← Option.some.inj hact] at hrun
      obtain ⟨hfinal, hlength⟩ := ih hagree hrun
      refine ⟨hfinal, ?_⟩
      rw [List.length_cons]
      omega
    · rw [if_neg henabled] at hact
      cases hact

theorem agreeing_start (ids : Party → PeerId) : Agreeing ids (World.start ids) :=
  ⟨fun _ => .idle rfl rfl (Or.inl rfl), fun _ => rfl, fun _ => rfl⟩

/-- When nothing more can happen, both parties have processed a header. -/
theorem Agreeing.final (h : Agreeing ids w) (hfinal : w.Final) (q : Party) :
    (w q).initiated ≠ none ∧ ¬ Accepting (w q) := by
  have hinitiated : ∀ p, (w p).initiated ≠ none := by
    intro p
    rcases (h.phase p).initiated_cases
      with ⟨hconnection, hnone, haccepting⟩ | hinitiated | ⟨-, e, he, -⟩
    · have hno := hfinal (.initiate p)
      have hall : ((w p).accepted.all (!·.peer)) = true := by
        rcases haccepting with hnone | ⟨a, ha, hopen⟩
        · rw [hnone]
          rfl
        · rw [ha, Option.all_some, hopen.peer]
          rfl
      rw [World.enabled, hnone, hconnection, hall] at hno
      cases hno
    · obtain ⟨e, he, -⟩ := hinitiated.endpoint
      exact Option.ne_none_iff_exists'.mpr ⟨e, he⟩
    · exact Option.ne_none_iff_exists'.mpr ⟨e, he⟩
  refine ⟨hinitiated q, ?_⟩
  rintro (hnone | ⟨a, ha, hopen⟩)
  · have hno := hfinal (.accept q)
    rw [World.enabled, hnone, Option.isSome_iff_ne_none.mpr (hinitiated q.other)] at hno
    cases hno
  · have hno := hfinal (.header q)
    rw [World.enabled, ha, Option.any_some, hopen.peer, hopen.closed,
      Option.isSome_iff_ne_none.mpr (hinitiated q)] at hno
    cases hno

end Worlds

/-- Two parties with different ids that connect to each other keep one
connection, the one that the smaller id initiated, in whatever order things
happen; nothing is stuck before that, and at most ten things happen. -/
theorem one_connection_kept (head : Head) (ids : Party → PeerId) (hne : ids .alice ≠ ids .bob) :
    ∃ p, compare (ids p) (ids p.other) < 0 ∧
      ∀ actions w, (World.start ids).run head actions = some w →
        actions.length ≤ 10 ∧ (∀ a, w.enabled a = true → ∃ w', w.act head a = some w') ∧
        (w.Final →
          (w p).connection = some .initiated ∧ (w p.other).connection = some .accepted ∧
          (∃ e, (w p).initiated = some e ∧ e.writes.closed = false ∧ e.writes.shutdown = false) ∧
          (∃ e, (w p.other).accepted = some e ∧ e.writes.closed = false ∧
            e.writes.shutdown = false) ∧
          (∃ e, (w p).accepted = some e ∧ e.writes.closed = true) ∧
          ∃ e, (w p.other).initiated = some e ∧ e.writes.closed = true) := by
  obtain ⟨p, hp⟩ := exists_smaller hne
  refine ⟨p, hp, fun actions w hrun => ?_⟩
  obtain ⟨hagree, hlength⟩ := (agreeing_start ids).run hne head actions hrun
  have hten : (World.start ids).rank = 10 := rfl
  refine ⟨by omega, fun a ha => ?_, fun hfinal => ?_⟩
  · obtain ⟨w', heffect, -⟩ := hagree.effect hne head ha
    exact ⟨w', by rw [World.act, if_pos ha, heffect]⟩
  · have hsmaller : compare (w p).myId (w p).id < 0 := (hagree.smaller_iff p).mpr hp
    have hgreater : ¬ compare (w p.other).myId (w p.other).id < 0 := by
      refine hagree.not_both ?_
      rw [Party.other_other]
      exact hsmaller
    obtain ⟨hinitiated, hnot⟩ := hagree.final hfinal p
    obtain ⟨hinitiated', hnot'⟩ := hagree.final hfinal p.other
    cases hagree.phase p with
    | idle _ hnone _ => exact absurd hnone hinitiated
    | waiting _ haccepting => exact absurd haccepting hnot
    | dropped hno _ _ _ => exact absurd hsmaller hno
    | replaced hno _ _ _ => exact absurd hsmaller hno
    | kept _ hkept hclosed =>
      cases hagree.phase p.other with
      | idle _ hnone _ => exact absurd hnone hinitiated'
      | waiting _ haccepting => exact absurd haccepting hnot'
      | dropped _ _ _ haccepting => exact absurd haccepting hnot'
      | kept hyes _ _ => exact absurd hyes hgreater
      | replaced _ hconnection hshut hopen =>
        obtain ⟨e, he, heopen⟩ := hkept.endpoint
        obtain ⟨a, ha, haopen⟩ := hopen
        refine ⟨hkept.connection, hconnection, ⟨e, he, heopen.closed, heopen.shutdown⟩,
          ⟨a, ha, haopen.closed, haopen.shutdown⟩, ?_, ?_⟩
        · exact hclosed.imp fun e he => ⟨he.1, he.2.closed⟩
        · exact hshut.imp fun e he => ⟨he.1, he.2.closed⟩

def twoIds : Party → PeerId
  | .alice => fun _ => 1
  | .bob => fun _ => 2

def droppedFirst : List Action :=
  [.initiate .alice, .initiate .bob, .accept .alice, .header .alice, .notice .bob .initiated,
    .accept .bob, .header .bob]

theorem one_connection_kept_dropped :
    twoIds .alice ≠ twoIds .bob ∧
    (∃ p, compare (twoIds p) (twoIds p.other) < 0 ∧
      ∀ w, (World.start twoIds).run ConnectionWrites.firstHighest droppedFirst = some w →
      w.Final →
        (w p).connection = some .initiated ∧ (w p.other).connection = some .accepted) ∧
    ((World.start twoIds).run ConnectionWrites.firstHighest droppedFirst).map
      (fun w => ((w .alice).connection, (w .bob).connection)) =
        some (some .initiated, some .accepted) := by
  have hne : twoIds .alice ≠ twoIds .bob := by decide
  obtain ⟨p, hp, hall⟩ := one_connection_kept ConnectionWrites.firstHighest twoIds hne
  refine ⟨hne, ⟨p, hp, fun w hrun hfinal => ?_⟩, by decide +kernel⟩
  obtain ⟨-, -, hkept⟩ := hall droppedFirst w hrun
  exact ⟨(hkept hfinal).1, (hkept hfinal).2.1⟩

end Succinct.PeerConnections
