import Succinct.FragmentPieces

/-!
Restarting the queue. The saved size of an open fragment is the position in
the buffer, which counts the four bytes of the size itself; the constructor
adds them once more, so an open fragment is recovered four bytes too long, or
not at all. Without an open fragment a restart changes nothing.
-/
namespace Succinct.QueueRestart

open ByteBuffers MessageQueue FragmentLayouts Fragmentation FragmentPieces

inductive Event where
  | call (op : Op)
  | restart (now : ℤ)

def reconstruct (q : Queue) (now : ℤ) : Option Queue :=
  newQueue q.teamId q.fragmentBuff.bytes q.fragments now

def Event.apply (q : Queue) : Event → Option Queue
  | .call op => op.apply q
  | .restart now => reconstruct q now

def runEvents : List Event → Queue → Option Queue
  | [], q => some q
  | event :: rest, q => (event.apply q).bind (runEvents rest)

def opsOf : List Event → List Op
  | [] => []
  | .call op :: rest => op :: opsOf rest
  | .restart _ :: rest => opsOf rest

/-- The bytes of the open fragment, behind the saved size. -/
def openBytes (q : Queue) : List UInt8 := q.fragmentBuff.written.drop 4

/-- A restart that changes nothing: the open fragment, the position in it,
the next number and the stored fragments. -/
structure Recovers (q q' : Queue) : Prop where
  openBytes : openBytes q' = openBytes q
  position : q'.fragmentBuff.position - 4 = q.fragmentBuff.position - 4
  seq : q'.nextFragmentSeq = q.nextFragmentSeq
  fragments : q'.fragments = q.fragments

def Harmless : List Event → Queue → Prop
  | [], _ => True
  | .call op :: rest, q => ∃ q', op.apply q = some q' ∧ Harmless rest q'
  | .restart now :: rest, q =>
    ∃ q', reconstruct q now = some q' ∧ Recovers q q' ∧ Harmless rest q'

def RestartsKeep (events : List Event) (q : Queue) : Prop :=
  Harmless events q ∧ ∃ q1 q2, runEvents events q = some q1 ∧ run (opsOf events) q = some q2 ∧
    q1.fragments = q2.fragments

def ClosedAtRestarts (events : List Event) (q : Queue) : Prop :=
  ∀ before now after, events = before ++ .restart now :: after →
    ∀ q', runEvents before q = some q' → q'.fragmentBuff.position ≤ 4

theorem setLength_self (file : List UInt8) : setLength file file.length = file := by
  rw [setLength, List.take_length, Nat.sub_self]
  exact List.append_nil file

/-- The constructor reads the saved size, and goes on that far behind it. -/
theorem reconstruct_eq {q : Queue} (hcap : q.fragmentBuff.bytes.length = 204) (now : ℤ) (size : ℕ)
    (hsize : size < 2147483648) (hsaved : q.fragmentBuff.bytes.take 4 = bigEndian 4 size) :
    ∃ b, At b q.fragmentBuff.bytes 4 ∧ reconstruct q now =
      (seqAfterLast q.fragments).bind fun next =>
        (b.setPosition (size + 4 : ℕ)).bind fun buff =>
          if 0 < size then
            (buff.getIntAt 12).bind fun seq => some
              { teamId := q.teamId, fragmentBuff := buff, nextFragmentSeq := UInt32.ofNat seq + 1
                fragmentDeadline := now, fragments := q.fragments }
          else some
            { teamId := q.teamId, fragmentBuff := buff, nextFragmentSeq := next
              fragmentDeadline := NO_DEADLINE, fragments := q.fragments } := by
  have hfile : setLength q.fragmentBuff.bytes (MTU + 4) = q.fragmentBuff.bytes := by
    have hlen : MTU + 4 = q.fragmentBuff.bytes.length := by
      rw [hcap, MTU_eq]
    rw [hlen, setLength_self]
  have hwrap : At (ByteBuffer.wrap q.fragmentBuff.bytes) q.fragmentBuff.bytes 0 := ⟨rfl, rfl, rfl⟩
  have hsplit : q.fragmentBuff.bytes.drop 0 =
      bigEndian 4 size ++ q.fragmentBuff.bytes.drop 4 := by
    rw [List.drop_zero, ← hsaved, List.take_append_drop]
  obtain ⟨b, hget, hb⟩ := hwrap.get hsplit
  rw [length_bigEndian] at hget hb
  have hint : (ByteBuffer.wrap q.fragmentBuff.bytes).getInt = some (size, b) := by
    have hmod : size % 256 ^ 4 = size := Nat.mod_eq_of_lt (by omega)
    rw [ByteBuffer.getInt, hget, Option.map_some, ofBigEndian_bigEndian, hmod]
  have hpos : asInt size + b.position = (size + 4 : ℕ) := by
    rw [asInt_of_lt hsize, hb.position]
    omega
  refine ⟨b, hb, ?_⟩
  rw [reconstruct, newQueue, hfile]
  have hfull : ¬ q.fragmentBuff.bytes.length = 0 := by omega
  simp only [Option.bind_eq_bind, if_neg hfull, hint, Option.bind_some, hpos]
  rw [asInt_of_lt hsize]
  simp only [gt_iff_lt, Int.natCast_pos]

/-- Without an open fragment, a restart recovers the queue. -/
theorem reconstruct_closed {q : Queue} {closed : List Layout} {ms : List (UInt8 × List UInt8)}
    (h : Refines q ⟨closed, none⟩) (htells : Tells ⟨closed, none⟩ ms) (now : ℤ) :
    ∃ q', reconstruct q now = some q' ∧ Recovers q q' ∧ q'.teamId = q.teamId ∧
      Refines q' ⟨closed, none⟩ := by
  obtain ⟨hstored, hposition, hsaved⟩ := h
  have hcap : q.fragmentBuff.bytes.length = 204 := hstored.capacity
  obtain ⟨b, hb, hrun⟩ := reconstruct_eq hcap now 0 (by omega) hsaved
  have hlast : seqAfterLast q.fragments = some (UInt32.ofNat closed.length) := by
    have hfragments : q.fragments = encode (teamBytes q) closed := hstored.fragments
    rw [seqAfterLast, hfragments]
    rcases List.eq_nil_or_concat closed with rfl | ⟨front, l, rfl⟩
    · rfl
    · have hchain : Chain none (front ++ [l]) := by
        have hall := htells.chain
        rwa [Plan.layouts, Option.toList_none, List.append_nil, List.concat_eq_append] at hall
      obtain ⟨cut, hfits⟩ := hchain.fits l (by simp)
      obtain ⟨f, hnew, hseq, -⟩ := newFragment_bytes q.teamId (UInt32.ofNat front.length) l (by
        have := hfits.continues
        omega)
      rw [List.concat_eq_append, encode_snoc, List.getLast?_append, List.getLast?_singleton,
        Option.some_or]
      change (newFragment (l.bytes (List.ofFn q.teamId) _)).map _ = _
      rw [hnew, Option.map_some, hseq, List.length_append, List.length_singleton]
      exact congrArg some (UInt32.ofNat_add _ _).symm
  obtain ⟨b', hset, hbytes, hpos, hlim, -⟩ := b.setPosition_spec (0 + 4) (by
    rw [hb.limit]
    omega)
  have hwritten : ∀ b : ByteBuffer, b.position ≤ 4 → b.written.drop 4 = [] := by
    intro b hle
    apply List.drop_eq_nil_of_le
    rw [b.length_written]
    exact hle
  have hbytes' : b'.bytes = q.fragmentBuff.bytes := hbytes.trans hb.bytes
  refine ⟨{ teamId := q.teamId, fragmentBuff := b', nextFragmentSeq := UInt32.ofNat closed.length,
            fragmentDeadline := NO_DEADLINE, fragments := q.fragments }, ?_,
              ⟨?_, ?_, ?_, rfl⟩, rfl,
    ⟨hstored.fragments, rfl, ?_, ?_⟩, ?_, ?_⟩
  · rw [hrun, hlast, Option.bind_some, hset, Option.bind_some, if_neg (Nat.lt_irrefl 0)]
  · change b'.written.drop 4 = _
    rw [hwritten b' (by omega), openBytes, hwritten _ hposition]
  · change b'.position - 4 = _
    omega
  · exact hstored.seq.symm
  · change b'.limit = 204
    rw [hlim, hb.limit, hcap]
  · change b'.bytes.length = 204
    rw [hbytes', hcap]
  · change b'.position ≤ 4
    omega
  · change b'.bytes.take 4 = _
    rw [hbytes', hsaved]

/-- An open fragment is not recovered. -/
theorem reconstruct_open {q : Queue} {closed : List Layout} {l : Layout}
    (h : Refines q ⟨closed, some l⟩) (now : ℤ) {q' : Queue} (hq' : reconstruct q now = some q') :
    ¬ Recovers q q' := by
  obtain ⟨hholds, hroom, hsaved⟩ := h
  have hcap : q.fragmentBuff.bytes.length = 204 := hholds.stored.capacity
  have hposition := hholds.position
  rw [length_nextBytes] at hposition
  obtain ⟨b, hb, hrun⟩ := reconstruct_eq hcap now q.fragmentBuff.position (by omega) hsaved
  intro hrecovers
  have hsame := hrecovers.position
  rw [hq'] at hrun
  have hpos' : q'.fragmentBuff.position = q.fragmentBuff.position + 4 := by
    obtain ⟨next, -, hrest⟩ := Option.bind_eq_some_iff.mp hrun.symm
    obtain ⟨buff, hset, hrest⟩ := Option.bind_eq_some_iff.mp hrest
    rw [if_pos (by omega)] at hrest
    obtain ⟨seq, -, hrest⟩ := Option.bind_eq_some_iff.mp hrest
    rw [← Option.some.inj hrest]
    change buff.position = _
    by_cases hfit : q.fragmentBuff.position + 4 ≤ b.limit
    · obtain ⟨b', hset', -, hpos, -⟩ := b.setPosition_spec _ hfit
      rw [hset] at hset'
      rw [Option.some.inj hset', hpos]
    · rw [ByteBuffer.setPosition, dif_neg (by omega)] at hset
      exact absurd hset (by simp)
  omega

theorem closedAtRestarts_cons (event : Event) (rest : List Event) (q q' : Queue)
    (happly : event.apply q = some q') :
    ClosedAtRestarts (event :: rest) q ↔
      (∀ now, event = .restart now → q.fragmentBuff.position ≤ 4) ∧ ClosedAtRestarts rest q' := by
  constructor
  · intro h
    refine ⟨fun now hevent => h [] now rest (by rw [hevent]; rfl) q rfl, ?_⟩
    intro before now after hrest q'' hrun
    apply h (event :: before) now after (by rw [hrest]; rfl)
    rw [runEvents, happly, Option.bind_some, hrun]
  · rintro ⟨hfirst, hlater⟩ before now after hevents q'' hrun
    cases before with
    | nil =>
      injection hevents with hevent _
      rw [← Option.some.inj hrun]
      exact hfirst now hevent
    | cons event' before =>
      injection hevents with hevent hrest
      subst hevent
      rw [runEvents, happly, Option.bind_some] at hrun
      exact hlater before now after hrest q'' hrun

/-- The restarts of a run are harmless exactly when no fragment is open at
any of them, and the run then follows the plan of its other steps. -/
theorem harmless_iff (events : List Event) {q : Queue} {p : Plan}
    {ms : List (UInt8 × List UInt8)} (h : Refines q p) (htells : Tells p ms) :
    (Harmless events q ↔ ClosedAtRestarts events q) ∧
      (ClosedAtRestarts events q → ∃ q', runEvents events q = some q' ∧ q'.teamId = q.teamId ∧
        Refines q' (planOf (opsOf events) p)) := by
  induction events generalizing q p ms with
  | nil =>
    refine ⟨⟨fun _ => ?_, fun _ => trivial⟩, fun _ => ⟨q, rfl, rfl, h⟩⟩
    intro before now after hevents
    exact absurd hevents (by simp)
  | cons event rest ih =>
    cases event with
    | call op =>
      obtain ⟨q1, happly, hteam1, hq1⟩ := apply_spec h op
      have htells' := planOf_tells [op] htells
      obtain ⟨hiff, hrun⟩ := ih hq1 htells'
      have hcons := closedAtRestarts_cons (.call op) rest q q1 happly
      refine ⟨?_, ?_⟩
      · rw [hcons, ← hiff]
        constructor
        · rintro ⟨q2, happly', hrest⟩
          rw [happly] at happly'
          rw [Option.some.inj happly']
          exact ⟨fun now hno => Event.noConfusion hno, hrest⟩
        · exact fun hrest => ⟨q1, happly, hrest.2⟩
      · intro hclosed
        obtain ⟨q2, hrun2, hteam2, hq2⟩ := hrun (hcons.mp hclosed).2
        refine ⟨q2, ?_, hteam2.trans hteam1, hq2⟩
        rw [runEvents]
        change (op.apply q).bind _ = _
        rw [happly, Option.bind_some, hrun2]
    | restart now =>
      obtain ⟨closed, current⟩ := p
      cases current with
      | none =>
        obtain ⟨q1, happly, hrecovers, hteam1, hq1⟩ := reconstruct_closed h htells now
        obtain ⟨hiff, hrun⟩ := ih hq1 htells
        have hcons := closedAtRestarts_cons (.restart now) rest q q1 happly
        refine ⟨?_, ?_⟩
        · rw [hcons, ← hiff]
          constructor
          · rintro ⟨q2, happly', -, hrest⟩
            rw [happly] at happly'
            rw [Option.some.inj happly']
            exact ⟨fun _ _ => h.2.1, hrest⟩
          · exact fun hrest => ⟨q1, happly, hrecovers, hrest.2⟩
        · intro hclosed
          obtain ⟨q2, hrun2, hteam2, hq2⟩ := hrun (hcons.mp hclosed).2
          refine ⟨q2, ?_, hteam2.trans hteam1, hq2⟩
          rw [runEvents]
          change (reconstruct q now).bind _ = _
          rw [happly, Option.bind_some, hrun2]
      | some l =>
        have hopen : ¬ ClosedAtRestarts (.restart now :: rest) q := by
          intro hclosed
          have hle := hclosed [] now rest rfl q rfl
          have hpos : q.fragmentBuff.position = _ := h.1.position
          rw [length_nextBytes] at hpos
          omega
        refine ⟨⟨?_, fun hclosed => absurd hclosed hopen⟩, fun hclosed => absurd hclosed hopen⟩
        rintro ⟨q1, happly, hrecovers, -⟩
        exact absurd hrecovers (reconstruct_open h now happly)

/-- In every run from a new queue, the restarts leave no trace exactly when
no fragment is open at any of them. -/
theorem restarts_keep_iff (teamId : PeerId) (now : ℤ) (events : List Event) :
    ∃ q0, newQueue teamId [] [] now = some q0 ∧
      (RestartsKeep events q0 ↔ ClosedAtRestarts events q0) := by
  obtain ⟨q0, hnew, hteam0, hq0⟩ := newQueue_spec teamId now
  obtain ⟨hiff, hrun⟩ := harmless_iff events hq0 tells_empty
  refine ⟨q0, hnew, fun h => hiff.mp h.1, ?_⟩
  intro hclosed
  obtain ⟨q1, hrun1, hteam1, hq1⟩ := hrun hclosed
  obtain ⟨q2, hrun2, hteam2, hq2⟩ := run_spec (opsOf events) hq0
  refine ⟨hiff.mpr hclosed, q1, q2, hrun1, hrun2, ?_⟩
  rw [hq1.fragments, hq2.fragments, teamBytes, teamBytes, hteam1, hteam2]

def restartWhileOpen : List Event :=
  [.call (.message 0 ⟨5, [7], Nat.le_trans (Nat.le_refl 1) (by omega)⟩), .restart 0,
    .call .endFragment]

/-- The fragment stored after the restart is four bytes longer than without
it. -/
theorem restart_lengthens :
    ((newQueue (fun _ => 0) [] [] 0).bind (runEvents restartWhileOpen)).map
        (fun q => q.fragments.map List.length) = some [21] ∧
      ((newQueue (fun _ => 0) [] [] 0).bind (run (opsOf restartWhileOpen))).map
        (fun q => q.fragments.map List.length) = some [17] := by
  decide +kernel

end Succinct.QueueRestart
