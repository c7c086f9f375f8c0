import Succinct.RecordCursors
import Succinct.FragmentDelivery
import Succinct.IncomingFragments

/-!
markAck of HttpTransport.java over the iterator that the transports share. The
number of the acknowledged fragment is looked for from the beginning, from the
end or from the current record, whichever seems to be nearest, in one direction.
A read that the factory refuses is cached as such: it would be refused again.
-/
namespace Succinct.AckMarks

open MessageQueue FragmentDelivery RecordStore RecordIterators RecordCursors StoreProperties
open IncomingFragments (seqOf newFragment_spec numberOf)

def httpAcked : Text := ['h', 't', 't', 'p', '_', 'a', 'c', 'k', 'e', 'd']

def sending : Text := ['s', 'e', 'n', 'd', 'i', 'n', 'g']

def create (record : List UInt8) : Option Fragment :=
  if record.length < 8 then none else newFragment (record.drop 8)

structure Acks where
  nextFragmentSeq : UInt32
  marked : Marked
  fragments : Cursor (Option Fragment)

namespace Acks

def file (s : Acks) : List UInt8 := s.marked.store.disk.take s.marked.store.EOF

def moveTo (s : Acks) (it : Iterator) : Acks := { s with fragments := s.fragments.moveTo it }

def start (s : Acks) : Acks := s.moveTo RecordIterators.start

def atEnd (s : Acks) : Acks := s.moveTo (RecordIterators.atEnd s.file)

def next (s : Acks) : Option (Bool × Acks) :=
  (RecordIterators.next s.file s.fragments.it).map fun (found, it) => (found, s.moveTo it)

def prev (s : Acks) : Option (Bool × Acks) :=
  (RecordIterators.prev s.file s.fragments.it).map fun (found, it) => (found, s.moveTo it)

def move (forwards : Bool) (s : Acks) : Option (Bool × Acks) :=
  if forwards then s.next else s.prev

/-- The fragment; null, the inner none, outside of a record. -/
def read (s : Acks) : Option (Option Fragment × Acks) := do
  let (record, cursor) ← s.fragments.read create s.file
  let s := { s with fragments := cursor }
  match record with
  | none => some (none, s)
  | some none => none
  | some (some fragment) => some (some fragment, s)

def mark (s : Acks) (name : Text) : Option Acks :=
  (getMark s.marked name).map fun _ =>
    { s with marked := setMark s.marked name s.fragments.it.offset }

end Acks

def markBehind (s : Acks) : Option Acks := do
  let (_, s) ← s.next
  let s ← s.mark httpAcked
  let sent ← getMark s.marked sending
  if s.fragments.it.offset > sent then s.mark sending else some s

def search (seq : ℤ) (forwards : Bool) : ℕ → Acks → Option Acks
  | 0, _ => none
  | fuel + 1, s => do
    let (current, s) ← s.read
    -- a null pointer outside of a record
    let fragment ← current
    if seqOf fragment = seq then markBehind s
    else do
      let (found, s) ← s.move forwards
      if found then search seq forwards fuel s else none

def searchStart (forwards : Bool) (first last nextFragmentSeq : ℤ) (s : Acks) : Option Acks :=
  if forwards ∧ first = 0 then do
    let (found, s) ← s.start.next
    if found then some s else none
  else if !forwards ∧ last = intSub nextFragmentSeq 1 then do
    let (found, s) ← s.atEnd.prev
    if found then some s else none
  else some s

/-- None is an exception, or a search that is not through with its records. -/
def markAck (fuel : ℕ) (seq : ℤ) (s : Acks) : Option Acks := do
  let nextFragmentSeq := ByteBuffers.asInt s.nextFragmentSeq.toNat
  if seq < -1 ∨ seq ≥ nextFragmentSeq then none
  else if seq < 0 then do
    let (_, s) ← s.start.next
    s.mark httpAcked
  else do
    let (current, s) ← s.read
    let (first, last) := ackBounds seq current nextFragmentSeq
    let forwards : Bool := intSub seq first < intSub last seq
    let s ← searchStart forwards first last nextFragmentSeq s
    search seq forwards fuel s

def Numbered (records : List (List UInt8)) : Prop :=
  ∀ i, ∀ hi : i < records.length, ∃ f, create records[i] = some f ∧ seqOf f = i

structure Stands (records : List (List UInt8)) (s : Acks) (p : Position) : Prop where
  file : s.file = fileOf records
  position : p.At records s.fragments.it
  cached : Cached create records s.fragments

section Moves

variable {records : List (List UInt8)} {s : Acks} {p : Position}

theorem Stands.moveTo (h : Stands records s p) {it : Iterator} {q : Position}
    (hat : q.At records it) : Stands records (s.moveTo it) q :=
  ⟨h.file, hat, h.cached.moveTo it⟩

theorem Stands.start (h : Stands records s p) : Stands records s.start (.gap 0) :=
  h.moveTo ⟨Nat.zero_le _, rfl⟩

theorem Stands.atEnd (h : Stands records s p) : Stands records s.atEnd (.gap records.length) := by
  refine h.moveTo ⟨le_refl _, ?_⟩
  rw [h.file, RecordIterators.atEnd, before, startOf_length]

def SameStore (s s' : Acks) : Prop :=
  s'.marked = s.marked ∧ s'.nextFragmentSeq = s.nextFragmentSeq

theorem SameStore.trans {s₁ s₂ s₃ : Acks} (h : SameStore s₁ s₂) (h' : SameStore s₂ s₃) :
    SameStore s₁ s₃ := ⟨h'.1.trans h.1, h'.2.trans h.2⟩

variable (hsized : Sized records)

include hsized

theorem Stands.next (h : Stands records s p) : ∃ s', SameStore s s' ∧
    (p.following < records.length → s.next = some (true, s') ∧
      Stands records s' (.on p.following)) ∧
    (p.following = records.length → s.next = some (false, s') ∧
      Stands records s' (.gap p.following)) := by
  obtain ⟨hle, hoffset⟩ := h.position.following
  have hnext := next_spec hsized s.fragments.it p.following hle hoffset
  rw [← h.file] at hnext
  by_cases hlt : p.following < records.length
  · rw [if_pos hlt] at hnext
    refine ⟨s.moveTo (RecordIterators.on records p.following), ⟨rfl, rfl⟩, fun _ => ⟨?_, ?_⟩,
      fun heq => absurd heq (by omega)⟩
    · rw [Acks.next, hnext]
      rfl
    · exact h.moveTo ⟨hlt, rfl⟩
  · rw [if_neg hlt] at hnext
    refine ⟨s.moveTo (before records p.following), ⟨rfl, rfl⟩, fun h =>
      absurd h hlt, fun _ => ⟨?_, ?_⟩⟩
    · rw [Acks.next, hnext]
      rfl
    · exact h.moveTo ⟨hle, rfl⟩

theorem Stands.prev (h : Stands records s p) (hpos : p.index ≠ 0) : ∃ s', SameStore s s' ∧
    s.prev = some (true, s') ∧ Stands records s' (.on (p.index - 1)) := by
  have hle := h.position.index_le
  have hprev := prev_spec hsized s.fragments.it p.index hle h.position.offset
  rw [← h.file, if_neg hpos] at hprev
  refine ⟨s.moveTo (RecordIterators.on records (p.index - 1)), ⟨rfl, rfl⟩, ?_, ?_⟩
  · rw [Acks.prev, hprev]
    rfl
  · exact h.moveTo ⟨by omega, rfl⟩

end Moves

section Searching

variable {records : List (List UInt8)} {s : Acks} {p : Position}

theorem Stands.read (h : Stands records s p) {current : Option Fragment}
    (hrecord : p.record create records = current.map some) :
    ∃ s', SameStore s s' ∧ s.read = some (current, s') ∧ Stands records s' p := by
  obtain ⟨cursor, hread, hit, hcached⟩ := cursor_read h.position h.cached
  rw [← h.file, hrecord] at hread
  refine ⟨{ s with fragments := cursor }, ⟨rfl, rfl⟩, ?_, h.file, ?_, hcached⟩
  · rw [Acks.read, hread]
    cases current <;> rfl
  · change p.At records cursor.it
    rw [hit]
    exact h.position

/-- The fragment with number i, in its place. -/
theorem record_on (hnumbered : Numbered records) {i : ℕ} (hi : i < records.length) :
    ∃ f, Position.record create records (.on i) = (some f).map some ∧ seqOf f = i := by
  obtain ⟨f, hcreate, hseq⟩ := hnumbered i hi
  refine ⟨f, ?_, hseq⟩
  rw [Position.record, List.getElem?_eq_getElem hi, Option.map_some, hcreate]
  rfl

/-- What the acknowledgement of the fragment leaves: http_acked is behind it, and
sending is not before that. -/
def Acknowledges (records : List (List UInt8)) (n : ℕ) (sent : ℤ) (s s' : Acks) : Prop :=
  getMark s'.marked httpAcked = some (startOf records (n + 1) : ℤ) ∧
  getMark s'.marked sending = some (max sent (startOf records (n + 1))) ∧
  (∀ name, name ≠ httpAcked → name ≠ sending → getMark s'.marked name = getMark s.marked name) ∧
  s'.marked.store = s.marked.store ∧ s'.nextFragmentSeq = s.nextFragmentSeq

theorem mark_spec {name : Text} {v : ℤ} (hmark : getMark s.marked name = some v)
    (hlong : inLong s.fragments.it.offset = true) : ∃ s', s.mark name = some s' ∧
      s'.fragments = s.fragments ∧ s'.nextFragmentSeq = s.nextFragmentSeq ∧
      s'.marked.store = s.marked.store ∧
      ∀ n, getMark s'.marked n = if n = name then some s.fragments.it.offset
        else getMark s.marked n := by
  refine ⟨{ s with marked := setMark s.marked name s.fragments.it.offset }, ?_, rfl, rfl,
    store_setMark _ _ _, fun n => getMark_setMark hmark hlong n⟩
  rw [Acks.mark, hmark]
  rfl

variable (hsized : Sized records) (hlong : (fileOf records).length < 9223372036854775808)

include hsized hlong

theorem markBehind_spec {n : ℕ} (h : Stands records s (.on n)) {acked sent : ℤ}
    (hacked : getMark s.marked httpAcked = some acked)
    (hsent : getMark s.marked sending = some sent) :
    ∃ s', markBehind s = some s' ∧ Acknowledges records n sent s s' := by
  obtain ⟨s₁, hsame, hlt, heq⟩ := h.next hsized
  have hn : n < records.length := h.position.1
  have hmoved : ∃ found, s.next = some (found, s₁) ∧
    s₁.fragments.it.offset = startOf records (n + 1) := by
    by_cases hlast : n + 1 < records.length
    · exact ⟨true, (hlt hlast).1, (hlt hlast).2.position.offset⟩
    · have hend : n + 1 = records.length := by omega
      exact ⟨false, (heq hend).1, (heq hend).2.position.offset⟩
  obtain ⟨found, hnext, hoffset⟩ := hmoved
  have hfits : inLong s₁.fragments.it.offset = true := by
    have hle := startOf_le records (n + 1)
    rw [hoffset, inLong, decide_eq_true_eq]
    omega
  have hne : sending ≠ httpAcked := by decide
  rw [← hsame.1] at hacked hsent
  obtain ⟨s₂, hmark, hit, hseq, hstore, hmarks⟩ := mark_spec hacked hfits
  have hsent₂ : getMark s₂.marked sending = some sent := by
    rw [hmarks, if_neg hne, hsent]
  have hfits₂ : inLong s₂.fragments.it.offset = true := by
    rw [hit]
    exact hfits
  rw [markBehind, hnext]
  simp only [Option.bind_eq_bind, Option.bind_some, hmark, hsent₂]
  by_cases hbehind : s₂.fragments.it.offset > sent
  · obtain ⟨s₃, hmark₃, -, hseq₃, hstore₃, hmarks₃⟩ := mark_spec hsent₂ hfits₂
    rw [if_pos hbehind]
    rw [hit, hoffset] at hbehind hmarks₃
    refine ⟨s₃, hmark₃, ?_, ?_, ?_, ?_, ?_⟩
    · rw [hmarks₃, if_neg hne.symm, hmarks, if_pos rfl, hoffset]
    · rw [hmarks₃, if_pos rfl, max_eq_right hbehind.le]
    · intro name hname hname'
      rw [hmarks₃, if_neg hname', hmarks, if_neg hname, hsame.1]
    · rw [hstore₃, hstore, hsame.1]
    · rw [hseq₃, hseq, hsame.2]
  · rw [if_neg hbehind]
    rw [hit, hoffset] at hbehind
    refine ⟨s₂, rfl, ?_, ?_, ?_, ?_, ?_⟩
    · rw [hmarks, if_pos rfl, hoffset]
    · rw [hsent₂, max_eq_left (not_lt.mp hbehind)]
    · intro name hname _
      rw [hmarks, if_neg hname, hsame.1]
    · rw [hstore, hsame.1]
    · rw [hseq, hsame.2]

variable (hnumbered : Numbered records)

include hnumbered

/-- The search walks the d records to record n. -/
theorem search_spec {n : ℕ} (hn : n < records.length) (forwards : Bool)
    {acked sent : ℤ} (d : ℕ) {j : ℕ}
    (hway : if forwards then n = j + d else j = n + d) (h : Stands records s (.on j))
    (hacked : getMark s.marked httpAcked = some acked)
    (hsent : getMark s.marked sending = some sent) :
    ∃ s', (∀ fuel > d, search n forwards fuel s = some s') ∧
    Acknowledges records n sent s s' := by
  induction d generalizing s j with
  | zero =>
    have hhere : j = n := by split at hway <;> omega
    subst hhere
    obtain ⟨f, hrecord, hseq⟩ := record_on hnumbered h.position.1
    obtain ⟨s₁, hsame, hread, h₁⟩ := h.read hrecord
    rw [← hsame.1] at hacked hsent
    obtain ⟨s', hmark, hacks⟩ := markBehind_spec hsized hlong h₁ hacked hsent
    rw [Acknowledges, hsame.1, hsame.2] at hacks
    refine ⟨s', ?_, hacks⟩
    intro fuel hfuel
    obtain ⟨fuel, rfl⟩ := Nat.exists_eq_succ_of_ne_zero (Nat.ne_of_gt hfuel)
    rw [search, hread]
    simp only [Option.bind_eq_bind, Option.bind_some, hseq, if_true, hmark]
  | succ d ih =>
    have helsewhere : j ≠ n := by split at hway <;> omega
    obtain ⟨f, hrecord, hseq⟩ := record_on hnumbered h.position.1
    obtain ⟨s₁, hsame₁, hread, h₁⟩ := h.read hrecord
    -- the next record in the direction of the search
    have hmove : ∃ s₂ j', SameStore s₁ s₂ ∧ s₁.move forwards = some (true, s₂) ∧
        Stands records s₂ (.on j') ∧ if forwards then n = j' + d else j' = n + d := by
      cases forwards with
      | true =>
        simp only [if_true] at hway ⊢
        obtain ⟨s₂, hsame₂, hlt, -⟩ := h₁.next hsized
        have hnext := hlt (show j + 1 < records.length by omega)
        exact ⟨s₂, j + 1, hsame₂, hnext.1, hnext.2, by omega⟩
      | false =>
        simp only [Bool.false_eq_true, if_false] at hway ⊢
        obtain ⟨s₂, hsame₂, hprev, hstands⟩ := h₁.prev hsized (show j ≠ 0 by omega)
        exact ⟨s₂, j - 1, hsame₂, hprev, hstands, by omega⟩
    obtain ⟨s₂, j', hsame₂, hmoved, h₂, hway'⟩ := hmove
    have hsame := hsame₁.trans hsame₂
    rw [← hsame.1] at hacked hsent
    obtain ⟨s', hsearch, hacks⟩ := ih hway' h₂ hacked hsent
    rw [Acknowledges, hsame.1, hsame.2] at hacks
    refine ⟨s', ?_, hacks⟩
    intro fuel hfuel
    obtain ⟨fuel, rfl⟩ := Nat.exists_eq_succ_of_ne_zero (Nat.ne_of_gt (Nat.zero_lt_of_lt hfuel))
    rw [search, hread]
    simp only [Option.bind_eq_bind, Option.bind_some, hseq]
    rw [if_neg (by omega), hmoved]
    exact hsearch fuel (by omega)

omit hlong hnumbered in
/-- Wherever the search begins, the record lies ahead. -/
theorem searchStart_spec {n : ℕ} (hn : n < records.length) (forwards : Bool) {first last next : ℤ}
    (h : Stands records s p) (hfirst : first = 0 ∨ ∃ i ≤ n, p = .on i ∧ first = i)
    (hlast : last = intSub next 1 ∨ ∃ i, n ≤ i ∧ p = .on i ∧ last = i) :
    ∃ s' j, SameStore s s' ∧ searchStart forwards first last next s = some s' ∧
      Stands records s' (.on j) ∧ ∃ d, if forwards then n = j + d else j = n + d := by
  rw [searchStart]
  cases forwards with
  | true =>
    by_cases hzero : first = 0
    · obtain ⟨s', hsame, hlt, -⟩ := h.start.next hsized
      have hnext := hlt (show 0 < records.length by omega)
      rw [if_pos ⟨rfl, hzero⟩, hnext.1]
      exact ⟨s', 0, hsame, rfl, hnext.2, n, (Nat.zero_add n).symm⟩
    · obtain ⟨i, hi, rfl, -⟩ := hfirst.resolve_left hzero
      rw [if_neg (by simp [hzero]), if_neg (by simp)]
      exact ⟨s, i, ⟨rfl, rfl⟩, rfl, h, n - i, show n = i + (n - i) by omega⟩
  | false =>
    rw [if_neg (by simp)]
    by_cases hend : last = intSub next 1
    · have hpos : (Position.gap records.length).index ≠ 0 := show records.length ≠ 0 by omega
      obtain ⟨s', hsame, hprev, hstands⟩ := h.atEnd.prev hsized hpos
      rw [if_pos ⟨rfl, hend⟩, hprev]
      exact ⟨s', records.length - 1, hsame, rfl, hstands, records.length - 1 - n,
        show records.length - 1 = n + (records.length - 1 - n) by omega⟩
    · obtain ⟨i, hi, rfl, -⟩ := hlast.resolve_left hend
      rw [if_neg (by simp [hend])]
      exact ⟨s, i, ⟨rfl, rfl⟩, rfl, h, i - n, show i = n + (i - n) by omega⟩

omit hsized hlong in
/-- The numbers of the search, from the record that the iterator is on. -/
theorem ackBounds_spec (n : ℕ) (h : Stands records s p) (next : ℤ) : ∃ current s',
    SameStore s s' ∧ s.read = some (current, s') ∧ Stands records s' p ∧
      ((ackBounds n current next).1 = 0 ∨ ∃ i ≤ n, p = .on i ∧ (ackBounds n current next).1 = i) ∧
      ((ackBounds n current next).2 = intSub next 1 ∨
        ∃ i, n ≤ i ∧ p = .on i ∧ (ackBounds n current next).2 = i) := by
  cases p with
  | gap i =>
    obtain ⟨s', hsame, hread, hstands⟩ := h.read
      (show Position.record create records (.gap i) = (none : Option Fragment).map some from rfl)
    exact ⟨none, s', hsame, hread, hstands, Or.inl rfl, Or.inl rfl⟩
  | on i =>
    obtain ⟨f, hrecord, hseq⟩ := record_on hnumbered h.position.1
    obtain ⟨s', hsame, hread, hstands⟩ := h.read hrecord
    refine ⟨some f, s', hsame, hread, hstands, ?_⟩
    change ByteBuffers.asInt f.seq.toNat = i at hseq
    rw [ackBounds]
    simp only [hseq]
    by_cases hle : i ≤ n
    · rw [if_pos (by omega)]
      exact ⟨Or.inr ⟨i, hle, rfl, rfl⟩, Or.inl rfl⟩
    · rw [if_neg (by omega)]
      exact ⟨Or.inl rfl, Or.inr ⟨i, by omega, rfl, rfl⟩⟩

end Searching

/-- The fragments carry the numbers from 0 in their order, and the next number is
behind them, or behind one more that is open: an acknowledgement finds its record
wherever the shared iterator is, and the marks go behind that record. -/
theorem markAck_marks (records : List (List UInt8)) (hsized : Sized records)
    (hlong : (fileOf records).length < 9223372036854775808)
    (hnumbered : Numbered records) (s : Acks) (hfile : s.file = fileOf records)
    (hnext : ByteBuffers.asInt s.nextFragmentSeq.toNat = records.length ∨
      ByteBuffers.asInt s.nextFragmentSeq.toNat = records.length + 1)
    (p : Position) (hat : p.At records s.fragments.it)
    (hcached : Cached create records s.fragments)
    (acked sent : ℤ) (hacked : getMark s.marked httpAcked = some acked)
    (hsent : getMark s.marked sending = some sent) (seq : ℤ)
    (hseq : 0 ≤ seq ∧ seq < records.length) :
    ∃ s', (∀ fuel ≥ records.length, markAck fuel seq s = some s') ∧
      getMark s'.marked httpAcked = some (startOf records (seq.toNat + 1) : ℤ) ∧
      getMark s'.marked sending = some (max sent (startOf records (seq.toNat + 1))) ∧
      (∀ name, name ≠ httpAcked → name ≠ sending →
        getMark s'.marked name = getMark s.marked name) ∧
      s'.marked.store = s.marked.store := by
  obtain ⟨n, rfl⟩ := Int.eq_ofNat_of_zero_le hseq.1
  have hn : n < records.length := by omega
  have hinside : ¬((n : ℤ) < -1 ∨ (n : ℤ) ≥ ByteBuffers.asInt s.nextFragmentSeq.toNat) := by omega
  have hnonneg : ¬(n : ℤ) < 0 := by omega
  have hstands : Stands records s p := ⟨hfile, hat, hcached⟩
  obtain ⟨current, s₁, hsame₁, hread, h₁, hfirst, hlast⟩ :=
    ackBounds_spec hnumbered n hstands (ByteBuffers.asInt s.nextFragmentSeq.toNat)
  obtain ⟨forwards, hforwards⟩ : ∃ b : Bool, b =
      decide (intSub n (ackBounds n current (ByteBuffers.asInt s.nextFragmentSeq.toNat)).1 <
        intSub (ackBounds n current (ByteBuffers.asInt s.nextFragmentSeq.toNat)).2 n) := ⟨_, rfl⟩
  obtain ⟨s₂, j, hsame₂, hstart, h₂, d, hway⟩ :=
    searchStart_spec hsized hn forwards h₁ hfirst hlast
  have hsame := hsame₁.trans hsame₂
  rw [← hsame.1] at hacked hsent
  obtain ⟨s', hsearch, hacks⟩ :=
    search_spec hsized hlong hnumbered hn forwards d hway h₂ hacked hsent
  rw [Acknowledges, hsame.1] at hacks
  obtain ⟨hmark, hmark', hothers, hstore, -⟩ := hacks
  refine ⟨s', ?_, hmark, hmark', hothers, hstore⟩
  intro fuel hfuel
  have hj : j < records.length := h₂.position.1
  have hlimit : fuel > d := by split at hway <;> omega
  rw [markAck]
  simp only
  rw [if_neg hinside, if_neg hnonneg, hread]
  simp only [Option.bind_eq_bind, Option.bind_some]
  rw [← hforwards, hstart]
  exact hsearch fuel hlimit

def shortRecord (seq : UInt8) : List UInt8 := List.replicate 16 0 ++ [0, 0, 0, seq, 0]

def threeFragments : Acks where
  nextFragmentSeq := 3
  marked :=
    { store := { state := NativeStore.openDb NativeStore.emptyDatabase
                 disk := fileOf [shortRecord 0, shortRecord 1]
                 EOF := 58
                 appendOffset := 58
                 fileHash := []
                 activeTransfer := none
                 file := { version := 1, length := 58, hash := [], partialHash := ⟨[], 58, []⟩
                           name := [0x66], newLength := 58, newHash := ⟨[], 58, []⟩ } }
      properties := ∅
      markFile := none }
  fragments := ⟨before [shortRecord 0, shortRecord 1] 1, 0, none⟩

theorem markAck_marks_three : ∃ s', markAck 2 1 threeFragments = some s' ∧
    getMark s'.marked httpAcked = some 58 ∧ getMark s'.marked sending = some 58 := by
  obtain ⟨s', hmark, hacked, hsending, -⟩ :=
    markAck_marks [shortRecord 0, shortRecord 1] (by unfold Sized; decide)
    (by decide) (fun i hi => match i, hi with
      | 0, _ => ⟨_, rfl, rfl⟩
      | 1, _ => ⟨_, rfl, rfl⟩)
    threeFragments rfl (Or.inr rfl) (.gap 1) ⟨by decide, rfl⟩
      (fun _ h => by cases h) 0 0 rfl rfl 1 (by decide)
  exact ⟨s', hmark 2 (le_refl _), hacked, hsending⟩

end Succinct.AckMarks
