import Succinct.RecordIterators
import Succinct.RecordRefinement
import Succinct.StoreProperties
import Mathlib.Data.List.GetD

/-!
RecordIterator.java as cursors over the list of the records that were appended.
Any number of iterators move over one store while records are appended to it and
places in it are marked. An iterator is on a record, or in the gap before one;
that is all that its offset, its record length and its cached record tell.
-/
namespace Succinct.RecordCursors

open NativeStore RecordStore RecordRefinement RecordIterators StoreProperties

structure Cursor (T : Type) where
  it : Iterator
  currentOffset : ℤ
  current : Option T

def Cursor.new {T : Type} : Cursor T := ⟨start, 0, none⟩

structure State (T : Type) where
  marked : Marked
  cursors : ℕ → Cursor T

inductive Op where
  | append (record : List UInt8) (commits : Bool)
  | start (c : ℕ)
  | atEnd (c : ℕ)
  | next (c : ℕ)
  | prev (c : ℕ)
  | mark (c : ℕ) (name : Text)
  | reset (c : ℕ) (name : Text)
  | read (c : ℕ)
  | readLast (c : ℕ)

inductive Result (T : Type) where
  | done
  | returned (normally : Bool)
  | moved (found : Bool)
  | offset (offset : ℤ)
  | record (record : Option T)

section Concrete

variable {T : Type} (create : List UInt8 → T)

def State.file (s : State T) : List UInt8 := s.marked.store.disk.take s.marked.store.EOF

def State.put (s : State T) (c : ℕ) (cursor : Cursor T) : State T :=
  { s with cursors := Function.update s.cursors c cursor }

def Cursor.moveTo (cursor : Cursor T) (it : Iterator) : Cursor T := { cursor with it := it }

/-- The read of RecordIterator; null, the inner none, outside of a record. -/
def Cursor.read (file : List UInt8) (cursor : Cursor T) : Option (Option T × Cursor T) :=
  if cursor.it.recordLength = 0 then some (none, cursor)
  else if cursor.currentOffset = cursor.it.offset ∧ cursor.current.isSome then
    some (cursor.current, cursor)
  else (readBytes file (cursor.it.offset + 4) (cursor.it.recordLength - 8)).map fun bytes =>
    (some (create bytes), { cursor with current := some (create bytes)
                                        currentOffset := cursor.it.offset })

def Cursor.readLast (file : List UInt8) (cursor : Cursor T) : Option (Option T × Cursor T) :=
  if cursor.it.recordLength = 0 ∨ cursor.it.offset + cursor.it.recordLength ≠ file.length then do
    let (found, it) ← RecordIterators.prev file (RecordIterators.atEnd file)
    if found then (cursor.moveTo it).read create file else some (none, cursor.moveTo it)
  else cursor.read create file

def step (s : State T) : Op → Option (Result T × State T)
  | .append record commits =>
    let call := appendRecord s.marked.store record commits
    some (.returned call.returned, { s with marked := { s.marked with store := call.store } })
  | .start c => some (.done, s.put c ((s.cursors c).moveTo RecordIterators.start))
  | .atEnd c => some (.done, s.put c ((s.cursors c).moveTo (RecordIterators.atEnd s.file)))
  | .next c => do
    let (found, it) ← RecordIterators.next s.file (s.cursors c).it
    some (.moved found, s.put c ((s.cursors c).moveTo it))
  | .prev c => do
    let (found, it) ← RecordIterators.prev s.file (s.cursors c).it
    some (.moved found, s.put c ((s.cursors c).moveTo it))
  | .mark c name =>
    -- parseLong throws on a property that is no number
    (getMark s.marked name).map fun _ => (.offset (s.cursors c).it.offset,
      { s with marked := setMark s.marked name (s.cursors c).it.offset })
  | .reset c name => do
    let mark ← getMark s.marked name
    let it ← RecordIterators.reset s.file mark
    some (.offset mark, s.put c ((s.cursors c).moveTo it))
  | .read c => do
    let (record, cursor) ← (s.cursors c).read create s.file
    some (.record record, s.put c cursor)
  | .readLast c => do
    let (record, cursor) ← (s.cursors c).readLast create s.file
    some (.record record, s.put c cursor)

def run : List Op → State T → Option (List (Result T) × State T)
  | [], s => some ([], s)
  | op :: ops, s => do
    let (result, s) ← step create s op
    let (results, s) ← run ops s
    some (result :: results, s)

end Concrete

inductive Position where
  | on (i : ℕ)
  | gap (i : ℕ)

def Position.index : Position → ℕ
  | .on i => i
  | .gap i => i

def Position.following : Position → ℕ
  | .on i => i + 1
  | .gap i => i

/-- The records that were appended, the places of the iterators, and the records
that the marks stand before. -/
structure View where
  records : List (List UInt8)
  position : ℕ → Position
  marks : Text → ℕ

def View.put (v : View) (c : ℕ) (p : Position) : View :=
  { v with position := Function.update v.position c p }

section Abstract

variable {T : Type} (create : List UInt8 → T)

def Position.record (records : List (List UInt8)) : Position → Option T
  | .on i => records[i]?.map create
  | .gap _ => none

def View.step (v : View) : Op → Result T × View
  | .append record commits =>
    (.returned commits, if commits then { v with records := v.records ++ [record] } else v)
  | .start c => (.done, v.put c (.gap 0))
  | .atEnd c => (.done, v.put c (.gap v.records.length))
  | .next c =>
    let i := (v.position c).following
    if i < v.records.length then (.moved true, v.put c (.on i))
      else (.moved false, v.put c (.gap i))
  | .prev c =>
    let i := (v.position c).index
    if i = 0 then (.moved false, v.put c (.gap 0)) else (.moved true, v.put c (.on (i - 1)))
  | .mark c name =>
    let i := (v.position c).index
    (.offset (startOf v.records i), { v with marks := Function.update v.marks name i })
  | .reset c name => (.offset (startOf v.records (v.marks name)), v.put c (.gap (v.marks name)))
  | .read c => (.record ((v.position c).record create v.records), v)
  | .readLast c =>
    (.record (v.records.getLast?.map create),
      v.put c (if v.records = [] then .gap 0 else .on (v.records.length - 1)))

def View.run : List Op → View → List (Result T) × View
  | [], v => ([], v)
  | op :: ops, v =>
    let (result, v) := v.step create op
    let (results, v) := View.run ops v
    (result :: results, v)

end Abstract

def Position.At (records : List (List UInt8)) (it : Iterator) : Position → Prop
  | .on i => i < records.length ∧ it = RecordIterators.on records i
  | .gap i => i ≤ records.length ∧ it = before records i

section Simulation

variable {T : Type} {create : List UInt8 → T}

def Cached (create : List UInt8 → T) (records : List (List UInt8)) (cursor : Cursor T) : Prop :=
  ∀ x, cursor.current = some x → ∃ i, ∃ hi : i < records.length,
    cursor.currentOffset = startOf records i ∧ x = create records[i]

structure Simulates (create : List UInt8 → T) (s : State T) (v : View) : Prop where
  mirrors : ∃ version, Mirrors s.marked.store ⟨fileOf v.records, [], version⟩
  cursors : ∀ c, (v.position c).At v.records (s.cursors c).it ∧
    Cached create v.records (s.cursors c)
  marks : ∀ name, v.marks name ≤ v.records.length ∧
    getMark s.marked name = some (startOf v.records (v.marks name) : ℤ)

theorem Position.At.index_le {records : List (List UInt8)} {it : Iterator} {p : Position}
    (h : p.At records it) : p.index ≤ records.length := by
  cases p with
  | on i => exact h.1.le
  | gap i => exact h.1

theorem Position.At.offset {records : List (List UInt8)} {it : Iterator} {p : Position}
    (h : p.At records it) : it.offset = startOf records p.index := by
  cases p with
  | on i =>
    rw [h.2]
    rfl
  | gap i =>
    rw [h.2]
    rfl

theorem Position.At.following {records : List (List UInt8)} {it : Iterator} {p : Position}
    (h : p.At records it) : p.following ≤ records.length ∧
      it.offset + it.recordLength = startOf records p.following := by
  cases p with
  | on i =>
    obtain ⟨hi, rfl⟩ := h
    have hsucc := startOf_succ records i hi
    refine ⟨hi, ?_⟩
    change (startOf records i : ℤ) + ((records.getD i []).length + 8) = startOf records (i + 1)
    rw [getD_of_lt i hi, hsucc]
    push_cast
    ring
  | gap i =>
    obtain ⟨hi, rfl⟩ := h
    exact ⟨hi, add_zero _⟩

/-- Appending moves no record. -/
theorem Position.At.append {records : List (List UInt8)} {it : Iterator} {p : Position}
    (h : p.At records it) (more : List (List UInt8)) : p.At (records ++ more) it := by
  cases p with
  | on i =>
    obtain ⟨hi, rfl⟩ := h
    refine ⟨by rw [List.length_append]; omega, ?_⟩
    rw [RecordIterators.on, RecordIterators.on, startOf_append records more i hi.le,
      List.getD_append _ _ _ _ hi]
  | gap i =>
    obtain ⟨hi, rfl⟩ := h
    refine ⟨by rw [List.length_append]; omega, ?_⟩
    rw [before, before, startOf_append records more i hi]

theorem Cached.append {records : List (List UInt8)} {cursor : Cursor T}
    (h : Cached create records cursor) (more : List (List UInt8)) :
    Cached create (records ++ more) cursor := by
  intro x hx
  obtain ⟨i, hi, hoffset, hrecord⟩ := h x hx
  refine ⟨i, by rw [List.length_append]; omega, ?_, ?_⟩
  · rw [startOf_append records more i hi.le]
    exact hoffset
  · rw [List.getElem_append_left hi]
    exact hrecord

theorem Cached.moveTo {records : List (List UInt8)} {cursor : Cursor T}
    (h : Cached create records cursor) (it : Iterator) :
    Cached create records (cursor.moveTo it) := h

namespace Simulates

variable {s : State T} {v : View}

theorem file_eq (h : Simulates create s v) : s.file = fileOf v.records := by
  obtain ⟨version, hmirrors⟩ := h.mirrors
  exact hmirrors.refines.disk

/-- One iterator has moved. -/
theorem put (h : Simulates create s v) (c : ℕ) {cursor : Cursor T} {p : Position}
    (hat : p.At v.records cursor.it) (hcached : Cached create v.records cursor) :
    Simulates create (s.put c cursor) (v.put c p) := by
  refine ⟨h.mirrors, ?_, h.marks⟩
  intro d
  by_cases hd : d = c
  · subst hd
    simp only [State.put, View.put, Function.update_self]
    exact ⟨hat, hcached⟩
  · simp only [State.put, View.put, Function.update_of_ne hd]
    exact h.cursors d

theorem moveTo (h : Simulates create s v) (c : ℕ) {it : Iterator} {p : Position}
    (hat : p.At v.records it) :
    Simulates create (s.put c ((s.cursors c).moveTo it)) (v.put c p) :=
  h.put c hat (h.cursors c).2

end Simulates

/-- The total length of the records fits in an int. -/
theorem sized_of_total {records : List (List UInt8)} (h : (fileOf records).length < 2147483648) :
    Sized records := by
  intro r hr
  obtain ⟨k, hk, rfl⟩ := List.getElem_of_mem hr
  have hsucc := startOf_succ records k hk
  have hle := startOf_le records (k + 1)
  omega

theorem startOf_inj {records : List (List UInt8)} {i j : ℕ} (hi : i ≤ records.length)
    (hj : j ≤ records.length) (h : startOf records i = startOf records j) : i = j := by
  rcases lt_trichotomy i j with hlt | heq | hlt
  · have := startOf_lt records hlt hj
    omega
  · exact heq
  · have := startOf_lt records hlt hi
    omega

theorem cursor_read {records : List (List UInt8)} {cursor : Cursor T} {p : Position}
    (hat : p.At records cursor.it) (hcached : Cached create records cursor) :
    ∃ cursor' : Cursor T, cursor.read create (fileOf records) =
      some (p.record create records, cursor') ∧
      cursor'.it = cursor.it ∧ Cached create records cursor' := by
  rw [Cursor.read]
  cases p with
  | gap i =>
    obtain ⟨hi, hit⟩ := hat
    rw [if_pos (by rw [hit]; rfl)]
    exact ⟨cursor, rfl, rfl, hcached⟩
  | on i =>
    obtain ⟨hi, hit⟩ := hat
    have hlength : cursor.it.recordLength ≠ 0 := by
      rw [hit]
      change ((records.getD i []).length : ℤ) + 8 ≠ 0
      omega
    have hrecord : Position.record create records (.on i) = some (create records[i]) := by
      rw [Position.record, List.getElem?_eq_getElem hi, Option.map_some]
    rw [if_neg hlength, hrecord]
    by_cases hhit : cursor.currentOffset = cursor.it.offset ∧ cursor.current.isSome
    · obtain ⟨x, hx⟩ := Option.isSome_iff_exists.mp hhit.2
      obtain ⟨k, hk, hoffset, rfl⟩ := hcached x hx
      have hsame : k = i := by
        have heq := hoffset.symm.trans hhit.1
        rw [hit] at heq
        exact startOf_inj hk.le hi.le (Int.ofNat.inj heq)
      subst hsame
      rw [if_pos hhit, hx]
      exact ⟨cursor, rfl, rfl, hcached⟩
    · have hread := read_spec i hi
      rw [RecordIterators.read, ← hit, if_neg hlength] at hread
      obtain ⟨bytes, hbytes, heq⟩ := Option.map_eq_some_iff.mp hread
      obtain rfl := Option.some.inj heq
      rw [if_neg hhit, hbytes]
      refine ⟨_, rfl, rfl, ?_⟩
      intro x hx
      refine ⟨i, hi, ?_, (Option.some.inj hx).symm⟩
      change cursor.it.offset = _
      rw [hit]
      rfl

theorem position_last (records : List (List UInt8)) :
    Position.record create records (.on (records.length - 1)) = records.getLast?.map create := by
  rw [Position.record, List.getLast?_eq_getElem?]

theorem cursor_readLast {records : List (List UInt8)} (hsized : Sized records) {cursor : Cursor T}
    {p : Position} (hat : p.At records cursor.it) (hcached : Cached create records cursor) :
    ∃ cursor' : Cursor T, cursor.readLast create (fileOf records) =
        some (records.getLast?.map create, cursor') ∧
      Position.At records cursor'.it (if records = [] then .gap 0 else .on (records.length - 1)) ∧
      Cached create records cursor' := by
  rw [Cursor.readLast]
  split
  · -- end and prev
    have hend : (RecordIterators.atEnd (fileOf records)).offset =
      startOf records records.length := by
      rw [startOf_length]
      rfl
    rw [prev_spec hsized _ records.length (le_refl _) hend]
    by_cases hnil : records = []
    · subst hnil
      exact ⟨cursor.moveTo (before [] 0), rfl, ⟨le_refl _, rfl⟩, hcached⟩
    · have hlen : records.length ≠ 0 := fun h => hnil (List.length_eq_zero_iff.mp h)
      have hlast : Position.At records
        (cursor.moveTo (RecordIterators.on records (records.length - 1))).it
          (.on (records.length - 1)) := ⟨by omega, rfl⟩
      have hmoved : Cached create records
        (cursor.moveTo (RecordIterators.on records (records.length - 1))) :=
        hcached
      obtain ⟨cursor', hread, hit, hcached'⟩ := cursor_read hlast hmoved
      rw [position_last] at hread
      rw [if_neg hlen, if_neg hnil]
      refine ⟨cursor', hread, ?_, hcached'⟩
      rw [hit]
      exact hlast
  case isFalse hhere =>
    -- the iterator is on the last record already
    obtain ⟨hlength, hends⟩ := not_or.mp hhere
    have hlast : p = .on (records.length - 1) ∧ records ≠ [] := by
      cases p with
      | gap i => exact absurd (by rw [hat.2]; rfl) hlength
      | on i =>
        obtain ⟨hle, hoffset⟩ := hat.following
        have hsum : startOf records (i + 1) = startOf records records.length := by
          rw [startOf_length]
          exact Int.ofNat.inj (hoffset.symm.trans (not_not.mp hends))
        have hsame := startOf_inj hle (le_refl _) hsum
        refine ⟨?_, ?_⟩
        · rw [← hsame]
          rfl
        · rintro rfl
          cases hsame
    obtain ⟨rfl, hne⟩ := hlast
    obtain ⟨cursor', hread, hit, hcached'⟩ := cursor_read hat hcached
    rw [position_last] at hread
    rw [if_neg hne]
    refine ⟨cursor', hread, ?_, hcached'⟩
    rw [hit]
    exact hat

namespace Simulates

variable {s : State T} {v : View}

/-- A call gives what it is for, and leaves the iterators where they should be. -/
theorem step (h : Simulates create s v) (op : Op)
    (hsmall : (fileOf v.records).length < 2147483648) :
    ∃ s', RecordCursors.step create s op = some ((v.step create op).1, s') ∧
      Simulates create s' (v.step create op).2 := by
  have hfile := h.file_eq
  have hsized := sized_of_total hsmall
  cases op with
  | append record commits =>
    obtain ⟨version, hmirrors⟩ := h.mirrors
    obtain ⟨hreturned, hstore⟩ := appendRecord_mirrors hmirrors record commits
    refine ⟨_, by rw [RecordCursors.step, hreturned]; rfl, ?_⟩
    cases commits with
    | false => exact ⟨⟨_, hstore⟩, h.cursors, h.marks⟩
    | true =>
      refine ⟨⟨version + 1, ?_⟩, ?_, ?_⟩
      · change Mirrors _ ⟨fileOf (v.records ++ [record]), [], version + 1⟩
        rw [fileOf_concat]
        exact hstore
      · intro c
        exact ⟨(h.cursors c).1.append [record], (h.cursors c).2.append [record]⟩
      · intro name
        obtain ⟨hle, hmark⟩ := h.marks name
        refine ⟨?_, ?_⟩
        · change v.marks name ≤ (v.records ++ [record]).length
          rw [List.length_append]
          omega
        · change getMark s.marked name = some (startOf (v.records ++ [record]) (v.marks name) : ℤ)
          rw [hmark, startOf_append v.records [record] _ hle]
  | start c =>
    exact ⟨_, rfl, h.moveTo c ⟨Nat.zero_le _, rfl⟩⟩
  | atEnd c =>
    refine ⟨_, rfl, h.moveTo c ⟨le_refl _, ?_⟩⟩
    rw [hfile, before, startOf_length]
    rfl
  | next c =>
    obtain ⟨hfollowing, hoffset⟩ := (h.cursors c).1.following
    rw [RecordCursors.step, View.step, hfile, next_spec hsized _ _ hfollowing hoffset]
    by_cases hlt : (v.position c).following < v.records.length
    · rw [if_pos hlt]
      dsimp only
      rw [if_pos hlt]
      exact ⟨_, rfl, h.moveTo c ⟨hlt, rfl⟩⟩
    · rw [if_neg hlt]
      dsimp only
      rw [if_neg hlt]
      exact ⟨_, rfl, h.moveTo c ⟨hfollowing, rfl⟩⟩
  | prev c =>
    have hle := (h.cursors c).1.index_le
    rw [RecordCursors.step, View.step, hfile, prev_spec hsized _ _ hle (h.cursors c).1.offset]
    by_cases hzero : (v.position c).index = 0
    · rw [if_pos hzero]
      dsimp only
      rw [if_pos hzero]
      exact ⟨_, rfl, h.moveTo c ⟨Nat.zero_le _, rfl⟩⟩
    · rw [if_neg hzero]
      dsimp only
      rw [if_neg hzero]
      exact ⟨_, rfl, h.moveTo c ⟨by omega, rfl⟩⟩
  | mark c name =>
    have hoffset := (h.cursors c).1.offset
    have hle := (h.cursors c).1.index_le
    have hstart := startOf_le v.records (v.position c).index
    have hlong : inLong (startOf v.records (v.position c).index : ℤ) = true := by
      rw [inLong, decide_eq_true_eq]
      omega
    obtain ⟨-, hmark⟩ := h.marks name
    refine ⟨_, by rw [RecordCursors.step, hmark, hoffset]; rfl, ?_⟩
    refine ⟨?_, h.cursors, ?_⟩
    · obtain ⟨version, hmirrors⟩ := h.mirrors
      refine ⟨version, ?_⟩
      change Mirrors (setMark s.marked name _).store _
      rw [store_setMark]
      exact hmirrors
    · intro n
      change Function.update v.marks name (v.position c).index n ≤ v.records.length ∧
        getMark (setMark s.marked name (startOf v.records (v.position c).index)) n =
          some (startOf v.records (Function.update v.marks name (v.position c).index n) : ℤ)
      rw [getMark_setMark hmark hlong]
      by_cases hn : n = name
      · subst hn
        rw [if_pos rfl, Function.update_self]
        exact ⟨hle, rfl⟩
      · rw [if_neg hn, Function.update_of_ne hn]
        exact h.marks n
  | reset c name =>
    obtain ⟨hle, hmark⟩ := h.marks name
    have hstart := startOf_le v.records (v.marks name)
    have hreset : RecordIterators.reset s.file (startOf v.records (v.marks name)) =
        some (before v.records (v.marks name)) := by
      rw [RecordIterators.reset, hfile, if_neg (by omega)]
      rfl
    rw [RecordCursors.step, hmark]
    simp only [Option.bind_eq_bind, Option.bind_some, hreset]
    exact ⟨_, rfl, h.moveTo c ⟨hle, rfl⟩⟩
  | read c =>
    obtain ⟨hat, hcached⟩ := h.cursors c
    obtain ⟨cursor, hread, hit, hcached'⟩ := cursor_read hat hcached
    rw [RecordCursors.step, hfile, hread]
    refine ⟨_, rfl, ?_⟩
    have hsame : v.put c (v.position c) = v := by
      rw [View.put, Function.update_eq_self]
    have hat' : (v.position c).At v.records cursor.it := by
      rw [hit]
      exact hat
    have hput := h.put c hat' hcached'
    rw [hsame] at hput
    exact hput
  | readLast c =>
    obtain ⟨hat, hcached⟩ := h.cursors c
    obtain ⟨cursor, hread, hat', hcached'⟩ := cursor_readLast hsized hat hcached
    rw [RecordCursors.step, hfile, hread]
    exact ⟨_, rfl, h.put c hat' hcached'⟩

end Simulates

theorem View.step_records (v : View) (op : Op) : v.records <+: (v.step create op).2.records := by
  cases op with
  | append record commits =>
    cases commits with
    | true => exact List.prefix_append _ _
    | false => exact List.prefix_rfl
  | next c =>
    rw [View.step]
    split <;> exact List.prefix_rfl
  | prev c =>
    rw [View.step]
    split <;> exact List.prefix_rfl
  | _ => exact List.prefix_rfl

theorem View.run_records (ops : List Op) (v : View) :
    v.records <+: (View.run create ops v).2.records := by
  induction ops generalizing v with
  | nil => exact List.prefix_rfl
  | cons op ops ih => exact (v.step_records op).trans (ih _)

theorem length_fileOf_le {records records' : List (List UInt8)} (h : records <+: records') :
    (fileOf records).length ≤ (fileOf records').length := by
  obtain ⟨more, rfl⟩ := h
  rw [fileOf_append, List.length_append]
  exact Nat.le_add_right _ _

theorem Simulates.run (ops : List Op) {s : State T} {v : View} (h : Simulates create s v)
    (hsmall : (fileOf (View.run create ops v).2.records).length < 2147483648) :
    ∃ s', RecordCursors.run create ops s = some ((View.run create ops v).1, s') ∧
      Simulates create s' (View.run create ops v).2 := by
  induction ops generalizing s v with
  | nil => exact ⟨s, rfl, h⟩
  | cons op ops ih =>
    have hprefix : v.records <+: (View.run create (op :: ops) v).2.records :=
      View.run_records (op :: ops) v
    have hle := length_fileOf_le hprefix
    obtain ⟨s₁, hstep, h₁⟩ := h.step op (lt_of_le_of_lt hle hsmall)
    obtain ⟨s₂, hrun, h₂⟩ := ih h₁ hsmall
    refine ⟨s₂, ?_, h₂⟩
    rw [RecordCursors.run, hstep]
    simp only [Option.bind_eq_bind, Option.bind_some, hrun]
    rfl

end Simulation

def View.initial (records : List (List UInt8)) (marks : Text → ℕ) : View :=
  ⟨records, fun _ => .gap 0, marks⟩

/-- Whatever is called in whatever order, on a store that appendRecord has filled:
every call of an iterator does what it does to a cursor over the list of the
records, and the offset of an iterator is the start of a record or the end. -/
theorem cursors_refine {T : Type} (create : List UInt8 → T) (state : DbState) (name : Name)
    (disk : List UInt8) (markFile : Option Properties) (records : List (List UInt8))
    (hnone : state.db.files (fileKey name) = none → fileOf records = [])
    (hsome : ∀ record, state.db.files (fileKey name) = some record →
      Holds record (fileOf records))
    (hdisk : fileOf records <+: disk) (m : Marked)
    (hopen : openMarked state disk name markFile = some m)
    (marks : Text → ℕ)
    (hmarks : ∀ n, marks n ≤ records.length ∧ getMark m n = some (startOf records (marks n) : ℤ))
    (ops : List Op)
    (hsmall : (fileOf (View.run create ops (.initial records marks)).2.records).length <
      2147483648) :
    ∃ s, run create ops ⟨m, fun _ => Cursor.new⟩ =
        some ((View.run create ops (.initial records marks)).1, s) ∧
      Simulates create s (View.run create ops (.initial records marks)).2 ∧
      ∀ c, ∃ k ≤ (View.run create ops (.initial records marks)).2.records.length,
        (s.cursors c).it.offset =
          startOf (View.run create ops (.initial records marks)).2.records k := by
  have hinitial : Simulates create ⟨m, fun _ => Cursor.new⟩ (.initial records marks) := by
    obtain ⟨store, hstore, hread⟩ := Option.map_eq_some_iff.mp hopen
    refine ⟨⟨store.file.version, ?_⟩, ?_, hmarks⟩
    · rw [← hread]
      change Mirrors (readProperties ⟨store, ∅, markFile⟩).store _
      rw [store_readProperties]
      exact openStore_mirrors hstore hnone hsome hdisk
    · intro c
      refine ⟨⟨Nat.zero_le _, rfl⟩, ?_⟩
      intro x hx
      cases hx
  obtain ⟨s, hrun, hsimulates⟩ := hinitial.run ops hsmall
  refine ⟨s, hrun, hsimulates, fun c => ?_⟩
  have hat := (hsimulates.cursors c).1
  exact ⟨_, hat.index_le, hat.offset⟩

def twoReaders : List Op :=
  [.append [7] true, .next 0, .mark 0 ['m'], .next 0, .append [8, 9] true,
    .readLast 1, .prev 1, .read 1, .reset 0 ['m'], .next 0, .read 0]

theorem cursors_refine_two : ∃ m s results,
    openMarked (openDb emptyDatabase) [] [0x66] none = some m ∧
    run id twoReaders ⟨m, fun _ => Cursor.new⟩ = some (results, s) ∧
    results = [.returned true, .moved true, .offset 0, .moved false, .returned true,
      .record (some [8, 9]),
      .moved true, .record (some [7]), .offset 0, .moved true, .record (some [7])] := by
  obtain ⟨s, hrun, -⟩ := cursors_refine id (openDb emptyDatabase) [0x66] [] none [] (fun _ => rfl)
    (fun _ h => by cases h) List.prefix_rfl _ rfl (fun _ => 0)
      (fun _ => ⟨le_refl _, rfl⟩) twoReaders
    (by decide)
  exact ⟨_, s, _, rfl, hrun, rfl⟩

end Succinct.RecordCursors
