import Succinct.RecordIterators
import Succinct.MessageQueue
import Succinct.Utf8Texts

/-!
MembershipList.java: the numbers of the members of a team. The list follows
the file of memberships with an iterator, and each call first reads what has
been appended. A record that is too short throws, after the iterator has
stepped on it. A String is the list of its characters; the charset of a device is UTF-8.
-/
namespace Succinct.Memberships

open RecordIterators ByteBuffers Utf8Texts
open MessageQueue (PeerId)

def EOC : PeerId := fun _ => 0

structure Membership where
  time : ℤ
  peerId : PeerId
  enroll : Bool
  deriving DecidableEq

def asLong (n : ℕ) : ℤ := if n < 9223372036854775808 then n else (n : ℤ) - 18446744073709551616

def createMembership (bytes : List UInt8) : Option Membership :=
  if bytes.length < 16 then none
  else some
    { time := asLong (ofBigEndian (bytes.take 8))
      peerId := fun i => (bytes.drop 8).getD i 0
      enroll := decide (bytes.length = 16) }

def serialiseMembership (m : Membership) : List UInt8 :=
  bigEndian 8 (m.time % 18446744073709551616).toNat ++ List.ofFn m.peerId ++
    if m.enroll then [] else [1]

theorem createMembership_serialise (m : Membership) (hmin : -9223372036854775808 ≤ m.time)
    (hmax : m.time < 9223372036854775808) :
    createMembership (serialiseMembership m) = some m := by
  obtain ⟨time, id, enroll⟩ := m
  dsimp only at hmin hmax
  have htime : asLong (ofBigEndian (bigEndian 8 (time % 18446744073709551616).toNat)) = time := by
    rw [ofBigEndian_bigEndian, Nat.mod_eq_of_lt (by omega), asLong]
    split <;> omega
  have hlen : (serialiseMembership ⟨time, id, enroll⟩).length = if enroll then 16 else 17 := by
    cases enroll <;> simp [serialiseMembership]
  rw [createMembership, if_neg (by rw [hlen]; split <;> decide), hlen]
  simp only [serialiseMembership, List.append_assoc]
  rw [List.take_left' (length_bigEndian 8 _), List.drop_left' (length_bigEndian 8 _), htime]
  congr 2
  · exact getD_ofFn id _
  · cases enroll <;> rfl

structure TeamMember where
  employeeId : Option (List Char)
  name : Option (List Char)
  deriving DecidableEq

/-- The text up to a NUL or the end, and the bytes that follow. -/
def getString (bytes : List UInt8) : List Char × List UInt8 :=
  (decodeUtf8 (bytes.takeWhile (· ≠ 0)), (bytes.dropWhile (· ≠ 0)).drop 1)

def putString (text : List Char) : List UInt8 := encodeUtf8 text ++ [0]

def createTeamMember (bytes : List UInt8) : TeamMember :=
  if bytes = [] then ⟨none, none⟩
  else ⟨some (getString bytes).1, some (getString (getString bytes).2).1⟩

/-- Back from the iterator to the last record with a name; else to the first
record of all. None: the loop does not end, or throws. -/
def findMember (file : List UInt8) : ℕ → Iterator → Option TeamMember → Option (Option TeamMember)
  | 0, _, _ => none
  | fuel + 1, it, member =>
    match prev file it with
    | none => none
    | some (false, _) => some member
    | some (true, it) =>
      match read file it with
      | some (some bytes) =>
        if (createTeamMember bytes).name.isSome then some (some (createTeamMember bytes))
        else findMember file fuel it (some (createTeamMember bytes))
      | _ => none

def memberIn (file : List UInt8) : Option (Option TeamMember) :=
  findMember file (file.length + 1) (atEnd file) none

structure Tables where
  positions : PeerId → Option ℕ
  removed : PeerId → Bool
  peerIds : List PeerId

structure MembershipList extends Tables where
  members : List (Option TeamMember)
  iterator : Iterator

def initial : Tables where
  positions := Function.update (fun _ => none) EOC (some 0)
  removed := fun _ => false
  peerIds := [EOC]

def newList : MembershipList where
  toTables := initial
  members := [some ⟨some [], some ['E', 'O', 'C']⟩]
  iterator := start

/-- The body of the loop of getMembers; ids are the files with the names. -/
def enter (ids : PeerId → List UInt8) (l : MembershipList) (m : Membership) :
    Option MembershipList :=
  if m.enroll then
    if (l.positions m.peerId).isSome then some l
    else (memberIn (ids m.peerId)).map fun member =>
      { positions := Function.update l.positions m.peerId (some l.members.length)
        removed := Function.update l.removed m.peerId false
        peerIds := l.peerIds ++ [m.peerId]
        members := l.members ++ [member]
        iterator := l.iterator }
  else some { l with positions := Function.update l.positions m.peerId none
                     removed := Function.update l.removed m.peerId true }

/-- Whether it returned, and the list after. None: the loop does not end, or
the file is no list of records. -/
def getMembersLoop (file : List UInt8) (ids : PeerId → List UInt8) :
    ℕ → MembershipList → Option (Bool × MembershipList)
  | 0, _ => none
  | fuel + 1, l =>
    match next file l.iterator with
    | none => none
    | some (false, it) => some (true, { l with iterator := it })
    | some (true, it) =>
      match read file it with
      | some (some bytes) =>
        match createMembership bytes with
        | none => some (false, { l with iterator := it })
        | some m => (enter ids { l with iterator := it } m).bind (getMembersLoop file ids fuel)
      | _ => none

def getMembers (file : List UInt8) (ids : PeerId → List UInt8) (l : MembershipList) :
    Option (Bool × MembershipList) :=
  getMembersLoop file ids (file.length + 1) l

def isActive (t : Tables) (id : PeerId) : Bool := (t.positions id).isSome && !t.removed id

/-- None is an IndexOutOfBoundsException. -/
def isActiveAt (t : Tables) (position : ℕ) : Option Bool :=
  (t.peerIds[position]?).map fun id =>
    (t.positions id).isSome && !t.removed id && decide (t.positions id = some position)

def getPosition (t : Tables) (id : PeerId) : Option ℕ := t.positions id

def getPeerId (t : Tables) (position : ℤ) : Option PeerId :=
  if position < 0 then none else t.peerIds[position.toNat]?

/-- A name that was not known is looked up again, and kept. -/
def memberAt (ids : PeerId → List UInt8) (l : MembershipList) (position : ℕ) (id : PeerId) :
    Option (Option TeamMember × MembershipList) :=
  match l.members.getD position none with
  | some member => some (some member, l)
  | none => (memberIn (ids id)).map fun member =>
    (member, { l with members := l.members.set position member })

def getTeamMember (ids : PeerId → List UInt8) (l : MembershipList) (id : PeerId) :
    Option (Option TeamMember × MembershipList) :=
  match l.positions id with
  | none => some (none, l)
  | some position => memberAt ids l position id

def getTeamMemberAt (ids : PeerId → List UInt8) (l : MembershipList) (position : ℤ) :
    Option (Option TeamMember × MembershipList) :=
  if position < 0 ∨ position ≥ l.members.length then some (none, l)
  else memberAt ids l position.toNat (l.peerIds.getD position.toNat EOC)

inductive Call where
  | getMembers
  | getTeamMember (id : PeerId)
  | getTeamMemberAt (position : ℤ)
  | isActive (id : PeerId)
  | isActiveAt (position : ℕ)
  | getPosition (id : PeerId)
  | getPeerId (position : ℤ)

def answer (ids : PeerId → List UInt8) (l : MembershipList) : Call →
    Option (Bool × MembershipList)
  | .getTeamMember id => (getTeamMember ids l id).map fun (_, l) => (true, l)
  | .getTeamMemberAt position => (getTeamMemberAt ids l position).map fun (_, l) => (true, l)
  | .isActiveAt position => some ((isActiveAt l.toTables position).isSome, l)
  | _ => some (true, l)

structure Device where
  records : List (List UInt8)
  names : PeerId → List (List UInt8)
  list : MembershipList
  sized : Sized records
  names_sized : ∀ id, Sized (names id)

def Device.ids (d : Device) : PeerId → List UInt8 := fun id => fileOf (d.names id)

def newDevice : Device where
  records := []
  names := fun _ => []
  list := newList
  sized := fun _ h => absurd h List.not_mem_nil
  names_sized := fun _ _ h => absurd h List.not_mem_nil

def call (d : Device) (c : Call) : Option (Bool × Device) :=
  match getMembers (fileOf d.records) d.ids d.list with
  | none => none
  | some (false, l) => some (false, { d with list := l })
  | some (true, l) => (answer d.ids l c).map fun (returned, l) => (returned, { d with list := l })

theorem sized_append {records : List (List UInt8)} (h : Sized records) {r : List UInt8}
    (hr : r.length + 8 < 2147483648) : Sized (records ++ [r]) := by
  intro r' hr'
  rcases List.mem_append.mp hr' with hold | hnew
  · exact h r' hold
  · rw [List.mem_singleton.mp hnew]
    exact hr

inductive Event where
  | append (record : List UInt8) (h : record.length + 8 < 2147483648)
  | appendName (id : PeerId) (record : List UInt8) (h : record.length + 8 < 2147483648)
  | call (c : Call)

def step (d : Device) : Event → Option Device
  | .append record h =>
    some { d with records := d.records ++ [record], sized := sized_append d.sized h }
  | .appendName id record h => some
      { d with names := Function.update d.names id (d.names id ++ [record])
               names_sized := by
                 intro id'
                 by_cases heq : id' = id
                 · subst heq
                   rw [Function.update_self]
                   exact sized_append (d.names_sized id') h
                 · rw [Function.update_of_ne heq]
                   exact d.names_sized id' }
  | .call c => (call d c).map Prod.snd

def run : Device → List Event → Option Device
  | d, [] => some d
  | d, e :: rest => (step d e).bind fun d => run d rest

def Tables.add (t : Tables) (id : PeerId) : Tables where
  positions := Function.update t.positions id (some t.peerIds.length)
  removed := Function.update t.removed id false
  peerIds := t.peerIds ++ [id]

def Tables.remove (t : Tables) (id : PeerId) : Tables :=
  { t with positions := Function.update t.positions id none
           removed := Function.update t.removed id true }

def Tables.apply (t : Tables) (m : Membership) : Tables :=
  if m.enroll then if (t.positions m.peerId).isSome then t else t.add m.peerId
  else t.remove m.peerId

def tablesOf (ms : List Membership) : Tables := ms.foldl Tables.apply initial

def memberships (records : List (List UInt8)) : List Membership :=
  records.filterMap createMembership

def enrolled (ms : List Membership) (id : PeerId) : Bool :=
  ms.foldl (fun b m => if m.peerId = id then m.enroll else b) (decide (id = EOC))

section Reading

variable {records : List (List UInt8)}

theorem length_le_fileOf (records : List (List UInt8)) :
    records.length ≤ (fileOf records).length := by
  induction records with
  | nil => exact Nat.le_refl 0
  | cons r rest ih =>
    have hsplit : fileOf (r :: rest) = RecordStore.completeRecord r ++ fileOf rest := rfl
    rw [hsplit, List.length_append, length_completeRecord, List.length_cons]
    omega

def namedBefore (records : List (List UInt8)) : ℕ → Option TeamMember → Option TeamMember
  | 0, member => member
  | k + 1, _ =>
    if (createTeamMember (records.getD k [])).name.isSome
      then some (createTeamMember (records.getD k []))
    else namedBefore records k (some (createTeamMember (records.getD k [])))

theorem findMember_spec (hsized : Sized records) (fuel k : ℕ)
    (hk : k ≤ records.length) (hfuel : k < fuel)
    (it : Iterator) (hit : it.offset = startOf records k) (member : Option TeamMember) :
    findMember (fileOf records) fuel it member = some (namedBefore records k member) := by
  induction k generalizing fuel it member with
  | zero =>
    obtain ⟨fuel, rfl⟩ := Nat.exists_eq_succ_of_ne_zero (Nat.ne_of_gt hfuel)
    rw [findMember, prev_spec hsized it 0 hk hit, if_pos rfl]
    rfl
  | succ k ih =>
    obtain ⟨fuel, rfl⟩ := Nat.exists_eq_succ_of_ne_zero (Nat.ne_of_gt (Nat.zero_lt_of_lt hfuel))
    rw [findMember, prev_spec hsized it (k + 1) hk hit, if_neg (Nat.succ_ne_zero k),
      Nat.add_sub_cancel]
    dsimp only
    rw [read_spec k hk, namedBefore, getD_of_lt k hk]
    dsimp only
    split
    · rfl
    · exact ih fuel (by omega) (by omega) (on records k) rfl _

theorem memberIn_spec (hsized : Sized records) :
    memberIn (fileOf records) = some (namedBefore records records.length none) := by
  have hlen := length_le_fileOf records
  apply findMember_spec hsized _ _ (Nat.le_refl _) (by omega)
  rw [startOf_length]
  rfl

end Reading

section Following

variable {records : List (List UInt8)} {names : PeerId → List (List UInt8)}

structure Follows (records : List (List UInt8)) (k : ℕ) (l : MembershipList) : Prop where
  le : k ≤ records.length
  iterator : l.iterator.offset + l.iterator.recordLength = startOf records k
  tables : l.toTables = tablesOf (memberships (records.take k))
  sizes : l.members.length = l.peerIds.length

def named (names : PeerId → List (List UInt8)) (id : PeerId) : Option TeamMember :=
  namedBefore (names id) (names id).length none

theorem enter_spec (hnames : ∀ id, Sized (names id)) (l : MembershipList)
    (hsizes : l.members.length = l.peerIds.length) (m : Membership) :
    ∃ l', enter (fun id => fileOf (names id)) l m = some l' ∧ l'.iterator = l.iterator ∧
      l'.toTables = l.toTables.apply m ∧ l'.members.length = l'.peerIds.length ∧
        ∀ x ∈ l'.members, x ∈ l.members ∨ x = named names m.peerId := by
  rw [enter, Tables.apply]
  split
  · split
    · exact ⟨l, rfl, rfl, rfl, hsizes, fun _ => Or.inl⟩
    · rw [memberIn_spec (hnames m.peerId), hsizes]
      refine ⟨_, rfl, rfl, rfl, ?_, ?_⟩
      · dsimp only
        rw [List.length_append, List.length_append, hsizes]
        rfl
      · intro x hx
        rcases List.mem_append.mp hx with hold | hnew
        · exact Or.inl hold
        · exact Or.inr (List.mem_singleton.mp hnew)
  · exact ⟨_, rfl, rfl, rfl, hsizes, fun _ => Or.inl⟩

theorem memberships_take_succ (k : ℕ) (hk : k < records.length) :
    memberships (records.take (k + 1)) =
      memberships (records.take k) ++ (createMembership records[k]).toList := by
  rw [memberships, List.take_succ_eq_append_getElem hk, List.filterMap_append]
  rfl

theorem follows_on (k : ℕ) (hk : k < records.length) :
    (on records k).offset + (on records k).recordLength = startOf records (k + 1) := by
  rw [startOf_succ records k hk, on, getD_of_lt k hk]
  push_cast
  exact rfl

/-- What getMembers does: the list goes on from the k-th to the k'-th record,
what it learns are names of peers that the records mention, and it returns
unless there is a malformed record, which it leaves behind. -/
structure Reads (names : PeerId → List (List UInt8)) (records : List (List UInt8)) (k : ℕ)
    (l : MembershipList) (returned : Bool) (l' : MembershipList) (k' : ℕ) : Prop where
  le : k ≤ k'
  follows : Follows records k' l'
  learns : ∀ x ∈ l'.members, x ∈ l.members ∨ ∃ m ∈ memberships records, x = named names m.peerId
  returns : returned = true ↔ ∀ r ∈ records.drop k, (createMembership r).isSome = true
  all : returned = true → k' = records.length
  stops : returned = false → k < k'

theorem getMembersLoop_spec (hsized : Sized records)
    (hnames : ∀ id, Sized (names id)) (fuel k : ℕ)
    (l : MembershipList) (hl : Follows records k l) (hfuel : records.length - k < fuel) :
    ∃ returned l' k', getMembersLoop (fileOf records) (fun id => fileOf (names id)) fuel l =
        some (returned, l') ∧ Reads names records k l returned l' k' := by
  induction fuel generalizing k l with
  | zero => exact absurd hfuel (Nat.not_lt_zero _)
  | succ fuel ih =>
    rw [getMembersLoop, next_spec hsized l.iterator k hl.le hl.iterator]
    by_cases hk : k < records.length
    · rw [if_pos hk]
      dsimp only
      rw [read_spec k hk]
      dsimp only
      have hms := memberships_take_succ k hk
      cases hcreate : createMembership records[k] with
      | none =>
        rw [hcreate, Option.toList_none, List.append_nil] at hms
        refine ⟨false, _, k + 1, rfl, Nat.le_succ k, ⟨hk, follows_on k hk, ?_, hl.sizes⟩,
          fun _ => Or.inl, ?_, ?_, fun _ => Nat.lt_succ_self k⟩
        · rw [hms]
          exact hl.tables
        · refine iff_of_false Bool.false_ne_true ?_
          rw [List.drop_eq_getElem_cons hk, List.forall_mem_cons, hcreate]
          exact fun h => Bool.false_ne_true h.1
        · intro h
          cases h
      | some m =>
        rw [hcreate, Option.toList_some] at hms
        obtain ⟨l', hl', hit, htables, hsizes, hmembers⟩ :=
          enter_spec hnames { l with iterator := on records k } hl.sizes m
        have hfollows : Follows records (k + 1) l' := by
          refine ⟨hk, ?_, ?_, hsizes⟩
          · rw [hit]
            exact follows_on k hk
          · rw [htables, hms, tablesOf, List.foldl_append, ← tablesOf, ← hl.tables]
            rfl
        obtain ⟨returned, l'', k', hloop, hreads⟩ := ih (k + 1) l' hfollows (by omega)
        refine ⟨returned, l'', k', ?_, Nat.le_of_succ_le hreads.le, hreads.follows,
          ?_, ?_, hreads.all, fun h => Nat.lt_of_succ_lt (hreads.stops h)⟩
        · dsimp only
          rw [hl']
          exact hloop
        · intro x hx
          rcases hreads.learns x hx with hold | hnew
          · rcases hmembers x hold with hold | heq
            · exact Or.inl hold
            · refine Or.inr ⟨m, ?_, heq⟩
              exact List.mem_filterMap.mpr ⟨records[k], List.getElem_mem hk, hcreate⟩
          · exact Or.inr hnew
        · rw [hreads.returns, List.drop_eq_getElem_cons hk, List.forall_mem_cons, hcreate]
          exact (and_iff_right rfl).symm
    · have hlast : k = records.length := by
        have := hl.le
        omega
      rw [if_neg hk]
      refine ⟨true, _, k, rfl, Nat.le_refl k, ⟨hl.le, ?_, hl.tables, hl.sizes⟩, fun _ => Or.inl,
        ?_, fun _ => hlast, ?_⟩
      · exact Int.add_zero _
      · rw [hlast, List.drop_length]
        exact iff_of_true rfl fun _ h => absurd h List.not_mem_nil
      · intro h
        cases h

theorem getMembers_spec (hsized : Sized records) (hnames : ∀ id, Sized (names id)) (k : ℕ)
    (l : MembershipList) (hl : Follows records k l) :
    ∃ returned l' k', getMembers (fileOf records) (fun id => fileOf (names id)) l =
      some (returned, l') ∧ Reads names records k l returned l' k' := by
  have hlen := length_le_fileOf records
  exact getMembersLoop_spec hsized hnames _ k l hl (by omega)

theorem memberAt_spec (hnames : ∀ id, Sized (names id)) (l : MembershipList) (position : ℕ)
    (id : PeerId) :
    ∃ member l', memberAt (fun id => fileOf (names id)) l position id = some (member, l') ∧
      l'.toTables = l.toTables ∧ l'.iterator = l.iterator ∧
      l'.members.length = l.members.length := by
  rw [memberAt]
  split
  · exact ⟨_, l, rfl, rfl, rfl, rfl⟩
  · rw [memberIn_spec (hnames id)]
    exact ⟨_, _, rfl, rfl, rfl, List.length_set⟩

def Call.Answers (t : Tables) : Call → Prop
  | .isActiveAt position => position < t.peerIds.length
  | _ => True

theorem answer_spec (hnames : ∀ id, Sized (names id)) (l : MembershipList) (c : Call) :
    ∃ returned l', answer (fun id => fileOf (names id)) l c = some (returned, l') ∧
      (returned = true ↔ c.Answers l.toTables) ∧ l'.toTables = l.toTables ∧
        l'.iterator = l.iterator ∧ l'.members.length = l.members.length := by
  have hanswers : true = true ↔ True := iff_of_true rfl trivial
  cases c with
  | getTeamMember id =>
    rw [answer, getTeamMember]
    cases hposition : l.positions id with
    | none => exact ⟨_, _, rfl, hanswers, rfl, rfl, rfl⟩
    | some position =>
      obtain ⟨member, l', heq, hrest⟩ := memberAt_spec hnames l position id
      dsimp only
      rw [heq]
      exact ⟨_, _, rfl, hanswers, hrest⟩
  | getTeamMemberAt position =>
    rw [answer, getTeamMemberAt]
    split
    · exact ⟨_, _, rfl, hanswers, rfl, rfl, rfl⟩
    · obtain ⟨member, l', heq, hrest⟩ :=
        memberAt_spec hnames l position.toNat (l.peerIds.getD position.toNat EOC)
      rw [heq]
      exact ⟨_, _, rfl, hanswers, hrest⟩
  | isActiveAt position =>
    refine ⟨_, _, rfl, ?_, rfl, rfl, rfl⟩
    rw [isActiveAt, Option.isSome_map, Call.Answers, isSome_getElem?]
  | getMembers => exact ⟨_, _, rfl, hanswers, rfl, rfl, rfl⟩
  | isActive id => exact ⟨_, _, rfl, hanswers, rfl, rfl, rfl⟩
  | getPosition id => exact ⟨_, _, rfl, hanswers, rfl, rfl, rfl⟩
  | getPeerId position => exact ⟨_, _, rfl, hanswers, rfl, rfl, rfl⟩

theorem Follows.append {k : ℕ} {l : MembershipList} (h : Follows records k l)
    (record : List UInt8) :
    Follows (records ++ [record]) k l := by
  refine ⟨?_, ?_, ?_, h.sizes⟩
  · rw [List.length_append]
    exact Nat.le_add_right_of_le h.le
  · rw [startOf_append records [record] k h.le]
    exact h.iterator
  · rw [List.take_append_of_le_length h.le]
    exact h.tables

/-- What a call comes to where k records have been read: it returns if no record that is left
is malformed and the query can be answered, and then it has read them all; a malformed record
is read past. -/
structure Called (d : Device) (k : ℕ) (c : Call) (returned : Bool) (d' : Device) (k' : ℕ) :
    Prop where
  records : d'.records = d.records
  le : k ≤ k'
  follows : Follows d.records k' d'.list
  returns : returned = true ↔ (∀ r ∈ d.records.drop k, (createMembership r).isSome = true) ∧
    c.Answers (tablesOf (memberships d.records))
  all : (∀ r ∈ d.records.drop k, (createMembership r).isSome = true) → k' = d.records.length
  stops : (∃ r ∈ d.records.drop k, createMembership r = none) → k < k'

theorem call_spec (d : Device) (k : ℕ) (hd : Follows d.records k d.list) (c : Call) :
    ∃ returned d' k', call d c = some (returned, d') ∧ Called d k c returned d' k' := by
  obtain ⟨returned, l, k', heq, hreads⟩ := getMembers_spec d.sized d.names_sized k d.list hd
  have hcall : getMembers (fileOf d.records) d.ids d.list = some (returned, l) := heq
  have hl := hreads.follows
  rw [call, hcall]
  cases returned with
  | false =>
    have hbad : ¬ ∀ r ∈ d.records.drop k, (createMembership r).isSome = true := fun h =>
      Bool.false_ne_true (hreads.returns.mpr h)
    exact ⟨_, _, k', rfl, rfl, hreads.le, hl, iff_of_false Bool.false_ne_true fun h => hbad h.1,
      fun h => absurd h hbad, fun _ => hreads.stops rfl⟩
  | true =>
    obtain ⟨returned, l', heq', hanswers, htables, hit, hsizes⟩ := answer_spec d.names_sized l c
    have hanswer : answer d.ids l c = some (returned, l') := heq'
    have hgood := hreads.returns.mp rfl
    have hend := hreads.all rfl
    have hall : l.toTables = tablesOf (memberships d.records) := by
      rw [hl.tables, hend, List.take_length]
    dsimp only
    rw [hanswer]
    refine ⟨returned, _, k', rfl, rfl, hreads.le, ⟨hl.le, ?_, ?_, ?_⟩, ?_, fun _ => hend, ?_⟩
    · rw [hit]
      exact hl.iterator
    · rw [htables]
      exact hl.tables
    · rw [hsizes, htables]
      exact hl.sizes
    · rw [hanswers, hall]
      exact (and_iff_right hgood).symm
    · rintro ⟨r, hr, hnone⟩
      have hsome := hgood r hr
      rw [hnone] at hsome
      cases hsome

theorem step_spec (d : Device) (k : ℕ) (hd : Follows d.records k d.list) (e : Event) :
    ∃ d' k', step d e = some d' ∧ d.records <+: d'.records ∧ k ≤ k' ∧
    Follows d'.records k' d'.list := by
  cases e with
  | append record h =>
    exact ⟨_, k, rfl, List.prefix_append _ _, Nat.le_refl k, hd.append record⟩
  | appendName id record h => exact ⟨_, k, rfl, List.prefix_rfl, Nat.le_refl k, hd⟩
  | call c =>
    obtain ⟨returned, d', k', heq, hcalled⟩ := call_spec d k hd c
    rw [step, heq]
    refine ⟨d', k', rfl, ?_, hcalled.le, ?_⟩
    · rw [hcalled.records]
    · rw [hcalled.records]
      exact hcalled.follows

theorem run_spec (events : List Event) (d : Device) (k : ℕ) (hd : Follows d.records k d.list) :
    ∃ d' k', run d events = some d' ∧ d.records <+: d'.records ∧ k ≤ k' ∧
      Follows d'.records k' d'.list := by
  induction events generalizing d k with
  | nil => exact ⟨d, k, rfl, List.prefix_rfl, Nat.le_refl k, hd⟩
  | cons e rest ih =>
    obtain ⟨d₁, k₁, hstep, hrecords, hle, hfollows⟩ := step_spec d k hd e
    obtain ⟨d₂, k₂, hrun, hrecords', hle', hfollows'⟩ := ih d₁ k₁ hfollows
    refine ⟨d₂, k₂, ?_, hrecords.trans hrecords', Nat.le_trans hle hle', hfollows'⟩
    rw [run, hstep]
    exact hrun

theorem newDevice_follows : Follows newDevice.records 0 newDevice.list :=
  ⟨Nat.le_refl 0, rfl, rfl, rfl⟩

end Following

/-- What the tables keep: every position in use is that of its peer, the last
one of it, and a peer is not enrolled and removed at once. -/
structure Sound (t : Tables) : Prop where
  position : ∀ id p, t.positions id = some p → t.peerIds[p]? = some id
  latest : ∀ id p q, t.positions id = some p → t.peerIds[q]? = some id → q ≤ p
  disjoint : ∀ id, (t.positions id).isSome → t.removed id = false

theorem initial_positions_ne (id : PeerId) (h : id ≠ EOC) : initial.positions id = none := by
  simp [initial, h]

theorem sound_initial : Sound initial := by
  have hcases : ∀ id p, initial.positions id = some p → id = EOC ∧ p = 0 := by
    intro id p h
    by_cases heq : id = EOC
    · subst heq
      exact ⟨rfl, (Option.some.inj h).symm⟩
    · rw [initial_positions_ne id heq] at h
      cases h
  refine ⟨?_, ?_, fun _ _ => rfl⟩
  · intro id p h
    obtain ⟨rfl, rfl⟩ := hcases id p h
    rfl
  · intro id p q h hq
    have hlt := (List.getElem?_eq_some_iff.mp hq).1
    have hone : initial.peerIds.length = 1 := rfl
    omega

theorem add_positions (t : Tables) (id id' : PeerId) (p : ℕ)
    (h : (t.add id).positions id' = some p) :
    (id' = id ∧ p = t.peerIds.length) ∨ (id' ≠ id ∧ t.positions id' = some p) := by
  by_cases heq : id' = id
  · subst heq
    have hself : (t.add id').positions id' = some t.peerIds.length := Function.update_self _ _ _
    rw [hself] at h
    exact Or.inl ⟨rfl, (Option.some.inj h).symm⟩
  · have hother : (t.add id).positions id' = t.positions id' := Function.update_of_ne heq _ _
    rw [hother] at h
    exact Or.inr ⟨heq, h⟩

theorem remove_positions (t : Tables) (id id' : PeerId) (p : ℕ)
    (h : (t.remove id).positions id' = some p) : id' ≠ id ∧ t.positions id' = some p := by
  by_cases heq : id' = id
  · subst heq
    have hself : (t.remove id').positions id' = none := Function.update_self _ _ _
    rw [hself] at h
    cases h
  · have hother : (t.remove id).positions id' = t.positions id' := Function.update_of_ne heq _ _
    rw [hother] at h
    exact ⟨heq, h⟩

theorem Sound.add {t : Tables} (h : Sound t) (id : PeerId) : Sound (t.add id) := by
  refine ⟨?_, ?_, ?_⟩
  · intro id' p hp
    rcases add_positions t id id' p hp with ⟨rfl, rfl⟩ | ⟨-, hold⟩
    · exact List.getElem?_concat_length
    · have hid := h.position id' p hold
      exact (List.getElem?_append_left (List.getElem?_eq_some_iff.mp hid).1).trans hid
  · intro id' p q hp hq
    have hlt : q < (t.peerIds ++ [id]).length := (List.getElem?_eq_some_iff.mp hq).1
    rw [List.length_append, List.length_singleton] at hlt
    rcases add_positions t id id' p hp with ⟨rfl, rfl⟩ | ⟨hne, hold⟩
    · omega
    · by_cases hnew : q < t.peerIds.length
      · exact h.latest id' p q hold ((List.getElem?_append_left hnew).symm.trans hq)
      · have hlast : q = t.peerIds.length := by omega
        subst hlast
        exact absurd (Option.some.inj (hq.symm.trans List.getElem?_concat_length)) hne
  · intro id' hsome
    obtain ⟨p, hp⟩ := Option.isSome_iff_exists.mp hsome
    rcases add_positions t id id' p hp with ⟨rfl, -⟩ | ⟨hne, hold⟩
    · exact Function.update_self _ _ _
    · exact (Function.update_of_ne hne _ _).trans
        (h.disjoint id' (Option.isSome_iff_exists.mpr ⟨p, hold⟩))

theorem Sound.remove {t : Tables} (h : Sound t) (id : PeerId) : Sound (t.remove id) := by
  refine ⟨?_, ?_, ?_⟩
  · intro id' p hp
    exact h.position id' p (remove_positions t id id' p hp).2
  · intro id' p q hp hq
    exact h.latest id' p q (remove_positions t id id' p hp).2 hq
  · intro id' hsome
    obtain ⟨p, hp⟩ := Option.isSome_iff_exists.mp hsome
    obtain ⟨hne, hold⟩ := remove_positions t id id' p hp
    exact (Function.update_of_ne hne _ _).trans
      (h.disjoint id' (Option.isSome_iff_exists.mpr ⟨p, hold⟩))

theorem apply_cases (t : Tables) (m : Membership) :
    (m.enroll = true ∧ (t.positions m.peerId).isSome = true ∧ t.apply m = t) ∨
      (m.enroll = true ∧ t.positions m.peerId = none ∧ t.apply m = t.add m.peerId) ∨
        (m.enroll = false ∧ t.apply m = t.remove m.peerId) := by
  rw [Tables.apply]
  by_cases henroll : m.enroll = true
  · rw [if_pos henroll]
    by_cases hsome : (t.positions m.peerId).isSome = true
    · exact Or.inl ⟨henroll, hsome, if_pos hsome⟩
    · exact Or.inr (Or.inl ⟨henroll, Option.not_isSome_iff_eq_none.mp hsome, if_neg hsome⟩)
  · exact Or.inr (Or.inr ⟨Bool.eq_false_iff.mpr henroll, if_neg henroll⟩)

theorem Sound.apply {t : Tables} (h : Sound t) (m : Membership) : Sound (t.apply m) := by
  rcases apply_cases t m with ⟨-, -, heq⟩ | ⟨-, -, heq⟩ | ⟨-, heq⟩
  · rw [heq]
    exact h
  · rw [heq]
    exact h.add m.peerId
  · rw [heq]
    exact h.remove m.peerId

theorem tablesOf_append (ms more : List Membership) :
    tablesOf (ms ++ more) = more.foldl Tables.apply (tablesOf ms) := List.foldl_append

theorem tablesOf_snoc (ms : List Membership) (m : Membership) :
    tablesOf (ms ++ [m]) = (tablesOf ms).apply m := tablesOf_append ms [m]

theorem sound_tablesOf (ms : List Membership) : Sound (tablesOf ms) := by
  induction ms using List.reverseRecOn with
  | nil => exact sound_initial
  | append_singleton ms m ih =>
    rw [tablesOf_snoc]
    exact ih.apply m

theorem apply_peerIds (t : Tables) (m : Membership) : t.peerIds <+: (t.apply m).peerIds := by
  rcases apply_cases t m with ⟨-, -, heq⟩ | ⟨-, -, heq⟩ | ⟨-, heq⟩
  · rw [heq]
  · rw [heq]
    exact List.prefix_append _ _
  · rw [heq]
    exact List.prefix_rfl

theorem peerIds_grow (ms more : List Membership) :
    (tablesOf ms).peerIds <+: (tablesOf (ms ++ more)).peerIds := by
  induction more using List.reverseRecOn with
  | nil => rw [List.append_nil]
  | append_singleton more m ih =>
    rw [← List.append_assoc, tablesOf_snoc]
    exact ih.trans (apply_peerIds _ m)

/-- A position that a membership gives out is new. -/
theorem apply_fresh (t : Tables) (m : Membership) (id : PeerId) (p : ℕ)
    (h : (t.apply m).positions id = some p) : t.positions id = some p ∨ p = t.peerIds.length := by
  rcases apply_cases t m with ⟨-, -, heq⟩ | ⟨-, -, heq⟩ | ⟨-, heq⟩
  · rw [heq] at h
    exact Or.inl h
  · rw [heq] at h
    rcases add_positions t m.peerId id p h with ⟨-, hnew⟩ | ⟨-, hold⟩
    · exact Or.inr hnew
    · exact Or.inl hold
  · rw [heq] at h
    exact Or.inl (remove_positions t m.peerId id p h).2

theorem positions_fresh (ms more : List Membership) (id : PeerId) (p : ℕ)
    (hnone : (tablesOf ms).positions id = none)
    (hp : (tablesOf (ms ++ more)).positions id = some p) :
    (tablesOf ms).peerIds.length ≤ p := by
  induction more using List.reverseRecOn generalizing p with
  | nil =>
    rw [List.append_nil, hnone] at hp
    cases hp
  | append_singleton more m ih =>
    rw [← List.append_assoc, tablesOf_snoc] at hp
    rcases apply_fresh _ m id p hp with hold | hnew
    · exact ih p hold
    · rw [hnew]
      exact (peerIds_grow ms more).length_le

/-- Memberships of other peers leave a peer alone. -/
theorem apply_positions_ne (t : Tables) (m : Membership) (id : PeerId) (h : id ≠ m.peerId) :
    (t.apply m).positions id = t.positions id := by
  rcases apply_cases t m with ⟨-, -, heq⟩ | ⟨-, -, heq⟩ | ⟨-, heq⟩
  · rw [heq]
  · rw [heq]
    exact Function.update_of_ne h _ _
  · rw [heq]
    exact Function.update_of_ne h _ _

theorem apply_isSome (t : Tables) (m : Membership) :
    ((t.apply m).positions m.peerId).isSome = m.enroll := by
  rcases apply_cases t m with ⟨henroll, hsome, heq⟩ | ⟨henroll, -, heq⟩ | ⟨henroll, heq⟩
  · rw [heq, hsome, henroll]
  · have hself : (t.add m.peerId).positions m.peerId = some t.peerIds.length :=
      Function.update_self _ _ _
    rw [heq, hself, henroll]
    rfl
  · have hself : (t.remove m.peerId).positions m.peerId = none := Function.update_self _ _ _
    rw [heq, hself, henroll]
    rfl

theorem positions_isSome (ms : List Membership) (id : PeerId) :
    ((tablesOf ms).positions id).isSome = enrolled ms id := by
  induction ms using List.reverseRecOn with
  | nil =>
    by_cases heq : id = EOC
    · subst heq
      decide
    · rw [tablesOf, List.foldl_nil, initial_positions_ne id heq, enrolled, List.foldl_nil,
        decide_eq_false heq]
      rfl
  | append_singleton ms m ih =>
    rw [tablesOf_snoc, enrolled, List.foldl_append, ← enrolled, List.foldl_cons, List.foldl_nil]
    by_cases heq : m.peerId = id
    · rw [if_pos heq, ← heq]
      exact apply_isSome _ m
    · rw [if_neg heq, ← ih, apply_positions_ne _ m id (Ne.symm heq)]

structure Numbering (ms : List Membership) : Prop where
  grows : ∀ before more, ms = before ++ more →
    (tablesOf before).peerIds <+: (tablesOf ms).peerIds
  position : ∀ id p, (tablesOf ms).positions id = some p → (tablesOf ms).peerIds[p]? = some id
  known : ∀ id p, getPosition (tablesOf ms) id = some p → getPeerId (tablesOf ms) p = some id
  distinct : ∀ id id' p, (tablesOf ms).positions id = some p →
    (tablesOf ms).positions id' = some p → id = id'
  disjoint : ∀ id, ¬((tablesOf ms).positions id ≠ none ∧ (tablesOf ms).removed id = true)
  enrolled : ∀ id, ((tablesOf ms).positions id).isSome = enrolled ms id
  enrols : ∀ before m after, ms = before ++ m :: after → m.enroll = true →
    (tablesOf before).positions m.peerId = none →
    (tablesOf (before ++ [m])).positions m.peerId = some (tablesOf before).peerIds.length
  fresh : ∀ before more id p, ms = before ++ more → (tablesOf before).positions id = none →
    (tablesOf ms).positions id = some p → (tablesOf before).peerIds.length ≤ p
  active : ∀ p, isActiveAt (tablesOf ms) p = some true ↔ ∃ id,
    (tablesOf ms).peerIds[p]? = some id ∧ Memberships.enrolled ms id = true ∧
      ∀ q, (tablesOf ms).peerIds[q]? = some id → q ≤ p
  unique : ∀ p q id, isActiveAt (tablesOf ms) p = some true →
    isActiveAt (tablesOf ms) q = some true →
    (tablesOf ms).peerIds[p]? = some id → (tablesOf ms).peerIds[q]? = some id → p = q

theorem Sound.isActiveAt_iff {t : Tables} (hsound : Sound t) (p : ℕ) :
    isActiveAt t p = some true ↔ ∃ id, t.peerIds[p]? = some id ∧ t.positions id = some p := by
  rw [isActiveAt, Option.map_eq_some_iff]
  refine exists_congr fun id => and_congr_right fun _ => ?_
  simp only [Bool.and_eq_true, decide_eq_true_eq]
  constructor
  · exact fun hactive => hactive.2
  · intro hposition
    have hsome : (t.positions id).isSome = true := by
      rw [hposition]
      rfl
    rw [hsound.disjoint id hsome]
    exact ⟨⟨hsome, rfl⟩, hposition⟩

theorem apply_enrols (t : Tables) (m : Membership) (henroll : m.enroll = true)
    (hnone : t.positions m.peerId = none) :
    (t.apply m).positions m.peerId = some t.peerIds.length := by
  rw [Tables.apply, if_pos henroll, if_neg (by rw [hnone]; exact Bool.false_ne_true)]
  exact Function.update_self _ _ _

theorem numbering (ms : List Membership) : Numbering ms := by
  have hsound := sound_tablesOf ms
  refine ⟨?_, hsound.position, ?_, ?_, ?_, positions_isSome ms, ?_, ?_, ?_, ?_⟩
  · rintro before more rfl
    exact peerIds_grow before more
  · intro id p h
    rw [getPeerId, if_neg (by omega)]
    exact hsound.position id p h
  · intro id id' p h h'
    have hid := hsound.position id p h
    rw [hsound.position id' p h'] at hid
    exact (Option.some.inj hid).symm
  · rintro id ⟨hsome, hremoved⟩
    rw [hsound.disjoint id (Option.isSome_iff_ne_none.mpr hsome)] at hremoved
    cases hremoved
  · rintro before m after - henroll hnone
    rw [tablesOf_snoc]
    exact apply_enrols _ m henroll hnone
  · rintro before more id p rfl hnone hp
    exact positions_fresh before more id p hnone hp
  · intro p
    rw [hsound.isActiveAt_iff]
    refine exists_congr fun id => and_congr_right fun hid => ?_
    rw [← positions_isSome]
    constructor
    · intro hposition
      rw [hposition]
      exact ⟨rfl, fun q => hsound.latest id p q hposition⟩
    · rintro ⟨hsome, hlatest⟩
      obtain ⟨p', hp'⟩ := Option.isSome_iff_exists.mp hsome
      have hle := hlatest p' (hsound.position id p' hp')
      have hge := hsound.latest id p' p hp' hid
      rw [hp', Nat.le_antisymm hle hge]
  · intro p q id hp hq hidp hidq
    obtain ⟨id₁, hid₁, hposition₁⟩ := (hsound.isActiveAt_iff p).mp hp
    obtain ⟨id₂, hid₂, hposition₂⟩ := (hsound.isActiveAt_iff q).mp hq
    rw [hidp] at hid₁
    rw [hidq] at hid₂
    obtain rfl := Option.some.inj hid₁
    obtain rfl := Option.some.inj hid₂
    exact Option.some.inj (hposition₁.symm.trans hposition₂)

theorem memberships_prefix {records more : List (List UInt8)} (h : records <+: more) :
    memberships records <+: memberships more := by
  obtain ⟨rest, rfl⟩ := h
  rw [memberships, memberships, List.filterMap_append]
  exact List.prefix_append _ _

/-- However appends and calls alternate, the tables of a device are those of the records it
has read. A call throws where a record that is left is malformed, or a position is not given
out, and only there; a call that returns has read all records. -/
theorem numbering_stable (before after : List Event) :
    ∃ d₁ d₂ k, run newDevice before = some d₁ ∧ run d₁ after = some d₂ ∧
      d₁.list.peerIds <+: d₂.list.peerIds ∧ Follows d₂.records k d₂.list ∧
      Numbering (memberships (d₂.records.take k)) ∧
      ∀ c, ∃ returned d₃ k', call d₂ c = some (returned, d₃) ∧ Called d₂ k c returned d₃ k' ∧
        Numbering (memberships (d₂.records.take k')) ∧
        (returned = true → d₃.list.toTables = tablesOf (memberships d₂.records) ∧
          Numbering (memberships d₂.records)) := by
  obtain ⟨d₁, k₁, hrun₁, -, -, hd₁⟩ := run_spec before newDevice 0 newDevice_follows
  obtain ⟨d₂, k₂, hrun₂, hrecords, hle, hd₂⟩ := run_spec after d₁ k₁ hd₁
  refine ⟨d₁, d₂, k₂, hrun₁, hrun₂, ?_, hd₂, numbering _, ?_⟩
  · have hread : d₁.records.take k₁ <+: d₂.records.take k₂ := by
      obtain ⟨rest, hrest⟩ := hrecords
      rw [← hrest, ← List.take_append_of_le_length hd₁.le]
      exact List.take_prefix_take_left hle
    obtain ⟨more, hmore⟩ := memberships_prefix hread
    rw [hd₁.tables, hd₂.tables, ← hmore]
    exact peerIds_grow _ more
  · intro c
    obtain ⟨returned, d₃, k₃, hcall, hcalled⟩ := call_spec d₂ k₂ hd₂ c
    refine ⟨returned, d₃, k₃, hcall, hcalled, numbering _, fun hreturned => ⟨?_, numbering _⟩⟩
    rw [hcalled.follows.tables, hcalled.all (hcalled.returns.mp hreturned).1, List.take_length]

end Succinct.Memberships
