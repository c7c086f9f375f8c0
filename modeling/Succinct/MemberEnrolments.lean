import Succinct.Memberships

/-!
MemberEnrolments.java: the memberships that have not been reported are turned
into messages. The position of each is looked up in the list as it is when the
call is made. A message is what fragmentMessage gets; the mark "sent" is the
offset up to which memberships have been reported.
-/
namespace Succinct.MemberEnrolments

open RecordIterators ByteBuffers Utf8Texts Memberships
open MessageQueue (PeerId)

def ENROLL : UInt8 := 2

def LEAVE : UInt8 := 3

structure Message where
  deadline : ℤ
  type : UInt8
  bytes : List UInt8
  deriving DecidableEq

def toLong (n : ℤ) : ℤ := asLong (n % 18446744073709551616).toNat

/-- putTime: tenths of a second since the team was created. -/
def timeBytes (value epoc : ℤ) : List UInt8 :=
  if value < epoc then bigEndian 4 0
  else
    let delta := (toLong (value - epoc)).tdiv 100
    if delta > 0x7FFFFFFF then bigEndian 4 0x7FFFFFFF
    else bigEndian 4 (delta % 4294967296).toNat

def CAPACITY : ℕ := 1200

/-- None: a text is null, or the buffer is full. -/
def messageBytes (epoc : ℤ) (pos : ℕ) (m : Membership) (member : TeamMember) :
    Option (List UInt8) :=
  if m.enroll then
    match member.name, member.employeeId with
    | some name, some employeeId =>
      let bytes :=
        UInt8.ofNat pos :: timeBytes m.time epoc ++ putString name ++ putString employeeId
      if bytes.length ≤ CAPACITY then some bytes else none
    | _, _ => none
  else some (UInt8.ofNat pos :: timeBytes m.time epoc)

inductive Turn where
  | skip
  | stop
  | threw
  | message (bytes : List UInt8)

def memberTurn (epoc : ℤ) (file : List UInt8) (ids : PeerId → List UInt8) (l : MembershipList)
    (m : Membership) (pos : ℕ) : Option (Turn × MembershipList) :=
  match getMembers file ids l with
  | none => none
  | some (false, l) => some (.threw, l)
  | some (true, l) =>
    match getTeamMember ids l m.peerId with
    | none => none
    | some (none, l) => some (.stop, l)
    | some (some member, l) =>
      match messageBytes epoc pos m member with
      | none => some (.threw, l)
      | some bytes => some (.message bytes, l)

/-- A turn for a membership. A peer without a position has null for one, and
null is no int. -/
def turn (epoc : ℤ) (file : List UInt8) (ids : PeerId → List UInt8) (l : MembershipList)
    (m : Membership) : Option (Turn × MembershipList) :=
  match getMembers file ids l with
  | none => none
  | some (false, l) => some (.threw, l)
  | some (true, l) =>
    match getPosition l.toTables m.peerId with
    | none => some (.threw, l)
    | some pos => if pos > 255 then some (.skip, l) else memberTurn epoc file ids l m pos

/-- The loop of nextMessage: where the iterator is after it, or an exception,
the inner none; and the list and the messages so far. -/
def enrolmentsLoop (epoc : ℤ) (file : List UInt8) (ids : PeerId → List UInt8) :
    ℕ → Iterator → MembershipList → List Message →
    Option (Option ℤ × MembershipList × List Message)
  | 0, _, _, _ => none
  | fuel + 1, it, l, out =>
    match next file it with
    | none => none
    | some (false, it) => some (some it.offset, l, out)
    | some (true, it) =>
      match read file it with
      | some (some bytes) =>
        match createMembership bytes with
        | none => some (none, l, out)
        | some m =>
          match turn epoc file ids l m with
          | none => none
          | some (.skip, l) => enrolmentsLoop epoc file ids fuel it l out
          | some (.stop, l) => some (some it.offset, l, out)
          | some (.threw, l) => some (none, l, out)
          | some (.message bytes, l) =>
            enrolmentsLoop epoc file ids fuel it l
              (out ++ [⟨m.time, if m.enroll then ENROLL else LEAVE, bytes⟩])
      | _ => none

structure Source where
  device : Device
  sent : ℤ
  output : List Message

def newSource : Source := ⟨newDevice, 0, []⟩

/-- Whether it returned, and the source after. -/
def nextMessage (epoc : ℤ) (s : Source) : Option (Bool × Source) :=
  match reset (fileOf s.device.records) s.sent with
  | none => some (false, s)
  | some it =>
    (enrolmentsLoop epoc (fileOf s.device.records) s.device.ids
      ((fileOf s.device.records).length + 1) it s.device.list s.output).map fun (mark, l, out) =>
        (mark.isSome, ⟨{ s.device with list := l }, mark.getD s.sent, out⟩)

inductive Event where
  | device (e : Memberships.Event)
  | nextMessage

/-- An exception of another call is not one of nextMessage. -/
def step (epoc : ℤ) (s : Source) : Event → Option (Bool × Source)
  | .device e => (Memberships.step s.device e).map fun d => (true, { s with device := d })
  | .nextMessage => nextMessage epoc s

def run (epoc : ℤ) : Source → List Event → Option (Bool × Source)
  | s, [] => some (true, s)
  | s, e :: rest =>
    (step epoc s e).bind fun (returned, s) =>
      (run epoc s rest).map fun (all, s) => (returned && all, s)

def Along (epoc : ℤ) (P : Source → Event → Prop) : Source → List Event → Prop
  | _, [] => True
  | s, e :: rest => P s e ∧ ∀ r, step epoc s e = some r → Along epoc P r.2 rest

/-- A membership is appended only for a peer that has a name; before it is
revoked a peer has been enrolled; and there are at most 255 enrolments. -/
def Proper (s : Source) : Event → Prop
  | .device (.append record _) => ∃ m, createMembership record = some m ∧
      (∃ r ∈ s.device.names m.peerId, r ≠ []) ∧
      (m.enroll = false → ∃ m' ∈ memberships s.device.records, m'.peerId = m.peerId ∧
        m'.enroll = true) ∧
      (memberships (s.device.records ++ [record])).countP Membership.enroll ≤ 255
  | _ => True

/-- The texts of a record leave room for what else an ENROLL message holds, once what is no
UTF-8 in them has been replaced. -/
def Fits (record : List UInt8) : Prop :=
  (encodeUtf8 (getString record).1).length +
    (encodeUtf8 (getString (getString record).2).1).length + 7 ≤ CAPACITY

/-- No membership is revoked when nextMessage is called, and all texts fit. -/
def Harmless (s : Source) : Event → Prop
  | .device (.appendName _ record _) => Fits record
  | .nextMessage => ∀ m ∈ memberships s.device.records, m.enroll = true
  | _ => True

def heading (message : Message) : ℤ × UInt8 × Option UInt8 :=
  (message.deadline, message.type, message.bytes.head?)

def report (t : Tables) (m : Membership) : ℤ × UInt8 × Option UInt8 :=
  (m.time, if m.enroll then ENROLL else LEAVE,
    ((if m.enroll then t.apply m else t).positions m.peerId).map UInt8.ofNat)

def reports : Tables → List Membership → List (ℤ × UInt8 × Option UInt8)
  | _, [] => []
  | t, m :: rest => report t m :: reports (t.apply m) rest

theorem reports_append (t : Tables) (ms more : List Membership) :
    reports t (ms ++ more) = reports t ms ++ reports (ms.foldl Tables.apply t) more := by
  induction ms generalizing t with
  | nil => rfl
  | cons m rest ih =>
    rw [List.cons_append, reports, ih]
    rfl

/-- An enrolment leaves the positions that are in use. -/
theorem apply_keeps (t : Tables) (m : Membership) (hm : m.enroll = true) (id : PeerId) (p : ℕ)
    (h : t.positions id = some p) : (t.apply m).positions id = some p := by
  by_cases heq : id = m.peerId
  · subst heq
    rw [Tables.apply, if_pos hm, if_pos (by rw [h]; rfl)]
    exact h
  · rw [apply_positions_ne t m id heq]
    exact h

theorem foldl_keeps (ms : List Membership) (hms : ∀ m ∈ ms, m.enroll = true)
    (t : Tables) (id : PeerId)
    (p : ℕ) (h : t.positions id = some p) : (ms.foldl Tables.apply t).positions id = some p := by
  induction ms generalizing t with
  | nil => exact h
  | cons m rest ih =>
    refine ih (fun m' hm' => hms m' (List.mem_cons_of_mem m hm')) _ ?_
    exact apply_keeps t m (hms m List.mem_cons_self) id p h

theorem apply_length (t : Tables) (m : Membership) :
    (t.apply m).peerIds.length ≤ t.peerIds.length + if m.enroll then 1 else 0 := by
  rcases apply_cases t m with ⟨-, -, heq⟩ | ⟨henroll, -, heq⟩ | ⟨-, heq⟩
  · rw [heq]
    exact Nat.le_add_right _ _
  · rw [heq, henroll, Tables.add, List.length_append]
    exact Nat.le_refl _
  · rw [heq]
    exact Nat.le_add_right _ _

/-- There are as many positions as enrolments, and that of EOC. -/
theorem length_peerIds (ms : List Membership) :
    (tablesOf ms).peerIds.length ≤ 1 + ms.countP Membership.enroll := by
  induction ms using List.reverseRecOn with
  | nil => exact Nat.le_refl 1
  | append_singleton ms m ih =>
    have hlen := apply_length (tablesOf ms) m
    rw [tablesOf_snoc, List.countP_append, List.countP_singleton]
    omega

def Known (x : Option TeamMember) : Prop :=
  ∃ name employeeId, x = some ⟨some employeeId, some name⟩ ∧
    (encodeUtf8 employeeId).length + (encodeUtf8 name).length + 7 ≤ CAPACITY

theorem known_createTeamMember {record : List UInt8} (hne : record ≠ []) (hfits : Fits record) :
    Known (some (createTeamMember record)) := by
  rw [createTeamMember, if_neg hne]
  exact ⟨_, _, rfl, hfits⟩

theorem known_namedBefore (records : List (List UInt8)) (hfits : ∀ r ∈ records, Fits r) (k : ℕ)
    (hk : k ≤ records.length) (hnamed : ∃ j < k, records.getD j [] ≠ [])
    (member : Option TeamMember) :
    Known (namedBefore records k member) := by
  induction k generalizing member with
  | zero =>
    obtain ⟨j, hj, -⟩ := hnamed
    exact absurd hj (Nat.not_lt_zero j)
  | succ k ih =>
    rw [namedBefore]
    by_cases hempty : records.getD k [] = []
    · rw [hempty, if_neg (by decide)]
      obtain ⟨j, hj, hne⟩ := hnamed
      have hjk : j ≠ k := by
        rintro rfl
        exact hne hempty
      exact ih (by omega) ⟨j, by omega, hne⟩ _
    · have hmem : records.getD k [] ∈ records := by
        rw [getD_of_lt k hk]
        exact List.getElem_mem hk
      have hknown := known_createTeamMember hempty (hfits _ hmem)
      obtain ⟨name, employeeId, heq, -⟩ := hknown
      rw [if_pos]
      · exact known_createTeamMember hempty (hfits _ hmem)
      · rw [Option.some.inj heq]
        rfl

theorem known_named {names : PeerId → List (List UInt8)} {id : PeerId}
    (hfits : ∀ r ∈ names id, Fits r) (hnamed : ∃ r ∈ names id, r ≠ []) :
    Known (named names id) := by
  obtain ⟨r, hr, hne⟩ := hnamed
  obtain ⟨j, hj, rfl⟩ := List.getElem_of_mem hr
  refine known_namedBefore _ hfits _ (Nat.le_refl _) ⟨j, hj, ?_⟩ none
  rw [getD_of_lt j hj]
  exact hne

theorem length_timeBytes (value epoc : ℤ) : (timeBytes value epoc).length = 4 := by
  unfold timeBytes
  dsimp only
  split
  · exact length_bigEndian 4 _
  split
  · exact length_bigEndian 4 _
  · exact length_bigEndian 4 _

theorem messageBytes_enroll (epoc : ℤ) (pos : ℕ) (m : Membership) (hm : m.enroll = true)
    (member : TeamMember) (hknown : Known (some member)) :
    ∃ bytes, messageBytes epoc pos m member = some bytes ∧
    bytes.head? = some (UInt8.ofNat pos) := by
  obtain ⟨name, employeeId, heq, hfits⟩ := hknown
  obtain rfl := Option.some.inj heq
  have hlen := length_timeBytes m.time epoc
  refine ⟨UInt8.ofNat pos :: timeBytes m.time epoc ++ putString name ++
    putString employeeId, ?_, rfl⟩
  rw [messageBytes, if_pos hm]
  dsimp only
  rw [if_pos]
  simp only [putString, List.length_append, List.length_cons, List.length_nil, hlen]
  omega

section Reporting

variable {records : List (List UInt8)} {names : PeerId → List (List UInt8)}

structure Reportable (names : PeerId → List (List UInt8))
    (records : List (List UInt8)) : Prop where
  created : ∀ r ∈ records, ∃ m, createMembership r = some m
  known : ∀ m ∈ memberships records, Known (named names m.peerId)
  few : (memberships records).countP Membership.enroll ≤ 255

def Ready (records : List (List UInt8)) (l : MembershipList) : Prop :=
  (∃ k, Follows records k l) ∧ ∀ x ∈ l.members, Known x

theorem getMembers_ready (hsized : Sized records) (hnames : ∀ id, Sized (names id))
    (hreportable : Reportable names records) (l : MembershipList) (hl : Ready records l) :
    ∃ l', getMembers (fileOf records) (fun id => fileOf (names id)) l = some (true, l') ∧
      Ready records l' ∧ l'.toTables = tablesOf (memberships records) ∧
        l'.members.length = l'.peerIds.length := by
  obtain ⟨⟨k, hk⟩, hmembers⟩ := hl
  obtain ⟨returned, l', k', heq, hreads⟩ := getMembers_spec hsized hnames k l hk
  cases returned with
  | false =>
    refine absurd (hreads.returns.mpr fun r hr => ?_) Bool.false_ne_true
    obtain ⟨m, hm⟩ := hreportable.created r (List.mem_of_mem_drop hr)
    rw [hm]
    rfl
  | true =>
    refine ⟨l', heq, ⟨⟨k', hreads.follows⟩, ?_⟩, ?_, hreads.follows.sizes⟩
    · intro x hx
      rcases hreads.learns x hx with hold | ⟨m, hm, rfl⟩
      · exact hmembers x hold
      · exact hreportable.known m hm
    · rw [hreads.follows.tables, hreads.all rfl, List.take_length]

theorem memberAt_known (l : MembershipList) (hl : Ready records l)
    (ids : PeerId → List UInt8) (p : ℕ) (hp : p < l.members.length) (id : PeerId) :
    ∃ member, memberAt ids l p id = some (some member, l) ∧ Known (some member) := by
  have hget : l.members.getD p none = l.members[p] := by
    rw [List.getD_eq_getElem?_getD, List.getElem?_eq_getElem hp]
    rfl
  have hknown := hl.2 _ (List.getElem_mem hp)
  obtain ⟨name, employeeId, hsome, hfits⟩ := hknown
  refine ⟨⟨some employeeId, some name⟩, ?_, name, employeeId, rfl, hfits⟩
  rw [memberAt, hget, hsome]

theorem getTeamMember_known (l : MembershipList) (hl : Ready records l)
    (hsizes : l.members.length = l.peerIds.length)
    (htables : l.toTables = tablesOf (memberships records))
    (ids : PeerId → List UInt8) (id : PeerId) (p : ℕ) (hp : l.positions id = some p) :
    ∃ member, getTeamMember ids l id = some (some member, l) ∧ Known (some member) := by
  have hlt : p < l.members.length := by
    have hsound := sound_tablesOf (memberships records)
    rw [← htables] at hsound
    rw [hsizes]
    exact (List.getElem?_eq_some_iff.mp (hsound.position id p hp)).1
  rw [getTeamMember, hp]
  exact memberAt_known l hl ids p hlt id

/-- Where all members are known, queries change nothing. -/
theorem answer_known (l : MembershipList) (hl : Ready records l)
    (hsizes : l.members.length = l.peerIds.length)
    (htables : l.toTables = tablesOf (memberships records))
    (ids : PeerId → List UInt8) (c : Call) :
    ∃ returned, answer ids l c = some (returned, l) := by
  cases c with
  | getTeamMember id =>
    cases hp : l.positions id with
    | none =>
      rw [answer, getTeamMember, hp]
      exact ⟨true, rfl⟩
    | some p =>
      obtain ⟨member, heq, -⟩ := getTeamMember_known l hl hsizes htables ids id p hp
      rw [answer, heq]
      exact ⟨true, rfl⟩
  | getTeamMemberAt position =>
    rw [answer, getTeamMemberAt]
    by_cases hrange : position < 0 ∨ position ≥ ↑l.members.length
    · rw [if_pos hrange]
      exact ⟨true, rfl⟩
    · rw [if_neg hrange]
      obtain ⟨member, heq, -⟩ := memberAt_known l hl ids position.toNat (by omega)
        (l.peerIds.getD position.toNat EOC)
      rw [heq]
      exact ⟨true, rfl⟩
  | getMembers => exact ⟨_, rfl⟩
  | isActive id => exact ⟨_, rfl⟩
  | isActiveAt position => exact ⟨_, rfl⟩
  | getPosition id => exact ⟨_, rfl⟩
  | getPeerId position => exact ⟨_, rfl⟩

theorem memberships_drop (k : ℕ) (hk : k < records.length) (m : Membership)
    (hm : createMembership records[k] = some m) :
    memberships (records.drop k) = m :: memberships (records.drop (k + 1)) := by
  rw [memberships, List.drop_eq_getElem_cons hk, List.filterMap_cons_some hm]
  rfl

/-- A peer that is enrolled gets its message. -/
theorem turn_spec (epoc : ℤ) (hsized : Sized records) (hnames : ∀ id, Sized (names id))
    (hreportable : Reportable names records) (l : MembershipList) (hl : Ready records l)
    (m : Membership) (hm : m.enroll = true) (p : ℕ)
    (hp : (tablesOf (memberships records)).positions m.peerId = some p) :
    ∃ l' bytes, turn epoc (fileOf records) (fun id => fileOf (names id)) l m =
        some (.message bytes, l') ∧ Ready records l' ∧ bytes.head? = some (UInt8.ofNat p) := by
  obtain ⟨l₁, hread₁, hl₁, htables₁, -⟩ := getMembers_ready hsized hnames hreportable l hl
  obtain ⟨l₂, hread₂, hl₂, htables₂, hsizes₂⟩ := getMembers_ready hsized hnames hreportable l₁ hl₁
  have hp₂ : l₂.positions m.peerId = some p := by
    rw [htables₂]
    exact hp
  have hle : ¬ p > 255 := by
    have hlt := (List.getElem?_eq_some_iff.mp ((sound_tablesOf _).position _ p hp)).1
    have hlen := length_peerIds (memberships records)
    have hfew := hreportable.few
    omega
  obtain ⟨member, hmember, hknown⟩ :=
    getTeamMember_known l₂ hl₂ hsizes₂ htables₂ (fun id => fileOf (names id)) m.peerId p hp₂
  obtain ⟨bytes, hbytes, hhead⟩ := messageBytes_enroll epoc p m hm member hknown
  refine ⟨l₂, bytes, ?_, hl₂, hhead⟩
  rw [turn, hread₁]
  dsimp only
  rw [getPosition, htables₁, hp]
  dsimp only
  rw [if_neg hle, memberTurn, hread₂]
  dsimp only
  rw [hmember]
  dsimp only
  rw [hbytes]

/-- Where nobody is revoked, a position is the same at a record and at the end
of the file. -/
theorem positions_end (k : ℕ) (hk : k < records.length)
    (henroll : ∀ m ∈ memberships records, m.enroll = true) (m : Membership)
    (hm : createMembership records[k] = some m) :
    ∃ p, (tablesOf (memberships records)).positions m.peerId = some p ∧
      ((tablesOf (memberships (records.take k))).apply m).positions m.peerId = some p := by
  have hmem : m ∈ memberships records := List.mem_filterMap.mpr ⟨_, List.getElem_mem hk, hm⟩
  have hsome := apply_isSome (tablesOf (memberships (records.take k))) m
  rw [henroll m hmem] at hsome
  obtain ⟨p, hp⟩ := Option.isSome_iff_exists.mp hsome
  refine ⟨p, ?_, hp⟩
  have hsplit : memberships records =
      (memberships (records.take k) ++ [m]) ++ memberships (records.drop (k + 1)) := by
    rw [List.append_assoc, List.singleton_append, ← memberships_drop k hk m hm]
    simp only [memberships]
    rw [← List.filterMap_append, List.take_append_drop]
  rw [hsplit] at henroll
  rw [hsplit, tablesOf_append, tablesOf_snoc]
  exact foldl_keeps _ (fun m' hm' => henroll m' (List.mem_append_right _ hm')) _ _ _ hp

/-- Where nobody is revoked, the loop reports all that is left. -/
theorem enrolmentsLoop_spec (epoc : ℤ) (hsized : Sized records) (hnames : ∀ id, Sized (names id))
    (hreportable : Reportable names records)
    (henroll : ∀ m ∈ memberships records, m.enroll = true)
    (fuel k : ℕ) (hk : k ≤ records.length) (hfuel : records.length - k < fuel) (it : Iterator)
    (hit : it.offset + it.recordLength = startOf records k) (l : MembershipList)
    (hl : Ready records l) (out : List Message) :
    ∃ l' more, enrolmentsLoop epoc (fileOf records) (fun id => fileOf (names id)) fuel it l out =
        some (some (startOf records records.length : ℤ), l', out ++ more) ∧ Ready records l' ∧
      more.map heading = reports (tablesOf (memberships (records.take k)))
        (memberships (records.drop k)) := by
  induction fuel generalizing k it l out with
  | zero => exact absurd hfuel (Nat.not_lt_zero _)
  | succ fuel ih =>
    rw [enrolmentsLoop, next_spec hsized it k hk hit]
    by_cases hlt : k < records.length
    · rw [if_pos hlt]
      dsimp only
      rw [read_spec k hlt]
      dsimp only
      obtain ⟨m, hm⟩ := hreportable.created _ (List.getElem_mem hlt)
      have hmem : m ∈ memberships records := List.mem_filterMap.mpr ⟨_, List.getElem_mem hlt, hm⟩
      have htake := memberships_take_succ k hlt
      rw [hm, Option.toList_some] at htake
      obtain ⟨p, hend, hhere⟩ := positions_end k hlt henroll m hm
      obtain ⟨l₁, bytes, hturn, hl₁, hhead⟩ :=
        turn_spec epoc hsized hnames hreportable l hl m (henroll m hmem) p hend
      rw [hm]
      dsimp only
      rw [hturn]
      dsimp only
      obtain ⟨l₂, more, hloop, hl₂, hmore⟩ := ih (k + 1) hlt (by omega) (on records k)
        (follows_on k hlt) l₁ hl₁ (out ++ [⟨m.time, if m.enroll then ENROLL else LEAVE, bytes⟩])
      refine ⟨l₂, ⟨m.time, if m.enroll then ENROLL else LEAVE, bytes⟩ :: more, ?_, hl₂, ?_⟩
      · rw [hloop, List.append_assoc]
        rfl
      · rw [List.map_cons, hmore, memberships_drop k hlt m hm, reports, htake, tablesOf_snoc]
        congr 1
        rw [heading, report, hhead, if_pos (henroll m hmem), if_pos (henroll m hmem), hhere]
        rfl
    · have hlast : k = records.length := by omega
      subst hlast
      rw [if_neg hlt]
      refine ⟨l, [], ?_, hl, ?_⟩
      · rw [List.append_nil]
        rfl
      · rw [List.drop_length]
        rfl

end Reporting

structure Reported (s : Source) (k : ℕ) : Prop where
  le : k ≤ s.device.records.length
  sent : s.sent = startOf s.device.records k
  output : s.output.map heading = reports initial (memberships (s.device.records.take k))
  ready : Ready s.device.records s.device.list
  created : ∀ r ∈ s.device.records, ∃ m, createMembership r = some m
  few : (memberships s.device.records).countP Membership.enroll ≤ 255
  named : ∀ m ∈ memberships s.device.records, ∃ r ∈ s.device.names m.peerId, r ≠ []
  fits : ∀ id, ∀ r ∈ s.device.names id, Fits r

section Runs

variable {s : Source} {k : ℕ}

theorem Reported.reportable (h : Reported s k) : Reportable s.device.names s.device.records :=
  ⟨h.created, fun m hm => known_named (h.fits m.peerId) (h.named m hm), h.few⟩

theorem newSource_reported : Reported newSource 0 := by
  refine ⟨Nat.le_refl 0, rfl, rfl, ⟨⟨0, newDevice_follows⟩, ?_⟩, ?_, Nat.zero_le _, ?_, ?_⟩
  · intro x hx
    rw [List.mem_singleton.mp hx]
    exact ⟨_, _, rfl, by decide⟩
  · intro r hr
    cases hr
  · intro m hm
    cases hm
  · intro id r hr
    cases hr

theorem Reported.append (h : Reported s k) (record : List UInt8)
    (hr : record.length + 8 < 2147483648) (hproper : Proper s (.device (.append record hr))) :
    Reported { s with device := { s.device with
      records := s.device.records ++ [record], sized := sized_append s.device.sized hr } } k := by
  obtain ⟨m, hm, hnamed, -, hfew⟩ := hproper
  obtain ⟨⟨j, hj⟩, hmembers⟩ := h.ready
  refine ⟨?_, ?_, ?_, ⟨⟨j, hj.append record⟩, hmembers⟩, ?_, hfew, ?_, h.fits⟩
  · exact Nat.le_trans h.le (List.prefix_append _ _).length_le
  · exact h.sent.trans (congrArg Nat.cast (startOf_append _ _ k h.le).symm)
  · dsimp only
    rw [List.take_append_of_le_length h.le]
    exact h.output
  · intro r hr'
    rcases List.mem_append.mp hr' with hold | hnew
    · exact h.created r hold
    · rw [List.mem_singleton.mp hnew]
      exact ⟨m, hm⟩
  · intro m' hm'
    dsimp only at hm'
    rw [memberships, List.filterMap_append, List.mem_append] at hm'
    rcases hm' with hold | hnew
    · exact h.named m' hold
    · obtain ⟨r, hr', heq⟩ := List.mem_filterMap.mp hnew
      rw [List.mem_singleton.mp hr', hm] at heq
      rw [← Option.some.inj heq]
      exact hnamed

theorem Reported.appendName (h : Reported s k) (id : PeerId) (record : List UInt8)
    (hr : record.length + 8 < 2147483648) (hfits : Fits record) :
    ∃ d, Memberships.step s.device (.appendName id record hr) = some d ∧
      Reported { s with device := d } k := by
  have hmem : ∀ id' r, r ∈ s.device.names id' →
      r ∈ Function.update s.device.names id (s.device.names id ++ [record]) id' := by
    intro id' r hold
    by_cases heq : id' = id
    · subst heq
      rw [Function.update_self]
      exact List.mem_append_left _ hold
    · rw [Function.update_of_ne heq]
      exact hold
  refine ⟨_, rfl, h.le, h.sent, h.output, h.ready, h.created, h.few, ?_, ?_⟩
  · intro m hm
    obtain ⟨r, hold, hne⟩ := h.named m hm
    exact ⟨r, hmem m.peerId r hold, hne⟩
  · intro id' r hnew
    dsimp only at hnew
    by_cases heq : id' = id
    · subst heq
      rw [Function.update_self, List.mem_append] at hnew
      rcases hnew with hold | hlast
      · exact h.fits id' r hold
      · rw [List.mem_singleton.mp hlast]
        exact hfits
    · rw [Function.update_of_ne heq] at hnew
      exact h.fits id' r hnew

theorem Reported.call (h : Reported s k) (c : Call) :
    ∃ d, Memberships.step s.device (.call c) = some d ∧ Reported { s with device := d } k := by
  obtain ⟨l, hread, hl, htables, hsizes⟩ :=
    getMembers_ready s.device.sized s.device.names_sized h.reportable s.device.list h.ready
  obtain ⟨returned, hanswer⟩ := answer_known l hl hsizes htables s.device.ids c
  have hread' : getMembers (fileOf s.device.records) s.device.ids s.device.list =
    some (true, l) := hread
  refine ⟨{ s.device with list := l }, ?_, h.le, h.sent, h.output, hl, h.created,
    h.few, h.named, h.fits⟩
  rw [Memberships.step, Memberships.call, hread']
  dsimp only
  rw [hanswer]
  rfl

theorem Reported.nextMessage (epoc : ℤ) (h : Reported s k) (hharmless : Harmless s .nextMessage) :
    ∃ s', nextMessage epoc s = some (true, s') ∧ s'.device.records = s.device.records ∧
      Reported s' s.device.records.length := by
  have hreset : reset (fileOf s.device.records) s.sent = some (before s.device.records k) := by
    have hle := startOf_le s.device.records k
    rw [reset, h.sent, if_neg (by omega)]
    rfl
  have hlen := length_le_fileOf s.device.records
  obtain ⟨l, more, hloop, hl, hmore⟩ :=
    enrolmentsLoop_spec epoc s.device.sized s.device.names_sized
    h.reportable hharmless ((fileOf s.device.records).length + 1) k h.le (by omega)
    (before s.device.records k) (Int.add_zero _) s.device.list h.ready s.output
  have hloop' : enrolmentsLoop epoc (fileOf s.device.records) s.device.ids
      ((fileOf s.device.records).length + 1) (before s.device.records k) s.device.list s.output =
        some (some (startOf s.device.records s.device.records.length : ℤ), l,
          s.output ++ more) := hloop
  refine ⟨⟨{ s.device with list := l }, startOf s.device.records s.device.records.length,
    s.output ++ more⟩, ?_, rfl, Nat.le_refl _, rfl, ?_, hl, h.created, h.few, h.named, h.fits⟩
  · rw [MemberEnrolments.nextMessage, hreset]
    dsimp only
    rw [hloop']
    rfl
  · dsimp only
    rw [List.map_append, h.output, hmore, tablesOf, ← reports_append, List.take_length]
    simp only [memberships]
    rw [← List.filterMap_append, List.take_append_drop]

theorem step_reported (epoc : ℤ) (h : Reported s k) (e : Event) (hproper : Proper s e)
    (hharmless : Harmless s e) :
    ∃ s' k', step epoc s e = some (true, s') ∧ Reported s' k' ∧
      (e = .nextMessage → k' = s'.device.records.length) := by
  cases e with
  | device e =>
    cases e with
    | append record hr =>
      exact ⟨_, k, rfl, h.append record hr hproper, fun heq => by cases heq⟩
    | appendName id record hr =>
      obtain ⟨d, hstep, hd⟩ := h.appendName id record hr hharmless
      rw [step, hstep]
      exact ⟨_, k, rfl, hd, fun heq => by cases heq⟩
    | call c =>
      obtain ⟨d, hstep, hd⟩ := h.call c
      rw [step, hstep]
      exact ⟨_, k, rfl, hd, fun heq => by cases heq⟩
  | nextMessage =>
    obtain ⟨s', heq, hrecords, hs'⟩ := h.nextMessage epoc hharmless
    exact ⟨s', _, heq, hs', fun _ => by rw [hrecords]⟩

theorem run_reported (epoc : ℤ) (events : List Event) (h : Reported s k)
    (hmeets : Along epoc (fun s e => Proper s e ∧ Harmless s e) s events) :
    ∃ s' k', run epoc s events = some (true, s') ∧ Reported s' k' ∧
      (events.getLast? = some .nextMessage → k' = s'.device.records.length) := by
  induction events generalizing s k with
  | nil => exact ⟨s, k, rfl, h, fun heq => by cases heq⟩
  | cons e rest ih =>
    obtain ⟨⟨hproper, hharmless⟩, hrest⟩ := hmeets
    obtain ⟨s₁, k₁, hstep, hs₁, hlast₁⟩ := step_reported epoc h e hproper hharmless
    obtain ⟨s₂, k₂, hrun, hs₂, hlast₂⟩ := ih hs₁ (hrest _ hstep)
    cases rest with
    | nil =>
      refine ⟨s₁, k₁, ?_, hs₁, fun heq => hlast₁ (Option.some.inj heq)⟩
      rw [run, hstep]
      rfl
    | cons e' rest =>
      refine ⟨s₂, k₂, ?_, hs₂, fun heq => hlast₂ (by rwa [List.getLast?_cons_cons] at heq)⟩
      rw [run, hstep]
      dsimp only [Option.bind_some]
      rw [hrun]
      rfl

end Runs

/-- If nextMessage is called only while no membership is revoked, and all texts
fit, then no call throws, and the messages are those of the memberships up to
the mark; after a call, those of all memberships. -/
theorem changes_reported (epoc : ℤ) (events : List Event)
    (hmeets : Along epoc (fun s e => Proper s e ∧ Harmless s e) newSource events) :
    ∃ s k, run epoc newSource events = some (true, s) ∧ k ≤ s.device.records.length ∧
      s.sent = startOf s.device.records k ∧
      s.output.map heading = reports initial (memberships (s.device.records.take k)) ∧
      (events.getLast? = some .nextMessage → k = s.device.records.length) := by
  obtain ⟨s, k, hrun, hs, hlast⟩ := run_reported epoc events newSource_reported hmeets
  exact ⟨s, k, hrun, hs.le, hs.sent, hs.output, hlast⟩

def alice : PeerId := fun i => [1, 1, 1, 1, 1, 1, 1, 1].getD i 0

def enrolRun : List Event :=
  [.device (.appendName alice [0x37, 0, 0x41, 0] (by decide)),
    .device (.append (serialiseMembership ⟨0, alice, true⟩) (by decide)), .nextMessage]

theorem changes_reported_enrolled :
    ∃ s k, run 0 newSource enrolRun = some (true, s) ∧ k ≤ s.device.records.length ∧
      s.sent = startOf s.device.records k ∧
      s.output.map heading = reports initial (memberships (s.device.records.take k)) ∧
      (enrolRun.getLast? = some .nextMessage → k = s.device.records.length) := by
  refine changes_reported 0 enrolRun ⟨⟨trivial, by unfold Harmless Fits; decide⟩, fun r hr => ?_⟩
  obtain rfl := Option.some.inj hr
  refine ⟨⟨⟨⟨0, alice, true⟩, createMembership_serialise _ (by decide) (by decide), by decide,
    by decide, by decide⟩, trivial⟩, fun r hr => ?_⟩
  obtain rfl := Option.some.inj hr
  refine ⟨⟨trivial, ?_⟩, fun _ _ => trivial⟩
  unfold Harmless
  decide

def revokedRun : List Event :=
  enrolRun ++ [.device (.append (serialiseMembership ⟨1, alice, false⟩) (by decide)),
    .nextMessage]

theorem revoked_throws : Along 0 Proper newSource revokedRun ∧
    (run 0 newSource revokedRun).map Prod.fst = some false := by
  refine ⟨⟨trivial, fun r hr => ?_⟩, by decide +kernel⟩
  obtain rfl := Option.some.inj hr
  refine ⟨⟨⟨0, alice, true⟩, createMembership_serialise _ (by decide) (by decide), by decide,
    by decide, by decide⟩, fun r hr => ?_⟩
  obtain rfl := Option.some.inj hr
  refine ⟨trivial, fun r hr => ?_⟩
  have hdevice : r.2.device.records = [serialiseMembership ⟨0, alice, true⟩] ∧
      r.2.device.names = Function.update (fun _ => []) alice [[0x37, 0, 0x41, 0]] := by
    obtain rfl := Option.some.inj hr
    exact ⟨rfl, rfl⟩
  refine ⟨⟨⟨1, alice, false⟩, createMembership_serialise _ (by decide) (by decide), ?_, ?_, ?_⟩,
    fun r hr => ⟨trivial, fun _ _ => trivial⟩⟩
  · rw [hdevice.2]
    decide
  · rw [hdevice.1]
    decide
  · rw [hdevice.1]
    decide

end Succinct.MemberEnrolments
