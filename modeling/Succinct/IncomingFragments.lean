import Succinct.MessageQueue
import Succinct.TrackerTexts

/-!
Fragments from the network, as MessageQueue.java stores them. The sequence number
is any four bytes of the fragment, and it is an int: a number with the top bit set
is negative. The tracker goes on after an exception of the store, which comes
after the number was received.
-/
namespace Succinct.IncomingFragments

open ByteBuffers MessageQueue NativeStore RecordStore StoreProperties SeqTrackers TrackerTexts

structure Inbox where
  teamId : PeerId
  incomingTracker : SeqTracker
  incomingFragments : Marked

def receivedName : Text := ['r', 'e', 'c', 'e', 'i', 'v', 'e', 'd']

def openInbox (teamId : PeerId) (incomingFragments : Marked) : Option Inbox :=
  (ofString (getProperty incomingFragments receivedName)).map fun tracker =>
    ⟨teamId, tracker, incomingFragments⟩

/-- Factory.serialise of a Fragment. The buffer of a Serialiser has 1200 bytes,
and a put behind them throws. -/
def serialise (created : ℕ) (fragment : Fragment) : Option (List UInt8) :=
  let result := bigEndian 8 created ++ fragment.bytes
  if result.length > 1200 then none else some result

def append (m : Marked) (created : ℕ) (fragment : Fragment) (commits : Bool) : Bool × Marked :=
  match serialise created fragment with
  | none => (false, m)
  | some record =>
    let call := appendRecord m.store record commits
    (call.returned, { m with store := call.store })

def seqOf (fragment : Fragment) : ℤ := asInt fragment.seq.toNat

/-- What storeFragment returns, none for an exception, and the inbox after it. A
call that does not end is none itself. -/
def storeFragment (q : Inbox) (created : ℕ) (fragment : Fragment) (commits : Bool) :
    Option (Option Bool × Inbox) :=
  match fragment.team with
  | none => some (some false, q)
  | some team =>
    if q.teamId ≠ team then some (some false, q)
    else do
      let (new, tracker) ← received q.incomingTracker (seqOf fragment)
      if !new then some (some false, { q with incomingTracker := tracker })
      else
        let (returned, fragments) := append q.incomingFragments created fragment commits
        if !returned then some (none, ⟨q.teamId, tracker, fragments⟩)
        else do
          let text ← TrackerTexts.toString tracker
          some (some true, ⟨q.teamId, tracker, putProperty fragments receivedName (some text)⟩)

structure Arrival where
  bytes : List UInt8
  created : ℕ
  commits : Bool

def storeAll (q : Inbox) : List Arrival → Option Inbox
  | [] => some q
  | a :: rest => do
    let fragment ← newFragment a.bytes
    let (_, q) ← storeFragment q a.created fragment a.commits
    storeAll q rest

def teamOf (bytes : List UInt8) : Option PeerId :=
  if bytes.length < 13 then none else some fun i => (bytes.take 8).getD i.val 0

def numberOf (bytes : List UInt8) : ℤ := asInt (ofBigEndian ((bytes.drop 8).take 4))

theorem newFragment_spec (bytes : List UInt8) :
    ∃ f, newFragment bytes = some f ∧ f.bytes = bytes ∧
    f.team = teamOf bytes ∧ (13 ≤ bytes.length → seqOf f = numberOf bytes) := by
  have hremaining : (ByteBuffer.wrap bytes).remaining = bytes.length := rfl
  rw [newFragment, hremaining, teamOf]
  by_cases hshort : bytes.length < 13
  · rw [if_pos hshort, if_pos hshort]
    exact ⟨_, rfl, rfl, rfl, fun hlong => absurd hshort (by omega)⟩
  rw [if_neg hshort, if_neg hshort]
  obtain ⟨b₁, hteam, hbytes₁, hpos₁, hlimit₁, -⟩ := (ByteBuffer.wrap bytes).get_spec 8 (by omega)
  have hwrap : (ByteBuffer.wrap bytes).position = 0 := rfl
  have hlimit : (ByteBuffer.wrap bytes).limit = bytes.length := rfl
  have hsource : (ByteBuffer.wrap bytes).bytes = bytes := rfl
  obtain ⟨b₂, hseq, -, hpos₂, hlimit₂, -⟩ := b₁.get_spec 4 (by rw [ByteBuffer.remaining]; omega)
  obtain ⟨b₃, hfirst, -⟩ := b₂.get_spec 1 (by rw [ByteBuffer.remaining]; omega)
  rw [hwrap, hsource, List.drop_zero] at hteam
  rw [hpos₁, hwrap, hbytes₁, hsource, Nat.zero_add] at hseq
  simp only [readPeerId, ByteBuffer.getInt, hteam, hseq, hfirst,
    Option.bind_eq_bind, Option.bind_some, Option.map_some]
  refine ⟨_, rfl, rfl, rfl, fun _ => ?_⟩
  have hlt := ofBigEndian_lt ((bytes.drop 8).take 4)
  have hlen : ((bytes.drop 8).take 4).length = 4 := by
    rw [List.length_take, List.length_drop]
    omega
  rw [hlen] at hlt
  rw [seqOf, numberOf]
  dsimp only
  rw [UInt32.toNat_ofNat_of_lt' hlt]

theorem isInt_seqOf (f : Fragment) : IsInt (seqOf f) := by
  have hlt := f.seq.toNat_lt
  rw [seqOf, asInt, IsInt]
  split <;> omega

section Storing

variable {q : Inbox} {rs : List Interval}

theorem storeFragment_other {f : Fragment} (h : f.team ≠ some q.teamId)
    (created : ℕ) (commits : Bool) :
    storeFragment q created f commits = some (some false, q) := by
  unfold storeFragment
  cases hteam : f.team with
  | none =>
    rfl
  | some team =>
    dsimp only
    rw [if_pos]
    rintro rfl
    exact h hteam

/-- A fragment of the team goes to the tracker, whatever becomes of its record. -/
theorem storeFragment_team (htracks : Tracks q.incomingTracker rs) {f : Fragment}
    (h : f.team = some q.teamId) (created : ℕ) (commits : Bool) :
    ∃ result q', storeFragment q created f commits = some (result, q') ∧ q'.teamId = q.teamId ∧
      Tracks q'.incomingTracker (receive (seqOf f) rs).2 ∧
      (result = none ↔ (receive (seqOf f) rs).1 = true ∧
        (append q.incomingFragments created f commits).1 = false) := by
  obtain ⟨tracker, hreceived, htracks'⟩ := received_tracks htracks (seqOf f)
  simp only [storeFragment, h, ne_eq, not_true_eq_false, if_false, hreceived, Option.bind_eq_bind,
    Option.bind_some, toString_eq htracks']
  cases hnew : (receive (seqOf f) rs).1 with
  | false => exact ⟨some false, _, rfl, rfl, htracks', by simp⟩
  | true =>
    cases happend : (append q.incomingFragments created f commits).1 with
    | false => exact ⟨none, _, rfl, rfl, htracks', by simp⟩
    | true => exact ⟨some true, _, rfl, rfl, htracks', by simp⟩

/-- The ranges after some fragments: those of the team are received. -/
theorem storeAll_tracks {P : ℤ → Prop} (arrivals : List Arrival)
    (htracks : Tracks q.incomingTracker rs) (hrs : ∀ r ∈ rs, Ends P r)
    (hseq : ∀ a ∈ arrivals, ∀ f, newFragment a.bytes = some f →
      f.team = some q.teamId → P (seqOf f)) :
    ∃ q' rs', storeAll q arrivals = some q' ∧ Tracks q'.incomingTracker rs' ∧
    ∀ r ∈ rs', Ends P r := by
  induction arrivals generalizing q rs with
  | nil => exact ⟨q, rs, rfl, htracks, hrs⟩
  | cons a rest ih =>
    obtain ⟨hfirst, hrest⟩ := List.forall_mem_cons.mp hseq
    obtain ⟨f, hf, -⟩ := newFragment_spec a.bytes
    rw [storeAll, hf]
    simp only [Option.bind_eq_bind, Option.bind_some]
    by_cases hteam : f.team = some q.teamId
    · obtain ⟨result, q₁, hstore, hid, htracks₁, -⟩ :=
        storeFragment_team htracks hteam a.created a.commits
      rw [hstore]
      exact ih htracks₁ (receive_ends (hfirst f hf hteam) hrs) (hid ▸ hrest)
    · rw [storeFragment_other hteam]
      exact ih htracks hrs hrest

end Storing

/-- After all fragments that came since the start, the text of the tracker is read
back as the same numbers exactly when no range begins or ends at a negative
number. That is so as long as no fragment of the team has a negative number. -/
theorem tracker_reads_back_iff (teamId : PeerId) (m : Marked) (q : Inbox)
    (hopen : openInbox teamId m = some q)
    (arrivals : List Arrival) : ∃ q' rs, storeAll q arrivals = some q' ∧
    Tracks q'.incomingTracker rs ∧
      (ReadsBack q'.incomingTracker ↔ ∀ r ∈ rs, 0 ≤ r.first ∧ 0 ≤ r.last) ∧
      ((∀ a ∈ arrivals, ∀ f, newFragment a.bytes = some f → f.team = some teamId → 0 ≤ seqOf f) →
        ReadsBack q'.incomingTracker) := by
  obtain ⟨tracker, hread, rfl⟩ := Option.map_eq_some_iff.mp hopen
  obtain ⟨rs, htracks, hrs⟩ := ofString_tracks hread
  have hints : ∀ r ∈ rs, Ends IsInt r := fun r hr => ⟨(hrs r hr).1.1, (hrs r hr).2.1⟩
  obtain ⟨q', rs', hall, htracks', hints'⟩ :=
    storeAll_tracks (q := ⟨teamId, tracker, m⟩) arrivals htracks hints
    fun _ _ f _ _ => isInt_seqOf f
  have hiff := readsBack_iff htracks' hints'
  refine ⟨q', rs', hall, htracks', hiff, fun hseq => ?_⟩
  obtain ⟨q₂, rs₂, hall₂, htracks₂, hrs₂⟩ :=
    storeAll_tracks (P := IsSeq) (q := ⟨teamId, tracker, m⟩) arrivals
    htracks hrs fun a ha f hf hteam => ⟨isInt_seqOf f, hseq a ha f hf hteam⟩
  rw [hall, Option.some.injEq] at hall₂
  subst hall₂
  rw [readsBack_iff htracks₂ fun r hr => ⟨(hrs₂ r hr).1.1, (hrs₂ r hr).2.1⟩]
  exact fun r hr => ⟨(hrs₂ r hr).1.2, (hrs₂ r hr).2.2⟩

def emptyFragment (seq : ℕ) : List UInt8 := List.replicate 8 0 ++ bigEndian 4 seq ++ [0]

theorem emptyFragment_spec (seq : ℕ) : ∃ f, newFragment (emptyFragment seq) = some f ∧
    f.team = some (fun _ => 0) ∧ seqOf f = asInt (seq % 4294967296) := by
  have hlen : (emptyFragment seq).length = 13 := by simp [emptyFragment]
  obtain ⟨f, hf, -, hteam, hseq⟩ := newFragment_spec (emptyFragment seq)
  refine ⟨f, hf, ?_, ?_⟩
  · rw [hteam, teamOf, if_neg (by omega), emptyFragment, List.append_assoc,
      List.take_left' (by simp)]
    congr 1
    funext i
    fin_cases i <;> rfl
  · rw [hseq (by omega), numberOf, emptyFragment, List.append_assoc, List.drop_left' (by simp),
      List.take_left' (by simp), ofBigEndian_bigEndian]
    rfl

/-- An empty store has no tracker yet. -/
theorem openInbox_new {m : Marked} (h : openMarked (openDb emptyDatabase) [] [0x66] none = some m)
    (teamId : PeerId) : openInbox teamId m = some ⟨teamId, newTracker, m⟩ := by
  obtain ⟨store, -, rfl⟩ := Option.map_eq_some_iff.mp h
  rfl

/-- The least and the greatest number there is. -/
theorem tracker_reads_back_greatest :
    ∃ m q q', openMarked (openDb emptyDatabase) [] [0x66] none = some m ∧
    openInbox (fun _ => 0) m = some q ∧
    storeAll q [⟨emptyFragment 0, 0, true⟩, ⟨emptyFragment 0x7FFFFFFF, 0, true⟩] = some q' ∧
    ReadsBack q'.incomingTracker := by
  obtain ⟨m, hopen⟩ : ∃ m, openMarked (openDb emptyDatabase) [] [0x66] none = some m := ⟨_, rfl⟩
  have hinbox := openInbox_new hopen fun _ => 0
  obtain ⟨q', -, hall, -, -, hreads⟩ := tracker_reads_back_iff (fun _ => 0) m _ hinbox
    [⟨emptyFragment 0, 0, true⟩, ⟨emptyFragment 0x7FFFFFFF, 0, true⟩]
  have hnumber : ∀ seq < 2147483648, ∀ f, newFragment (emptyFragment seq) =
    some f → 0 ≤ seqOf f := by
    intro seq hseq f hf
    obtain ⟨f', hf', -, hnumber⟩ := emptyFragment_spec seq
    rw [hf, Option.some.injEq] at hf'
    rw [hf', hnumber, Nat.mod_eq_of_lt (by omega), asInt_of_lt hseq]
    exact Int.natCast_nonneg seq
  refine ⟨m, _, q', hopen, hinbox, hall, hreads ?_⟩
  rw [List.forall_mem_cons, List.forall_mem_singleton]
  exact ⟨fun f hf _ => hnumber 0 (by decide) f hf, fun f hf _ =>
    hnumber 0x7FFFFFFF (by decide) f hf⟩

/-- The number -5: the text is {-5}, and there is no number before its sign. -/
theorem negative_number_throws :
    ∃ m q q', openMarked (openDb emptyDatabase) [] [0x66] none = some m ∧
    openInbox (fun _ => 0) m = some q ∧
    storeAll q [⟨emptyFragment 0xFFFFFFFB, 0, true⟩] = some q' ∧
    TrackerTexts.toString q'.incomingTracker = some ['{', '-', '5', '}'] ∧
    ofString (some ['{', '-', '5', '}']) = none ∧ ¬ ReadsBack q'.incomingTracker := by
  obtain ⟨m, hopen⟩ : ∃ m, openMarked (openDb emptyDatabase) [] [0x66] none = some m := ⟨_, rfl⟩
  obtain ⟨f, hf, hteam, hseq⟩ := emptyFragment_spec 0xFFFFFFFB
  have hseq' : seqOf f = -5 := hseq
  obtain ⟨result, q', hstore, -, htracks, -⟩ :=
    storeFragment_team (q := ⟨fun _ => 0, newTracker, m⟩)
    newTracker_tracks hteam 0 true
  rw [hseq'] at htracks
  have hreceived : (receive (-5) []).2 = [⟨-5, -5⟩] := rfl
  rw [hreceived] at htracks
  refine ⟨m, _, q', hopen, openInbox_new hopen _, ?_,
    (toString_eq htracks).trans ?_, by decide, ?_⟩
  · rw [storeAll, hf]
    simp only [Option.bind_eq_bind, Option.bind_some, hstore]
    rfl
  · decide
  · rw [readsBack_iff htracks (List.forall_mem_singleton.mpr ⟨by decide, by decide⟩),
      List.forall_mem_singleton]
    rintro ⟨hfirst, -⟩
    exact absurd hfirst (by decide)

end Succinct.IncomingFragments
