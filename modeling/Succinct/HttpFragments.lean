import Succinct.IncomingFragments

/-!
The loop of receiveHttpFragments in HttpTransport.java, which asks the server for
the fragment with the number nextMissing until something leaves the loop. What
storeFragment makes of a body is not looked at, so the next turn may well ask for
the same fragment. Left out: the addresses, the alarms, and the pieces of the
fragments, which are looked at once the loop is left.
-/
namespace Succinct.HttpFragments

open MessageQueue NativeStore RecordStore StoreProperties SeqTrackers TrackerTexts
  IncomingFragments

/-- A response. The bytes of its stream come in parts; behind the last one the
stream ends, or fails. -/
structure Response where
  status : ℤ
  contentLength : ℤ
  parts : List (List UInt8)

def readLoop (len : ℕ) (ret : List UInt8) : List (List UInt8) → Option (List UInt8)
  | [] => if ret.length < len then none else some ret
  | part :: parts =>
    if ret.length < len then readLoop len (ret ++ part.take (len - ret.length)) parts
      else some ret

def readBytes (response : Response) : Option (Option (List UInt8)) :=
  if response.contentLength ≤ 0 then some none
  else (readLoop response.contentLength.toNat [] response.parts).map some

/-- What a turn of the loop meets: a response, or none for a connection that
throws; the time; and whether the store commits. -/
structure Turn where
  response : Option Response
  created : ℕ
  commits : Bool

/-- One turn, and whether the loop goes on after it. A Fragment of null throws. A
turn that does not end is none. -/
def receiveHttpFragment (q : Inbox) (turn : Turn) : Option (Bool × Inbox) :=
  match turn.response with
  | none => some (false, q)
  | some response =>
    if response.status = 404 then some (false, q)
    else if response.status ≠ 200 then some (false, q)
    else match readBytes response with
      | none => some (false, q)
      | some none => some (false, q)
      | some (some message) => do
        let fragment ← newFragment message
        let (result, q) ← storeFragment q turn.created fragment turn.commits
        some (result.isSome, q)

/-- Each turn leaves the loop or makes nextMissing greater. -/
def Progresses : Inbox → List Turn → Prop
  | _, [] => True
  | q, turn :: turns =>
    ∃ goesOn q', receiveHttpFragment q turn = some (goesOn, q') ∧ (goesOn = true →
      nextMissing q.incomingTracker < nextMissing q'.incomingTracker ∧ Progresses q' turns)

def message (turn : Turn) : Option (List UInt8) :=
  (turn.response.filter fun response => decide (response.status = 200)).bind fun response =>
    (readBytes response).join

/-- Whether received finds a number, in a range before it would put it somewhere. -/
def Known (seq : ℤ) : List Interval → Prop
  | [] => False
  | n :: rest => (n.first ≤ seq ∧ seq ≤ n.last) ∨
      (seq ≠ toInt (n.first - 1) ∧ ¬ seq < n.first ∧ seq ≠ toInt (n.last + 1) ∧ Known seq rest)

def rangesBehind : List Interval → List Interval
  | [] => []
  | r :: rest => if r.first = 0 then rest else r :: rest

def lastBehind (seq : ℤ) : List Interval → ℤ
  | [] => seq
  | r :: _ => if r.first = toInt (seq + 1) then r.last else seq

/-- A number after which a greater one is missing. It is the one that is missing:
then the first range must not be negative, nor the range that it completes end
with the greatest int. While the missing number is negative, it is any negative one. -/
def Advances (rs : List Interval) (seq : ℤ) : Prop :=
  (seq = missing rs ∧ 0 ≤ seq ∧ (∀ r ∈ rs.head?, 0 ≤ r.first) ∧
    seq ≤ lastBehind seq (rangesBehind rs) ∧ lastBehind seq (rangesBehind rs) < 2147483647) ∨
  (missing rs < 0 ∧ seq < 0)

/-- A turn that gets no body; or the fragment is one of the team, and its number
is one after which a greater one is missing, or it is new and cannot be stored. -/
def Meets (q : Inbox) (turn : Turn) : Prop :=
  message turn = none ∨ ∃ bytes f, message turn = some bytes ∧ newFragment bytes = some f ∧
    f.team = some q.teamId ∧ (Advances (rangesOf q.incomingTracker) (seqOf f) ∨
      (¬ Known (seqOf f) (rangesOf q.incomingTracker) ∧
        (append q.incomingFragments turn.created f turn.commits).1 = false))

def AllMeet : Inbox → List Turn → Prop
  | _, [] => True
  | q, turn :: turns =>
    Meets q turn ∧ ∀ q', receiveHttpFragment q turn = some (true, q') → AllMeet q' turns

theorem receive_returned (seq : ℤ) (rs left : List Interval) :
    (receiveFrom seq left rs).1 = true ↔ ¬ Known seq rs := by
  induction rs generalizing left with
  | nil => exact iff_of_true rfl not_false
  | cons n rest ih =>
    rw [receiveFrom, Known]
    split_ifs with hin hbefore hless hafter
    · exact iff_of_false not_false (not_not.mpr (Or.inl hin))
    · exact iff_of_true rfl (not_or.mpr ⟨hin, fun hlater => hlater.1 hbefore⟩)
    · exact iff_of_true rfl (not_or.mpr ⟨hin, fun hlater => hlater.2.1 hless⟩)
    · exact iff_of_true rfl (not_or.mpr ⟨hin, fun hlater => hlater.2.2.1 hafter⟩)
    · rw [ih, or_iff_right hin, and_iff_right hbefore, and_iff_right hless, and_iff_right hafter]

theorem toInt_succ {n : ℤ} (h : IsInt n) :
    n < 2147483647 ∧ toInt (n + 1) = n + 1 ∨ n = 2147483647 ∧ toInt (n + 1) = -2147483648 := by
  obtain ⟨hmin, hmax⟩ := h
  rcases lt_or_eq_of_le (Int.le_of_lt_add_one hmax : n ≤ 2147483647) with hlt | rfl
  · exact Or.inl ⟨hlt, toInt_small _ (by omega) (by omega)⟩
  · exact Or.inr ⟨rfl, by decide⟩

theorem toInt_pred {n : ℤ} (h : IsInt n) :
    -2147483648 < n ∧ toInt (n - 1) = n - 1 ∨ n = -2147483648 ∧ toInt (n - 1) = 2147483647 := by
  obtain ⟨hmin, hmax⟩ := h
  rcases lt_or_eq_of_le hmin with hlt | rfl
  · exact Or.inl ⟨hlt, toInt_small _ (by omega) (by omega)⟩
  · exact Or.inr ⟨rfl, by decide⟩

/-- The first range stays, unless it is the one that is merged. -/
theorem mergeRanges_head {n : Interval} {left right : List Interval}
    (h : left = [] → ∀ c ∈ right.head?, toInt (n.last + 1) ≠ c.first) :
    ∃ more, mergeRanges (n :: left) right = n :: more := by
  cases right with
  | nil => exact ⟨left, mergeRanges_nil_right _⟩
  | cons c rest =>
    rcases List.eq_nil_or_concat left with rfl | ⟨left', p, rfl⟩
    · refine ⟨c :: rest, ?_⟩
      have happly := mergeRanges_concat [] n c rest
      rw [if_neg (h rfl c rfl)] at happly
      exact happly
    · rw [List.concat_eq_append, ← List.cons_append, mergeRanges_concat]
      split
      · exact ⟨_, rfl⟩
      · exact ⟨_, rfl⟩

theorem receiveFrom_head {seq : ℤ} {n : Interval} (rest : List Interval) {left : List Interval}
    (h : left = [] → seq ≠ toInt (n.last + 1)) :
    ∃ more, (receiveFrom seq (n :: left) rest).2 = n :: more := by
  induction rest generalizing left with
  | nil => exact ⟨_, rfl⟩
  | cons c rest ih =>
    rw [receiveFrom]
    split_ifs with hin hbefore hless hafter
    · exact ⟨_, rfl⟩
    · dsimp only
      refine mergeRanges_head fun hnil c' hc' => ?_
      obtain rfl := Option.some.inj hc'
      exact fun htouch => h hnil (hbefore.trans htouch.symm)
    · exact ⟨_, rfl⟩
    · exact mergeRanges_head fun hnil => absurd hnil (by simp)
    · exact ih fun hnil => absurd hnil (by simp)

theorem isInt_lastBehind {seq : ℤ} (hseq : IsInt seq) {rs : List Interval}
    (h : ∀ r ∈ rs, Ends IsInt r) :
    IsInt (lastBehind seq rs) := by
  cases rs with
  | nil => exact hseq
  | cons r rs =>
    rw [lastBehind]
    split
    · exact (h r List.mem_cons_self).2
    · exact hseq

theorem missing_mergeRanges (n : Interval) (right : List Interval) :
    missing (mergeRanges [n] right) = if n.first ≠ 0 then 0
      else toInt (lastBehind n.last right + 1) := by
  cases right with
  | nil => rfl
  | cons c rest =>
    have hmerge := mergeRanges_concat [] n c rest
    rw [List.nil_append] at hmerge
    rw [hmerge, lastBehind]
    by_cases htouch : toInt (n.last + 1) = c.first
    · rw [if_pos htouch, if_pos htouch.symm]
      rfl
    · rw [if_neg htouch, if_neg (Ne.symm htouch)]
      rfl

section Advancing

variable {n : Interval}

/-- While 0 is missing, only 0 changes that, and not behind a negative range. -/
theorem missing_receive_gap (hn : Ends IsInt n) (hgap : n.first ≠ 0) (seq : ℤ)
    (rest : List Interval) :
    missing (receive seq (n :: rest)).2 =
      if seq = 0 ∧ 0 < n.first then toInt (lastBehind 0 (n :: rest) + 1) else 0 := by
  have hpred := toInt_pred hn.1
  have hone : toInt (0 + 1) = 1 := by decide
  rw [receive, receiveFrom, lastBehind, hone]
  by_cases hin : n.first ≤ seq ∧ seq ≤ n.last
  · rw [if_pos hin, if_neg (by omega)]
    exact if_pos hgap
  rw [if_neg hin]
  by_cases hbefore : seq = toInt (n.first - 1)
  · rw [if_pos hbefore, mergeRanges_nil_left, missing, ← hbefore]
    dsimp only
    by_cases hzero : seq = 0
    · have hfirst : n.first = 1 := by omega
      rw [if_neg (not_not.mpr hzero), if_pos ⟨hzero, by omega⟩, if_pos hfirst]
    · rw [if_pos hzero, if_neg fun h => hzero h.1]
  rw [if_neg hbefore]
  by_cases hless : seq < n.first
  · rw [if_pos hless, List.nil_append, missing]
    dsimp only
    by_cases hzero : seq = 0
    · have hfirst : n.first ≠ 1 := by omega
      rw [if_neg (not_not.mpr hzero), if_pos ⟨hzero, by omega⟩, if_neg hfirst, hzero]
    · rw [if_pos hzero, if_neg fun h => hzero h.1]
  have hlater : ¬ (seq = 0 ∧ 0 < n.first) := by omega
  rw [if_neg hless, if_neg hlater]
  by_cases hafter : seq = toInt (n.last + 1)
  · rw [if_pos hafter, List.nil_append, missing_mergeRanges]
    exact if_pos hgap
  · have hkept : ([] : List Interval) = [] → seq ≠ toInt (n.last + 1) := fun _ => hafter
    obtain ⟨more, hmore⟩ := receiveFrom_head rest hkept
    rw [if_neg hafter, List.nil_append, hmore, missing, if_pos hgap]

/-- With a range from 0 on, its next number takes it further; a negative number
comes before it. -/
theorem missing_receive_first (hn : Ends IsInt n) (hfirst : n.first = 0) (seq : ℤ)
    (rest : List Interval) :
    missing (receive seq (n :: rest)).2 =
      if seq < 0 then 0 else if seq = toInt (n.last + 1) then toInt (lastBehind seq rest + 1)
      else toInt (n.last + 1) := by
  have hsucc := toInt_succ hn.2
  have hminus : toInt (0 - 1) = -1 := by decide
  rw [receive, receiveFrom, hfirst, hminus]
  by_cases hin : 0 ≤ seq ∧ seq ≤ n.last
  · rw [if_pos hin, if_neg (by omega), if_neg (by omega)]
    exact if_neg (not_not.mpr hfirst)
  rw [if_neg hin]
  by_cases hbefore : seq = -1
  · rw [if_pos hbefore, if_pos (by omega), mergeRanges_nil_left]
    rfl
  rw [if_neg hbefore]
  by_cases hless : seq < 0
  · rw [if_pos hless, if_pos hless, List.nil_append]
    exact if_pos (by dsimp only; omega)
  rw [if_neg hless, if_neg hless]
  by_cases hafter : seq = toInt (n.last + 1)
  · rw [if_pos hafter, if_pos hafter, List.nil_append, missing_mergeRanges, ← hafter]
    exact if_neg (not_not.mpr rfl)
  · have hkept : ([] : List Interval) = [] → seq ≠ toInt (n.last + 1) := fun _ => hafter
    obtain ⟨more, hmore⟩ := receiveFrom_head rest hkept
    rw [if_neg hafter, if_neg hafter, List.nil_append, hmore, missing,
      if_neg (not_not.mpr hfirst)]

theorem missing_lt_receive_iff {rs : List Interval} (h : ∀ r ∈ rs, Ends IsInt r) {seq : ℤ}
    (hseq : IsInt seq) :
    missing rs < missing (receive seq rs).2 ↔ Advances rs seq := by
  cases rs with
  | nil =>
    have hsucc := toInt_succ hseq
    have hresult : missing (receive seq []).2 = if seq ≠ 0 then 0 else toInt (seq + 1) := rfl
    have hmissing : missing [] = 0 := rfl
    have hlast : lastBehind seq (rangesBehind []) = seq := rfl
    rw [hresult, Advances, hmissing, hlast]
    simp only [List.head?_nil, Option.mem_def, reduceCtorEq, false_implies,
      implies_true, true_and]
    split_ifs <;> omega
  | cons n rest =>
    obtain ⟨hn, hrest⟩ := List.forall_mem_cons.mp h
    have hhead : (∀ r ∈ (n :: rest).head?, 0 ≤ r.first) ↔ 0 ≤ n.first := by simp
    by_cases hfirst : n.first = 0
    · have hsucc := toInt_succ (isInt_lastBehind hseq hrest)
      have hmissing : missing (n :: rest) = toInt (n.last + 1) := if_neg (not_not.mpr hfirst)
      rw [missing_receive_first hn hfirst, Advances, hhead, hmissing, rangesBehind, if_pos hfirst]
      split_ifs <;> omega
    · have hzero : IsInt 0 := by decide
      have hsucc := toInt_succ (isInt_lastBehind hzero h)
      have hmissing : missing (n :: rest) = 0 := if_pos hfirst
      rw [missing_receive_gap hn hfirst, Advances, hhead, hmissing, rangesBehind, if_neg hfirst]
      by_cases hseq' : seq = 0
      · subst hseq'
        split_ifs <;> omega
      · split_ifs <;> omega

end Advancing

section Turns

variable {q : Inbox} {turn : Turn}

theorem receiveHttpFragment_none (h : message turn = none) :
    receiveHttpFragment q turn = some (false, q) := by
  unfold receiveHttpFragment
  cases hresponse : turn.response with
  | none =>
    rfl
  | some response =>
    dsimp only
    split_ifs with hmissing hother
    · rfl
    · rfl
    · have hok : response.status = 200 := not_not.mp hother
      have hread : (readBytes response).join = none := by
        simpa [message, hresponse, hok] using h
      split
      case h_1 =>
        rfl
      case h_2 =>
        rfl
      case h_3 bytes hbytes =>
        rw [hbytes] at hread
        cases hread

theorem receiveHttpFragment_some {bytes : List UInt8}
    (h : message turn = some bytes) {f : Fragment} (hf : newFragment bytes = some f) :
    receiveHttpFragment q turn =
      (storeFragment q turn.created f turn.commits).map fun stored =>
        (stored.1.isSome, stored.2) := by
  obtain ⟨response, hfilter, hread⟩ := Option.bind_eq_some_iff.mp h
  obtain ⟨hresponse, hstatus⟩ := Option.filter_eq_some_iff.mp hfilter
  have hok : response.status = 200 := of_decide_eq_true hstatus
  have hbytes : readBytes response = some (some bytes) := Option.join_eq_some_iff.mp hread
  have hfound : response.status ≠ 404 := by omega
  simp only [receiveHttpFragment, hresponse, if_neg hfound, if_neg (not_not.mpr hok), hbytes, hf,
    Option.bind_eq_bind, Option.bind_some, Option.map_eq_bind]
  rfl

/-- A turn always ends. It leaves the loop or asks for a greater number next exactly when it meets
the condition. -/
theorem turn_progress {rs : List Interval} (htracks : Tracks q.incomingTracker rs)
    (hints : ∀ r ∈ rs, Ends IsInt r) (turn : Turn) :
    ∃ goesOn q' rs', receiveHttpFragment q turn = some (goesOn, q') ∧
    Tracks q'.incomingTracker rs' ∧
      (∀ r ∈ rs', Ends IsInt r) ∧
      ((goesOn = true → nextMissing q.incomingTracker < nextMissing q'.incomingTracker) ↔
        Meets q turn) := by
  cases hmessage : message turn with
  | none =>
    refine ⟨false, q, rs, receiveHttpFragment_none hmessage, htracks, hints, ?_⟩
    exact iff_of_true (fun h => absurd h Bool.false_ne_true) (Or.inl hmessage)
  | some bytes =>
    obtain ⟨f, hf, -⟩ := newFragment_spec bytes
    have hmeets : Meets q turn ↔
      f.team = some q.teamId ∧ (Advances rs (seqOf f) ∨ (¬ Known (seqOf f) rs ∧
        (append q.incomingFragments turn.created f turn.commits).1 = false)) := by
      rw [Meets, hmessage, rangesOf_eq htracks]
      simp [hf]
    rw [receiveHttpFragment_some hmessage hf]
    by_cases hteam : f.team = some q.teamId
    · obtain ⟨result, q', hstore, -, htracks', hnone⟩ :=
        storeFragment_team htracks hteam turn.created turn.commits
      refine ⟨result.isSome, q',
        _, by rw [hstore]; rfl, htracks', receive_ends (isInt_seqOf f) hints, ?_⟩
      rw [hmeets, and_iff_right hteam, nextMissing_eq htracks, nextMissing_eq htracks',
        missing_lt_receive_iff hints (isInt_seqOf f), ← receive_returned (seqOf f) rs
          [], ← receive, ← hnone]
      cases result <;> simp
    · refine ⟨true, q, rs, by rw [storeFragment_other hteam]; rfl, htracks, hints, ?_⟩
      refine iff_of_false (fun h => lt_irrefl _ (h rfl)) ?_
      rw [hmeets]
      exact fun h => hteam h.1

end Turns

/-- Every turn of the loop leaves it or makes the number that is asked for
greater, exactly when every turn meets the condition in the state that it finds.
A body that is no fragment of the team, or has another number than the one asked
for, does not: it is asked for again. -/
theorem http_progress_iff (q : Inbox) (rs : List Interval) (htracks : Tracks q.incomingTracker rs)
    (hints : ∀ r ∈ rs, Ends IsInt r) (turns : List Turn) : Progresses q turns ↔
    AllMeet q turns := by
  induction turns generalizing q rs with
  | nil => exact Iff.rfl
  | cons turn turns ih =>
    obtain ⟨goesOn, q', rs', hturn, htracks', hints', hstep⟩ := turn_progress htracks hints turn
    have hrest := ih q' rs' htracks' hints'
    rw [Progresses, AllMeet, hturn, ← hstep]
    simp only [Option.some.injEq, Prod.mk.injEq]
    constructor
    · rintro ⟨goesOn', q₁, ⟨rfl, rfl⟩, hprogress⟩
      refine ⟨fun hgoes => (hprogress hgoes).1, ?_⟩
      rintro q₂ ⟨hgoes, rfl⟩
      exact hrest.mp (hprogress hgoes).2
    · rintro ⟨hgreater, hall⟩
      refine ⟨goesOn, q', ⟨rfl, rfl⟩, fun hgoes => ⟨hgreater hgoes, ?_⟩⟩
      exact hrest.mpr (hall q' ⟨hgoes, rfl⟩)

def answering (bytes : List UInt8) : Turn := ⟨some ⟨200, bytes.length, [bytes]⟩, 0, true⟩

theorem message_answering (bytes : List UInt8) (h : bytes ≠ []) :
    message (answering bytes) = some bytes := by
  have hpos := List.length_pos_of_ne_nil h
  have hlen : ¬ ((bytes.length : ℤ) ≤ 0) := by omega
  have hread : readLoop bytes.length [] [bytes] = some bytes := by
    simp [readLoop, hpos]
  have hresponse : readBytes ⟨200, bytes.length, [bytes]⟩ = some (some bytes) := by
    rw [readBytes, if_neg hlen, Int.toNat_natCast, hread]
    rfl
  exact congrArg Option.join hresponse

/-- A server that has the fragment 0, for a queue that has none. -/
theorem http_progress_zero : ∃ m q, openMarked (openDb emptyDatabase) [] [0x66] none = some m ∧
    openInbox (fun _ => 0) m = some q ∧ Progresses q [answering (emptyFragment 0)] := by
  obtain ⟨m, hopen⟩ : ∃ m, openMarked (openDb emptyDatabase) [] [0x66] none = some m := ⟨_, rfl⟩
  refine ⟨m, _, hopen, openInbox_new hopen _, ?_⟩
  rw [http_progress_iff _ [] newTracker_tracks (List.forall_mem_nil _)]
  obtain ⟨f, hf, hteam, hseq⟩ := emptyFragment_spec 0
  have hnew : rangesOf newTracker = [] := rangesOf_eq newTracker_tracks
  have hmessage := message_answering (emptyFragment 0) (by decide)
  refine ⟨Or.inr ⟨_, f, hmessage, hf, hteam, Or.inl ?_⟩, fun _ _ => trivial⟩
  rw [hseq, hnew]
  exact Or.inl ⟨by decide, by decide, by simp, by decide, by decide⟩

/-- A server that answers with a fragment of another team: the turn changes
nothing, and the next one asks for the same number. -/
theorem other_team_repeats : ∃ m q, openMarked (openDb emptyDatabase) [] [0x66] none = some m ∧
    openInbox (fun _ => 1) m = some q ∧
    receiveHttpFragment q (answering (emptyFragment 0)) = some (true, q) ∧
    ¬ Progresses q [answering (emptyFragment 0)] := by
  obtain ⟨m, hopen⟩ : ∃ m, openMarked (openDb emptyDatabase) [] [0x66] none = some m := ⟨_, rfl⟩
  obtain ⟨f, hf, hteam, -⟩ := emptyFragment_spec 0
  have hother : f.team ≠ some (Inbox.teamId ⟨fun _ => 1, newTracker, m⟩) := by
    rw [hteam]
    intro heq
    have hzero : (0 : UInt8) = 1 := congrFun (Option.some.inj heq) 0
    exact absurd hzero (by decide)
  have hmessage := message_answering (emptyFragment 0) (by decide)
  have hturn := receiveHttpFragment_some (q := ⟨fun _ => 1, newTracker, m⟩) hmessage hf
  rw [storeFragment_other hother] at hturn
  refine ⟨m, _, hopen, openInbox_new hopen _, hturn, ?_⟩
  rintro ⟨goesOn, q', hturn', hprogress⟩
  rw [hturn] at hturn'
  cases hturn'
  exact lt_irrefl _ (hprogress rfl).1

end Succinct.HttpFragments
