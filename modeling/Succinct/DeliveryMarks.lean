import Succinct.FragmentDelivery

/-!
The sending mark moves when a transport accepts a fragment, before the fate of
the fragment is known. In between, the fragment is only in RockTransport; an
error there lets go of it, and does not move the mark back.
-/
namespace Succinct.DeliveryMarks

open ByteBuffers MessageQueue FragmentDelivery Outbox

def seqAt (s : Outbox) (i : ℕ) : Option ℤ :=
  (s.queue.fragments[i]?.bind newFragment).map fun f => asInt f.seq.toNat

def Acknowledged (s : Outbox) (k : ℕ) : Prop :=
  ∃ n ∈ s.acks, ∃ i, k ≤ i ∧ seqAt s i = some n

def Delivered (s : Outbox) (k : ℕ) : Prop :=
  k ∈ s.transmitted ∨ k ∈ s.texted ∨ Acknowledged s k

/-- With no message outstanding, what was not delivered will be offered again. -/
def NoneLost (s : Outbox) : Prop :=
  s.sendingMsg = none → ∀ k, k < s.EOF → ¬ Delivered s k → s.sending ≤ k

/-- Rock reports an error for its outstanding message only once the fragment
of that message is acknowledged. -/
def ErrorsCovered (events : List Event) (s : Outbox) : Prop :=
  ∀ before id after, events = before ++ .observe id .error :: after →
    ∀ s', run before s = some s' → s'.sendingMsg = some id →
      ∀ k, s'.sendingFragment = some k → Acknowledged s' k

theorem endFragment_grows {q q' : Queue} {ended : Bool} (h : endFragment q = some (ended, q')) :
    q.fragments <+: q'.fragments := by
  rw [endFragment] at h
  split at h
  · obtain ⟨-, rfl⟩ := Prod.mk.inj (Option.some.inj h)
    exact List.prefix_rfl
  · simp only [Option.bind_eq_bind, Option.bind_eq_some_iff] at h
    obtain ⟨buff, -, ⟨bytes, buff'⟩, -, buff'', -, heq⟩ := h
    obtain ⟨-, rfl⟩ := Prod.mk.inj (Option.some.inj heq)
    exact List.prefix_append _ _

theorem openFragment_fragments {q q' : Queue} {offset len : ℤ}
    (h : openFragment q offset len = some q') : q'.fragments = q.fragments := by
  rw [openFragment] at h
  split at h
  · simp only [beginFragment, Option.bind_eq_bind, Option.bind_eq_some_iff] at h
    obtain ⟨_, -, _, -, _, -, _, -, _, -, heq⟩ := h
    obtain rfl := Option.some.inj heq
    rfl
  · obtain rfl := Option.some.inj h
    rfl

theorem savePiece_grows {q q' : Queue} {buff : ByteBuffer} {len : ℤ}
    (h : savePiece q buff len = some q') : q.fragments <+: q'.fragments := by
  simp only [savePiece, Option.bind_eq_bind, Option.bind_eq_some_iff] at h
  obtain ⟨buff', -, h⟩ := h
  split at h
  · obtain ⟨⟨ended, q''⟩, hend, rfl⟩ := Option.map_eq_some_iff.mp h
    have hgrows := endFragment_grows hend
    exact hgrows
  · obtain rfl := Option.some.inj h
    exact List.prefix_rfl

theorem fragmentLoop_grows {deadline : ℤ} {messageType : UInt8} {messageBytes : List UInt8}
    (fuel : ℕ) {q q' : Queue} {offset : ℤ}
    (h : fragmentLoop deadline messageType messageBytes fuel q offset = some q') :
    q.fragments <+: q'.fragments := by
  induction fuel generalizing q offset with
  | zero => simp [fragmentLoop] at h
  | succ fuel ih =>
    rw [fragmentLoop] at h
    split at h
    · simp only [Option.bind_eq_bind, Option.bind_eq_some_iff] at h
      obtain ⟨q1, hopen, ⟨b, o, l⟩, -, b', -, q2, hsave, hrest⟩ := h
      have hq1 := openFragment_fragments hopen
      have hq2 := savePiece_grows hsave
      have hq3 := ih hrest
      refine List.IsPrefix.trans ?_ (hq2.trans hq3)
      rw [← hq1]
      split
      · exact List.prefix_rfl
      · exact List.prefix_rfl
    · obtain rfl := Option.some.inj h
      exact List.prefix_rfl

theorem nextMessage_grows (source : List Source) {q q' : Queue}
    (h : nextMessage source q = some q') : q.fragments <+: q'.fragments := by
  induction source generalizing q with
  | nil =>
    obtain rfl := Option.some.inj h
    exact List.prefix_rfl
  | cons m rest ih =>
    rw [nextMessage, Option.bind_eq_some_iff] at h
    obtain ⟨q1, hfirst, hrest⟩ := h
    exact (fragmentLoop_grows _ hfirst).trans (ih hrest)

theorem next_eq (s : Outbox) : ∃ found, s.next =
    (found, { s with fragments :=
      ⟨s.fragments.offset + if s.fragments.onRecord then 1 else 0, found⟩ }) := by
  rw [Outbox.next]
  have hoffset : (if s.fragments.onRecord then s.fragments.offset + 1 else s.fragments.offset) =
      s.fragments.offset + if s.fragments.onRecord then 1 else 0 := by
    split
    · rfl
    · rfl
  rw [hoffset]
  by_cases hend : s.fragments.offset + (if s.fragments.onRecord then 1 else 0) ≥ s.EOF
  · exact ⟨false, if_pos hend⟩
  · exact ⟨true, if_neg hend⟩

structure Reads (s s' : Outbox) : Prop where
  grows : s.queue.fragments <+: s'.queue.fragments
  sending : s'.sending = s.sending
  sendingMsg : s'.sendingMsg = s.sendingMsg
  sendingFragment : s'.sendingFragment = s.sendingFragment
  transmitted : s'.transmitted = s.transmitted
  texted : s'.texted = s.texted
  acks : s'.acks = s.acks
  stage : s'.stage = s.stage

namespace Reads

theorem refl (s : Outbox) : Reads s s := ⟨List.prefix_rfl, rfl, rfl, rfl, rfl, rfl, rfl, rfl⟩

theorem trans {s₁ s₂ s₃ : Outbox} (h : Reads s₁ s₂) (h' : Reads s₂ s₃) : Reads s₁ s₃ :=
  ⟨h.grows.trans h'.grows, h'.sending.trans h.sending, h'.sendingMsg.trans h.sendingMsg,
    h'.sendingFragment.trans h.sendingFragment, h'.transmitted.trans h.transmitted,
    h'.texted.trans h.texted, h'.acks.trans h.acks, h'.stage.trans h.stage⟩

theorem at_offset (s : Outbox) (it : RecordIterator) : Reads s { s with fragments := it } :=
  ⟨List.prefix_rfl, rfl, rfl, rfl, rfl, rfl, rfl, rfl⟩

theorem with_queue {s : Outbox} {queue : Queue} (h : s.queue.fragments <+: queue.fragments) :
    Reads s { s with queue := queue } :=
  ⟨h, rfl, rfl, rfl, rfl, rfl, rfl, rfl⟩

theorem next (s : Outbox) : Reads s s.next.2 := by
  obtain ⟨found, hnext⟩ := next_eq s
  rw [hnext]
  exact at_offset s _

theorem prev (s : Outbox) : Reads s s.prev.2 := by
  rw [Outbox.prev]
  split
  · exact at_offset s _
  · exact at_offset s _

theorem seqAt {s s' : Outbox} (h : Reads s s') {i : ℕ} {n : ℤ} (hseq : seqAt s i = some n) :
    DeliveryMarks.seqAt s' i = some n := by
  obtain ⟨f, hf, hn⟩ := Option.map_eq_some_iff.mp hseq
  obtain ⟨bytes, hbytes, hnew⟩ := Option.bind_eq_some_iff.mp hf
  obtain ⟨more, hmore⟩ := h.grows
  have hlt : i < s.queue.fragments.length := (List.getElem?_eq_some_iff.mp hbytes).1
  rw [DeliveryMarks.seqAt, ← hmore, List.getElem?_append_left hlt, hbytes, Option.bind_some, hnew,
    Option.map_some, hn]

theorem acknowledged {s s' : Outbox} (h : Reads s s') {k : ℕ} (hk : Acknowledged s k) :
    Acknowledged s' k := by
  obtain ⟨n, hn, i, hki, hi⟩ := hk
  exact ⟨n, h.acks ▸ hn, i, hki, h.seqAt hi⟩

theorem delivered {s s' : Outbox} (h : Reads s s') {k : ℕ} (hk : Delivered s k) :
    Delivered s' k := by
  rcases hk with hk | hk | hk
  · exact Or.inl (h.transmitted ▸ hk)
  · exact Or.inr (Or.inl (h.texted ▸ hk))
  · exact Or.inr (Or.inr (h.acknowledged hk))

end Reads

theorem next_offset {s : Outbox} :
    s.next.2.fragments.offset = s.fragments.offset + if s.fragments.onRecord then 1 else 0 := by
  obtain ⟨found, hnext⟩ := next_eq s
  rw [hnext]

/-- The sources are asked with the iterator behind the last record. -/
theorem sourcesLoop_reads (sources : List (List Source)) {s s' : Outbox} {found : Bool}
    (hs : s.fragments.onRecord = false) (h : sourcesLoop sources s = some (found, s')) :
    Reads s s' ∧ s'.fragments = ⟨s.fragments.offset, found⟩ := by
  induction sources generalizing s with
  | nil =>
    obtain ⟨rfl, rfl⟩ := Prod.mk.inj (Option.some.inj h)
    exact ⟨Reads.refl s, by rw [← hs]⟩
  | cons source rest ih =>
    rw [sourcesLoop, Option.bind_eq_bind, Option.bind_eq_some_iff] at h
    obtain ⟨queue, hqueue, h⟩ := h
    have hgrows := Reads.with_queue (nextMessage_grows source hqueue)
    obtain ⟨more, hnext⟩ := next_eq { s with queue := queue }
    have hreads := hgrows.trans (Reads.next { s with queue := queue })
    simp only [hs, Bool.false_eq_true, if_false, Nat.add_zero] at hnext
    rw [hnext] at h hreads
    cases more with
    | true =>
      obtain ⟨rfl, rfl⟩ := Prod.mk.inj (Option.some.inj h)
      exact ⟨hreads, rfl⟩
    | false =>
      obtain ⟨hreads', hat⟩ := ih rfl h
      exact ⟨hreads.trans hreads', hat⟩

/-- nextFragment stays where the mark was. -/
theorem nextFragment_reads {mark : ℕ} {flushNow due : Bool} {sources : List (List Source)}
    {s s' : Outbox} {found : Bool}
    (h : nextFragment mark flushNow due sources s = some (found, s')) :
    Reads s s' ∧ s'.fragments.offset = mark := by
  rw [nextFragment, Option.bind_eq_bind, Option.bind_eq_some_iff] at h
  obtain ⟨s1, hreset, h⟩ := h
  rw [reset] at hreset
  split at hreset
  · cases hreset
  obtain rfl := Option.some.inj hreset
  obtain ⟨more, hnext⟩ := next_eq { s with fragments := ⟨mark, false⟩ }
  have hreads := (Reads.at_offset s ⟨mark, false⟩).trans (Reads.next _)
  simp only [Bool.false_eq_true, if_false, Nat.add_zero] at hnext
  rw [hnext] at h hreads
  cases more with
  | true =>
    obtain ⟨-, rfl⟩ := Prod.mk.inj (Option.some.inj h)
    exact ⟨hreads, rfl⟩
  | false =>
    simp only [Bool.false_eq_true, if_false, Option.bind_eq_bind, Option.bind_eq_some_iff] at h
    obtain ⟨⟨more, s3⟩, hsources, h⟩ := h
    obtain ⟨hreads', hat⟩ := sourcesLoop_reads sources rfl hsources
    have hlast : s' = s3 := by
      simp only at h
      split at h
      · exact (Prod.mk.inj (Option.some.inj h)).2.symm
      split at h
      · exact (Prod.mk.inj (Option.some.inj h)).2.symm
      split at h
      · exact (Prod.mk.inj (Option.some.inj h)).2.symm
      · exact (Prod.mk.inj (Option.some.inj h)).2.symm
    subst hlast
    exact ⟨hreads.trans hreads', congrArg RecordIterator.offset hat⟩

theorem read_some {s : Outbox} {f : Fragment} (h : s.read = some (some f)) :
    s.fragments.onRecord = true ∧ seqAt s s.fragments.offset = some (asInt f.seq.toNat) := by
  rw [Outbox.read] at h
  by_cases hon : s.fragments.onRecord = true
  · rw [if_pos hon] at h
    obtain ⟨f', hf', heq⟩ := Option.map_eq_some_iff.mp h
    obtain rfl := Option.some.inj heq
    exact ⟨hon, by rw [seqAt, hf', Option.map_some]⟩
  · rw [if_neg hon] at h
    cases h

/-- A fragment is read where the iterator was. -/
theorem getFragment_reads {s s' : Outbox} {f : Fragment}
    (h : getFragment s = some (some f, s')) :
    Reads s s' ∧ s'.fragments.offset = s.fragments.offset ∧ s'.fragments.onRecord = true := by
  rw [getFragment, Option.bind_eq_bind, Option.bind_eq_some_iff] at h
  obtain ⟨current, hread, h⟩ := h
  cases current with
  | some send =>
    obtain ⟨heq, rfl⟩ := Prod.mk.inj (Option.some.inj h)
    exact ⟨Reads.refl s, rfl, (read_some hread).1⟩
  | none =>
    have hoff : s.fragments.onRecord = false := by
      rw [Outbox.read] at hread
      by_cases hon : s.fragments.onRecord = true
      · rw [if_pos hon] at hread
        obtain ⟨f', -, heq⟩ := Option.map_eq_some_iff.mp hread
        cases heq
      · rw [if_neg hon] at hread
        exact Bool.eq_false_iff.mpr hon
    simp only [Option.bind_eq_bind, Option.bind_eq_some_iff] at h
    obtain ⟨⟨ended, queue⟩, hend, h⟩ := h
    have hgrows := Reads.with_queue (endFragment_grows hend)
    obtain ⟨more, hnext⟩ := next_eq { s with queue := queue }
    have hreads := hgrows.trans (Reads.next { s with queue := queue })
    simp only [hoff, Bool.false_eq_true, if_false, Nat.add_zero] at hnext
    rw [hnext] at hreads
    simp only [hnext] at h
    split at h
    · split at h
      · simp only [Option.bind_eq_some_iff] at h
        obtain ⟨send, hsend, h⟩ := h
        obtain ⟨rfl, rfl⟩ := Prod.mk.inj (Option.some.inj h)
        exact ⟨hreads, rfl, (read_some hsend).1⟩
      · cases h
    · cases h

/-- The search ends on a record with the number that was sought. -/
theorem ackLoop_reads {seq : ℤ} {forwards : Bool} (fuel : ℕ) {s s' : Outbox}
    (h : ackLoop seq forwards fuel s = some s') :
    Reads s s' ∧ s'.fragments.onRecord = true ∧ seqAt s' s'.fragments.offset = some seq := by
  induction fuel generalizing s with
  | zero => cases h
  | succ fuel ih =>
    simp only [ackLoop, Option.bind_eq_bind, Option.bind_eq_some_iff] at h
    obtain ⟨current, hread, f, rfl, h⟩ := h
    obtain ⟨hon, hseq⟩ := read_some hread
    by_cases heq : asInt f.seq.toNat = seq
    · rw [if_pos heq] at h
      obtain rfl := Option.some.inj h
      exact ⟨Reads.refl s, hon, heq ▸ hseq⟩
    · rw [if_neg heq] at h
      have hmove : Reads s (if forwards then s.next else s.prev).2 := by
        cases forwards with
        | true => exact Reads.next s
        | false => exact Reads.prev s
      generalize (if forwards then s.next else s.prev) = moved at h hmove
      split at h
      · obtain ⟨hreads, hfound⟩ := ih h
        exact ⟨hmove.trans hreads, hfound⟩
      · cases h

theorem ackStart_reads {forwards : Bool} {first last nextFragmentSeq : ℤ} {s s' : Outbox}
    (h : ackStart forwards first last nextFragmentSeq s = some s') : Reads s s' := by
  simp only [ackStart] at h
  split at h
  · split at h
    · obtain rfl := Option.some.inj h
      exact (Reads.at_offset s _).trans (Reads.next _)
    · cases h
  · split at h
    · split at h
      · obtain rfl := Option.some.inj h
        exact (Reads.at_offset s _).trans (Reads.prev _)
      · cases h
    · obtain rfl := Option.some.inj h
      exact Reads.refl s

/-- Below the mark all is delivered, but for the fragment that Rock has. -/
structure Covered (s : Outbox) : Prop where
  paired : s.sendingMsg = none → s.sendingFragment = none
  below : ∀ k < s.sending, Delivered s k ∨ s.sendingFragment = some k

namespace Covered

theorem at_stage {s : Outbox} (h : Covered s) (stage : Stage) :
    Covered { s with stage := stage } :=
  ⟨h.paired, h.below⟩

theorem reads {s s' : Outbox} (hreads : Reads s s') (h : Covered s) : Covered s' where
  paired := by
    rw [hreads.sendingMsg, hreads.sendingFragment]
    exact h.paired
  below := by
    intro k hk
    rw [hreads.sending] at hk
    rw [hreads.sendingFragment]
    exact (h.below k hk).imp_left hreads.delivered

/-- The mark moves behind a record that is acknowledged. -/
theorem ack {s : Outbox} (h : Covered s) {i : ℕ} {n : ℤ} (hseq : seqAt s i = some n) :
    Covered { s with httpAcked := i + 1, acks := n :: s.acks, sending := i + 1 } where
  paired := h.paired
  below := by
    intro k hk
    left
    right
    right
    exact ⟨n, List.mem_cons_self, i, Nat.le_of_lt_succ hk, hseq⟩

theorem cons_ack {s : Outbox} (h : Covered s) (mark : ℕ) (n : ℤ) :
    Covered { s with httpAcked := mark, acks := n :: s.acks } where
  paired := h.paired
  below := by
    intro k hk
    refine (h.below k hk).imp_left ?_
    rintro (hk | hk | ⟨m, hm, i, hki, hi⟩)
    · exact Or.inl hk
    · exact Or.inr (Or.inl hk)
    · exact Or.inr (Or.inr ⟨m, List.mem_cons_of_mem n hm, i, hki, hi⟩)

end Covered

theorem markAck_covered {seq : ℤ} {s s' : Outbox} (hs : Covered s)
    (h : markAck seq s = some s') : Covered s' ∧ s'.stage = s.stage := by
  simp only [markAck] at h
  split at h
  · cases h
  split at h
  · obtain rfl := Option.some.inj h
    have hreads := (Reads.at_offset s ⟨0, false⟩).trans (Reads.next _)
    exact ⟨(hs.reads hreads).cons_ack _ _, hreads.stage⟩
  · simp only [Option.bind_eq_bind, Option.bind_eq_some_iff] at h
    obtain ⟨current, -, s1, hstart, s2, hloop, h⟩ := h
    obtain ⟨hreads', hon, hseq⟩ := ackLoop_reads _ hloop
    have hreads := (ackStart_reads hstart).trans hreads'
    have hnext := hreads.trans (Reads.next s2)
    have hcovered := hs.reads hnext
    have hoffset : s2.next.2.fragments.offset = s2.fragments.offset + 1 := by
      rw [next_offset, if_pos hon]
    have hseq' := (Reads.next s2).seqAt hseq
    rw [hoffset] at h
    split at h
    · obtain rfl := Option.some.inj h
      exact ⟨hcovered.ack hseq', hnext.stage⟩
    · obtain rfl := Option.some.inj h
      exact ⟨hcovered.cons_ack _ _, hnext.stage⟩

/-- In addition, behind a trySend that succeeded the fragment at the mark is
covered as well, and the iterator is on it. -/
structure Kept (s : Outbox) : Prop where
  covered : Covered s
  accepted : s.stage = .accepted → s.fragments = ⟨s.sending, true⟩ ∧
    (Delivered s s.sending ∨ s.sendingFragment = some s.sending)

theorem Kept.of_stage {s : Outbox} (h : Covered s) (hstage : s.stage ≠ .accepted) : Kept s :=
  ⟨h, fun hs => absurd hs hstage⟩

theorem connect_kept {answer : Answer} {s s' : Outbox} (hs : Covered s)
    (h : connect answer s = some s') : Kept s' := by
  simp only [connect, Option.bind_eq_bind, Option.bind_eq_some_iff] at h
  obtain ⟨s1, hreset, h⟩ := h
  have hreads : Reads s s1 := by
    rw [reset] at hreset
    split at hreset
    · cases hreset
    · obtain rfl := Option.some.inj hreset
      exact Reads.at_offset s _
  have hcovered := hs.reads (hreads.trans (Reads.next s1))
  have hack : ∀ seq, ((markAck seq s1.next.2).bind fun s =>
      some { s with stage := .httpLoop }) = some s' → Kept s' := by
    intro seq h
    obtain ⟨s2, hmark, heq⟩ := Option.bind_eq_some_iff.mp h
    obtain rfl := Option.some.inj heq
    exact Kept.of_stage ((markAck_covered hcovered hmark).1.at_stage _) (by simp)
  split at h
  · cases answer with
    | notFound => exact hack (-1) h
    | ack seq => exact hack seq h
    | failed =>
      obtain rfl := Option.some.inj h
      exact Kept.of_stage (hcovered.at_stage _) (by simp)
  · obtain rfl := Option.some.inj h
    exact Kept.of_stage (hcovered.at_stage _) (by simp)

theorem upload_kept {sources : List (List Source)} {answer : Answer} {s s' : Outbox}
    (hs : Covered s) (hstage : s.stage = .httpLoop) (h : upload sources answer s = some s') :
    Kept s' := by
  simp only [upload, Option.bind_eq_bind, Option.bind_eq_some_iff] at h
  obtain ⟨⟨found, s1⟩, hnext, h⟩ := h
  obtain ⟨hreads, -⟩ := nextFragment_reads hnext
  have hcovered := hs.reads hreads
  split at h
  · obtain rfl := Option.some.inj h
    exact Kept.of_stage (hcovered.at_stage _) (by simp)
  · simp only [Option.bind_eq_some_iff] at h
    obtain ⟨⟨send, s2⟩, hget, f, rfl, h⟩ := h
    obtain ⟨hreads', -⟩ := getFragment_reads hget
    have hcovered' := hcovered.reads hreads'
    split at h
    · obtain ⟨hacked, hsame⟩ := markAck_covered hcovered' h
      refine Kept.of_stage hacked ?_
      rw [hsame, hreads'.stage, hreads.stage, hstage]
      simp
    · obtain rfl := Option.some.inj h
      exact Kept.of_stage (hcovered'.at_stage _) (by simp)

structure Offers (s : Outbox) (result : Status × Outbox) : Prop where
  covered : Covered result.2
  fragments : result.2.fragments = s.fragments
  sending : result.2.sending = s.sending
  refused : result.1 ≠ .SUCCESS → result.2 = s
  success : result.1 = .SUCCESS → Delivered result.2 s.fragments.offset ∨
    result.2.sendingFragment = some s.fragments.offset

theorem smsTrySend_offers (ready : Bool) {s : Outbox} (hs : Covered s) :
    Offers s (smsTrySend ready s) := by
  rw [smsTrySend]
  by_cases hrefused : smsCheckAvailable ready s ≠ Status.SUCCESS
  · rw [if_pos hrefused]
    exact ⟨hs, rfl, rfl, fun _ => rfl, fun h => absurd h hrefused⟩
  · rw [if_neg hrefused]
    refine ⟨⟨hs.paired, ?_⟩, rfl, rfl, fun h => absurd rfl h, fun _ => ?_⟩
    · intro k hk
      refine (hs.below k hk).imp_left ?_
      rintro (hk | hk | hk)
      · exact Or.inl hk
      · exact Or.inr (Or.inl (List.mem_cons_of_mem _ hk))
      · exact Or.inr (Or.inr hk)
    · exact Or.inl (Or.inr (Or.inl List.mem_cons_self))

theorem rockTrySend_offers (device : Status) (fragment : Fragment) {s : Outbox} (hs : Covered s) :
    Offers s (rockTrySend device fragment s) := by
  rw [rockTrySend]
  by_cases hrefused : rockCheckAvailable device s ≠ Status.SUCCESS
  · rw [if_pos hrefused]
    exact ⟨hs, rfl, rfl, fun _ => rfl, fun h => absurd h hrefused⟩
  · rw [if_neg hrefused]
    have hnone : s.sendingMsg = none := by
      by_contra hsome
      apply hrefused
      rw [rockCheckAvailable, if_pos (Option.isSome_iff_ne_none.mpr hsome)]
      split
      · assumption
      · simp
    refine ⟨⟨?_, ?_⟩, rfl, rfl, fun h => absurd rfl h, fun _ => Or.inr rfl⟩
    · intro h
      cases h
    · intro k hk
      rcases hs.below k hk with hk | hk
      · exact Or.inl hk
      · rw [hs.paired hnone] at hk
        cases hk

theorem trySend_offers (ready : Bool) (device : Status) (fragment : Fragment) {s : Outbox}
    (hs : Covered s) : Offers s (trySend ready device fragment s) := by
  have hsms := smsTrySend_offers ready hs
  rw [trySend]
  rcases hsend : smsTrySend ready s with ⟨status, s1⟩
  rw [hsend] at hsms
  dsimp only
  by_cases hunavailable : status = Status.UNAVAILABLE
  · rw [if_pos hunavailable]
    have hsame : s1 = s := hsms.refused (by simp [hunavailable])
    rw [hsame]
    exact rockTrySend_offers device fragment hs
  · rw [if_neg hunavailable]
    exact hsms

theorem offer_kept {turn : Turn} {init : Bool} {s s' : Outbox} (hs : Covered s)
    (h : offer turn init s = some s') : Kept s' := by
  simp only [offer, Option.bind_eq_bind, Option.bind_eq_some_iff] at h
  obtain ⟨⟨found, s1⟩, hnext, h⟩ := h
  obtain ⟨hreads, hmark⟩ := nextFragment_reads hnext
  have hcovered := hs.reads hreads
  split at h
  · obtain rfl := Option.some.inj h
    exact Kept.of_stage (hcovered.at_stage _) (by simp)
  split at h
  · obtain rfl := Option.some.inj h
    exact Kept.of_stage (hcovered.at_stage _) (by simp)
  simp only [Option.bind_eq_some_iff] at h
  obtain ⟨⟨send, s2⟩, hget, f, rfl, h⟩ := h
  obtain ⟨hreads', hoffset, hon⟩ := getFragment_reads hget
  have hoffers := trySend_offers turn.ready turn.device f (hcovered.reads hreads')
  by_cases hsuccess : (trySend turn.ready turn.device f (some f, s2).2).1 ≠ Status.SUCCESS
  · rw [if_pos hsuccess] at h
    obtain rfl := Option.some.inj h
    exact Kept.of_stage (hoffers.covered.at_stage _) (by simp)
  · rw [if_neg hsuccess] at h
    obtain rfl := Option.some.inj h
    have hat : s2.fragments.offset = (trySend turn.ready turn.device f s2).2.sending := by
      rw [hoffers.sending, hreads'.sending, hreads.sending, hoffset]
      exact hmark
    refine ⟨hoffers.covered.at_stage _, fun _ => ⟨?_, ?_⟩⟩
    · change (trySend turn.ready turn.device f s2).2.fragments = ⟨_, true⟩
      rw [hoffers.fragments, ← hat, ← hon]
    · have hfragment := hoffers.success (not_not.mp hsuccess)
      rw [hat] at hfragment
      exact hfragment

theorem advance_kept {s : Outbox} (hs : Kept s) (hstage : s.stage = .accepted) :
    Kept (advance s) := by
  obtain ⟨hat, hfragment⟩ := hs.accepted hstage
  have hreads := Reads.next s
  have hoffset : s.next.2.fragments.offset = s.sending + 1 := by
    rw [next_offset, hat, if_pos rfl]
  refine Kept.of_stage ⟨(hs.covered.reads hreads).paired, ?_⟩ (by simp [advance])
  intro k hk
  change k < s.next.2.fragments.offset at hk
  change Delivered s.next.2 k ∨ s.next.2.sendingFragment = some k
  rw [hreads.sendingFragment]
  rcases Nat.lt_succ_iff_lt_or_eq.mp (hoffset ▸ hk) with hlt | rfl
  · exact (hs.covered.below k hlt).imp_left hreads.delivered
  · exact hfragment.imp_left hreads.delivered

/-- Rock lets go of its message when the fragment is covered otherwise. -/
theorem Kept.release {s s' : Outbox} (hs : Kept s) (hmsg : s'.sendingFragment = none)
    (hqueue : s'.fragments = s.fragments) (hsending : s'.sending = s.sending)
    (hstage : s'.stage = s.stage) (hdelivered : ∀ k, Delivered s k → Delivered s' k)
    (hreleased : ∀ k, s.sendingFragment = some k → Delivered s' k) : Kept s' := by
  have hcover : ∀ k, Delivered s k ∨ s.sendingFragment = some k →
      Delivered s' k ∨ s'.sendingFragment = some k := by
    rintro k (hk | hk)
    · exact Or.inl (hdelivered k hk)
    · exact Or.inl (hreleased k hk)
  refine ⟨⟨fun _ => hmsg, ?_⟩, ?_⟩
  · intro k hk
    exact hcover k (hs.covered.below k (hsending ▸ hk))
  · intro haccepted
    obtain ⟨hat, hfragment⟩ := hs.accepted (hstage ▸ haccepted)
    rw [hqueue, hsending]
    exact ⟨hat, hcover _ hfragment⟩

theorem observe_kept {id : UInt16} {status : RockStatus} {s s' : Outbox} (hs : Kept s)
    (hcovered : status = .error → s.sendingMsg = some id →
      ∀ k, s.sendingFragment = some k → Acknowledged s k)
    (h : observe id status s = some s') : Kept s' := by
  cases status with
  | transmitted =>
    simp only [observe, Option.bind_eq_bind, Option.bind_eq_some_iff] at h
    obtain ⟨sendingMsg, hmsg, h⟩ := h
    split at h
    · obtain rfl := Option.some.inj h
      refine hs.release rfl rfl rfl rfl ?_ ?_
      · rintro k (hk | hk)
        · exact Or.inl (List.mem_append_right _ hk)
        · exact Or.inr hk
      · intro k hk
        left
        rw [hk]
        exact List.mem_cons_self
    · obtain rfl := Option.some.inj h
      exact hs
  | error =>
    simp only [observe, Option.bind_eq_bind, Option.bind_eq_some_iff] at h
    obtain ⟨sendingMsg, hmsg, h⟩ := h
    by_cases hid : id = sendingMsg
    · rw [if_pos hid] at h
      obtain rfl := Option.some.inj h
      refine hs.release rfl rfl rfl rfl (fun _ hk => hk) ?_
      intro k hk
      exact Or.inr (Or.inr (hcovered rfl (hid ▸ hmsg) k hk))
    · rw [if_neg hid] at h
      obtain rfl := Option.some.inj h
      exact hs
  | _ =>
    obtain rfl := Option.some.inj h
    exact hs

theorem step_kept {event : Event} {s s' : Outbox} (hs : Kept s)
    (hcovered : ∀ id, event = .observe id .error → s.sendingMsg = some id →
      ∀ k, s.sendingFragment = some k → Acknowledged s k)
    (h : step s event = some s') : Kept s' := by
  cases event with
  | wake http =>
    simp only [step] at h
    split at h
    · obtain rfl := Option.some.inj h
      exact Kept.of_stage (hs.covered.at_stage _) (by simp)
    · exact connect_kept hs.covered h
    · cases h
  | upload sources answer =>
    simp only [step] at h
    split at h
    case h_1 hstage =>
      exact upload_kept hs.covered hstage h
    case h_2 =>
      cases h
  | offer turn =>
    simp only [step] at h
    split at h
    · exact offer_kept hs.covered h
    · cases h
  | advance =>
    simp only [step] at h
    split at h
    case h_1 hstage =>
      obtain rfl := Option.some.inj h
      exact advance_kept hs hstage
    case h_2 =>
      cases h
  | observe id status =>
    refine observe_kept hs ?_ h
    rintro rfl
    exact hcovered id rfl
  | smsSent =>
    obtain rfl := Option.some.inj h
    exact ⟨⟨hs.covered.paired, hs.covered.below⟩, hs.accepted⟩

theorem run_kept (events : List Event) {s s' : Outbox} (hs : Kept s)
    (hcovered : ErrorsCovered events s) (h : run events s = some s') : Kept s' := by
  induction events generalizing s with
  | nil =>
    obtain rfl := Option.some.inj h
    exact hs
  | cons event rest ih =>
    rw [run, Option.bind_eq_some_iff] at h
    obtain ⟨s1, hstep, hrest⟩ := h
    refine ih (step_kept hs ?_ hstep) ?_ hrest
    · rintro id rfl
      exact hcovered [] id rest rfl s rfl
    · rintro before id after rfl t hrun
      refine hcovered (event :: before) id after rfl t ?_
      rw [run, hstep, Option.bind_some, hrun]

theorem start_kept (queue : Queue) : Kept (start queue) :=
  Kept.of_stage ⟨fun _ => rfl, fun k hk => absurd hk (Nat.not_lt_zero k)⟩ (by simp [start])

theorem Kept.noneLost {s : Outbox} (hs : Kept s) : NoneLost s := by
  intro hmsg k hk hundelivered
  by_contra hlt
  rcases hs.covered.below k (Nat.lt_of_not_le hlt) with hdelivered | hsending
  · exact hundelivered hdelivered
  · rw [hs.covered.paired hmsg] at hsending
    cases hsending

/-- Rock reports an error for a message that the mark has passed: as long as
that only happens to fragments acknowledged otherwise, no fragment is lost. -/
theorem no_fragment_lost (queue : Queue) (events : List Event)
    (hcovered : ErrorsCovered events (start queue)) (before after : List Event)
    (hsplit : events = before ++ after) (s : Outbox) (hrun : run before (start queue) = some s) :
    NoneLost s := by
  refine (run_kept before (start_kept queue) ?_ hrun).noneLost
  rintro before' id after' rfl t ht
  refine hcovered before' id (after' ++ after) ?_ t ht
  rw [hsplit, List.append_assoc, List.cons_append]

def oneMessage : Turn where
  sources := [[⟨0, 5, [0x68, 0x69]⟩]]
  due := true
  checkReady := false
  checkDevice := .SUCCESS
  ready := false
  device := .SUCCESS

def emptyQueue : Queue where
  teamId := fun _ => 0
  fragmentBuff := ByteBuffer.wrap (List.replicate 204 0)
  nextFragmentSeq := 0
  fragmentDeadline := NO_DEADLINE
  fragments := []

def failedRun : List Event := [.wake none, .offer oneMessage, .advance, .observe 0 .error]

theorem failedRun_ends : (run failedRun (start emptyQueue)).map (fun s =>
    (s.sendingMsg, s.EOF, s.sending, s.transmitted ++ s.texted, s.acks)) =
      some (none, 1, 1, [], []) := by
  decide +kernel

theorem fragment_lost : ∃ s, run failedRun (start emptyQueue) = some s ∧ ¬ NoneLost s := by
  obtain ⟨s, hrun, hs⟩ := Option.map_eq_some_iff.mp failedRun_ends
  simp only [Prod.mk.injEq] at hs
  obtain ⟨hmsg, heof, hsending, hhistory, hacks⟩ := hs
  obtain ⟨htransmitted, htexted⟩ := List.append_eq_nil_iff.mp hhistory
  refine ⟨s, hrun, fun hlost => ?_⟩
  have hundelivered : ¬ Delivered s 0 := by
    rintro (h | h | ⟨n, hn, -⟩)
    · simp [htransmitted] at h
    · simp [htexted] at h
    · simp [hacks] at hn
  have hle := hlost hmsg 0 (by omega) hundelivered
  omega

def idleTurn : Turn := { oneMessage with sources := [], due := false }

def ackedRun : List Event :=
  [.wake none, .offer oneMessage, .advance, .offer idleTurn, .wake (some (.ack 0))]

theorem ackedRun_ends :
    (run ackedRun (start emptyQueue)).map (fun s => (s.acks, s.sendingFragment, seqAt s 0)) =
    some ([0], some 0, some 0) := by
  decide +kernel

theorem ackedRun_covered :
    ErrorsCovered (ackedRun ++ [.observe 0 .error]) (start emptyQueue) := by
  intro before id after hsplit s hrun _ k hk
  have hlast : before = ackedRun := by
    rcases List.append_eq_append_iff.mp hsplit with ⟨rest, hbefore, hrest⟩ | ⟨rest, hacked, hrest⟩
    · cases rest with
      | nil => rw [hbefore, List.append_nil]
      | cons e rest => simp at hrest
    · cases rest with
      | nil => rw [hacked, List.append_nil]
      | cons e rest =>
        have hmem : Event.observe id .error ∈ ackedRun := by
          rw [hacked, (List.cons.inj hrest).1]
          simp
        simp [ackedRun] at hmem
  obtain ⟨s', hrun', hs⟩ := Option.map_eq_some_iff.mp ackedRun_ends
  rw [hlast, hrun'] at hrun
  obtain rfl := Option.some.inj hrun
  simp only [Prod.mk.injEq] at hs
  obtain ⟨hacks, hsending, hseq⟩ := hs
  obtain rfl : 0 = k := Option.some.inj (hsending.symm.trans hk)
  exact ⟨0, by simp [hacks], 0, le_refl 0, hseq⟩

theorem observed_ends : ((run (ackedRun ++ [.observe 0 .error]) (start emptyQueue)).map fun s =>
    (s.sendingMsg, s.sending, s.transmitted)) = some (none, 1, []) := by
  decide +kernel

/-- The error that Rock reports afterwards loses nothing. -/
theorem no_fragment_lost_acked :
    ∃ s, run (ackedRun ++ [.observe 0 .error]) (start emptyQueue) = some s ∧
    s.sendingMsg = none ∧ s.sending = 1 ∧ s.transmitted = [] ∧ NoneLost s := by
  obtain ⟨s, hrun, hs⟩ := Option.map_eq_some_iff.mp observed_ends
  simp only [Prod.mk.injEq] at hs
  exact ⟨s, hrun, hs.1, hs.2.1, hs.2.2, no_fragment_lost emptyQueue _ ackedRun_covered _ []
    (List.append_nil _).symm s hrun⟩

end Succinct.DeliveryMarks
