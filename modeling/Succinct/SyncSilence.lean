import Succinct.SyncSoundness

/-!
Whether reconciliation falls silent. Every message costs more than the
answers it gets, what is learnt taken into account, so no run goes on forever
when the two key sets do not cross. When they cross, two summaries can be
answered by each other without end.
-/
namespace Succinct.SyncSilence

open SyncKeys BitTries SyncBits SyncTree SyncProtocol SyncCompare SyncWalks SyncParty SyncReceive
  SyncSoundness

def started (p : Bool → Party) : System := ⟨p, fun x => [syncRootMsg (p !x)]⟩

def FallsSilent (ks : Bool → List SyncKey) : Prop :=
  ∃ p : Bool → Party, (∀ x, syncAddKeys (ks x) freshParty = some (p x)) ∧
    ∀ run : ℕ → System, run 0 = started p → ∃ n, ¬ Deliver (run n) (run (n + 1))

theorem crossing_symm {S T : Finset SyncKey} (h : Crossing S T) : Crossing T S := by
  obtain ⟨d, x, hx, y, hy, hagree, hne, hS, hT, hS', hT'⟩ := h
  exact ⟨d, y, hy, x, hx, hagree.symm, hne.symm, hT, hS, hT', hS'⟩

/-- What can still be said: the price of the messages in flight, and the
keys that are not yet known. -/
def potential (n : ℕ) (s : System) : ℕ :=
  ((s.toward false).map weight).sum + ((s.toward true).map weight).sum +
    (n - known (s.party false)) + (n - known (s.party true))

theorem cost_eq (log : List Callback) :
    cost log = ((log.filterMap queuedBytes).map weight).sum := by
  induction log with
  | nil => rfl
  | cons e rest ih =>
    have hcons : cost (e :: rest) = ((queuedBytes e).map weight).getD 0 + cost rest := by
      cases e <;> rfl
    rw [hcons, ih]
    cases hbytes : queuedBytes e with
    | none =>
      rw [List.filterMap_cons_none hbytes, Option.map_none, Option.getD_none, Nat.zero_add]
    | some buff => rw [List.filterMap_cons_some hbytes, List.map_cons, List.sum_cons]; rfl

theorem cost_queued {p p' : Party} {new : List Callback} (h : p'.log = p.log ++ new) :
    ((queued p p').map weight).sum = cost new := by
  rw [cost_eq, queued, h, List.drop_left]

theorem card_keys {U : Finset SyncKey} {lo : ℕ} (t : KeyTrie) (ht : Over U lo t) :
    (keys t).card = (leaves t).length := by
  induction t generalizing lo with
  | leaf s k => rfl
  | node s p l r ihl ihr =>
    rw [keys, Finset.card_union_of_disjoint (ht.wellFormed.disjoint bit),
      ihl ht.left, ihr ht.right, leaves, List.length_append]

theorem known_le {j : ℕ} {U R P : Finset SyncKey} {own D : Option KeyTrie} {p : Party}
    (h : Knows j U R P own D p) : known p ≤ U.card := by
  rw [known, h.sendCount, h.recvCount]
  have hlen := List.length_eq_countP_add_countP (fun e : Bool × SyncKey => e.1) (l := leavesOf D)
  simp only [Bool.not_eq_true, Bool.decide_eq_false] at hlen
  rw [← hlen]
  cases D with
  | none => exact Nat.zero_le _
  | some t =>
    have ht := h.inside t rfl
    change (leaves t).length ≤ _
    rw [← card_keys t ht]
    exact Finset.card_le_card ht.mem

section Silence

variable {j : ℕ} {U : Finset SyncKey} (hG : Generic U j)

include hG

/-- A delivery lowers the potential. -/
theorem potential_deliver {S : Bool → Finset SyncKey} {own : Bool → Option KeyTrie}
    (hown : ∀ x, Rooted j U (S x) (own x)) (hcross : ∀ x, ¬ Crossing (S x) (S !x)) {s s' : System}
    (h : Sound j U S own s) (hstep : Deliver s s') :
    potential U.card s' < potential U.card s := by
  obtain ⟨x, before, after, buff, p', D', extra, hflight, rfl, hq, hpays, hextra⟩ :=
    h.deliver hG hown hstep
  have hextra : extra < weight buff := hextra.resolve_right (hcross x)
  obtain ⟨hlearn, new, hlog, hcost⟩ := hpays
  have hbound := known_le hq
  have hqueued := cost_queued hlog
  have hsum : ((s.toward x).map weight).sum =
      ((before ++ after).map weight).sum + weight buff := by
    rw [hflight]
    simp only [List.map_append, List.map_cons, List.sum_append, List.sum_cons]
    omega
  have hnew : ((s.toward (!x) ++ queued (s.party x) p').map weight).sum =
      ((s.toward (!x)).map weight).sum + cost new := by
    rw [List.map_append, List.sum_append, hqueued]
  cases x with
  | false =>
    simp only [Bool.not_false] at hnew
    simp only [potential, System.receive, Function.update_self, if_true, Bool.true_eq_false,
      if_false, ne_eq, not_false_eq_true, Function.update_of_ne, hsum, hnew]
    omega
  | true =>
    simp only [Bool.not_true] at hnew
    simp only [potential, System.receive, Function.update_self, if_true, Bool.false_eq_true,
      if_false, ne_eq, not_false_eq_true, Function.update_of_ne, hsum, hnew]
    omega

/-- From any sound state only so many deliveries are possible. -/
theorem run_ends {S : Bool → Finset SyncKey} {own : Bool → Option KeyTrie}
    (hown : ∀ x, Rooted j U (S x) (own x)) (hcross : ∀ x, ¬ Crossing (S x) (S !x))
    (run : ℕ → System) (h : Sound j U S own (run 0)) : ∃ n, ¬ Deliver (run n) (run (n + 1)) := by
  by_contra hforever
  have hall : ∀ n, Deliver (run n) (run (n + 1)) := by
    intro n
    by_contra hnot
    exact hforever ⟨n, hnot⟩
  have hlow : ∀ n, Sound j U S own (run n) ∧
      potential U.card (run n) + n ≤ potential U.card (run 0) := by
    intro n
    induction n with
    | zero => exact ⟨h, Nat.le_refl _⟩
    | succ n ih =>
      refine ⟨ih.1.step hG hown (Step.deliver _ _ (hall n)), ?_⟩
      have := potential_deliver hG hown hcross ih.1 (hall n)
      omega
  have := (hlow (potential U.card (run 0) + 1)).2
  omega

end Silence

/-- Reconciliation of key sets that do not cross falls silent, whatever the
order of delivery. -/
theorem reconciliation_falls_silent (j : ℕ) (ks : Bool → List SyncKey)
    (hG : Generic ((ks false).toFinset ∪ (ks true).toFinset) j)
    (hcross : ¬ Crossing (ks false).toFinset (ks true).toFinset) : FallsSilent ks := by
  obtain ⟨own, hbuild, hown⟩ := rooted_start hG rfl
  refine ⟨fun x => { freshParty with root := embedOption 0 (own x) }, hbuild, ?_⟩
  intro run hrun
  have hboth : ∀ x, ¬ Crossing (ks x).toFinset (ks !x).toFinset := by
    intro x
    cases x with
    | false => exact hcross
    | true => exact fun h => hcross (crossing_symm h)
  apply run_ends hG hown hboth
  rw [hrun]
  have hstart := sound_start (j := j) (U := (ks false).toFinset ∪ (ks true).toFinset)
    (fun x => (ks x).toFinset) own
  refine ⟨hstart.knows, ?_⟩
  intro x buff hbuff
  rw [List.mem_singleton.mp hbuff]
  have hsent :=
    sent_root (hown !x) (knows_fresh (j := j) (ks !x).toFinset (ks x).toFinset (own !x))
  exact hsent

/-- One of two keys is shared, and there is a third. -/
theorem reconciliation_falls_silent_three :
    FallsSilent (fun x => if x then [keyOf [0x00, 1]]
      else [keyOf [0x00, 1], keyOf [0x01, 2]]) := by
  apply reconciliation_falls_silent 1
  · exact generic_of_own_bits [keyOf [0x00, 1], keyOf [0x01, 2]] _ 1 (by decide)
      (by decide) (by simp) (by decide +kernel) (by decide +kernel)
  · rintro ⟨d, x, hx, y, hy, -, -, -, -, -, k, hk, hne, -⟩
    simp only [if_true, List.toFinset_cons, List.toFinset_nil, Finset.mem_insert,
      Finset.notMem_empty, or_false] at hy hk
    exact hne (hk.trans hy.symm)

def crossingKeys (x : Bool) : List SyncKey :=
  if x then [keyOf [0x80, 4], keyOf [0x81, 8]] else [keyOf [0x00, 1], keyOf [0x01, 2]]

def crossingParty (x : Bool) : Party := (syncAddKeys (crossingKeys x) freshParty).getD freshParty

def crossingRoot (x : Bool) : List UInt8 := syncRootMsg (crossingParty x)

def crossingHeard (x : Bool) : Party :=
  ((syncRecvMessage (crossingParty x) (crossingRoot !x)).getD (0, freshParty)).2

theorem crossing_first (x : Bool) : syncRecvMessage (crossingParty x) (crossingRoot !x) =
    some (0, crossingHeard x) := by
  cases x <;> rfl

set_option maxRecDepth 4000 in
/-- A root that was heard before is answered by the own root. -/
theorem crossing_again (x : Bool) (log : List Callback) :
    syncRecvMessage { crossingHeard x with log := log } (crossingRoot !x) =
      some (0, { crossingHeard x with log := log ++ [.queueMessage (crossingRoot x)] }) := by
  cases x <;> rfl

theorem crossing_queued (x : Bool) :
    crossingRoot x ∈ queued (crossingParty x) (crossingHeard x) := by
  cases x <;> decide +kernel

/-- Both parties have heard the root of the other before, and one root at
least is still in flight. -/
def Echoing (s : System) : Prop :=
  (∀ x, ∃ log, s.party x = { crossingHeard x with log := log }) ∧
    ∃ x, crossingRoot (!x) ∈ s.toward x

theorem echoing_step (s : System) (h : Echoing s) : ∃ s', Deliver s s' ∧ Echoing s' := by
  obtain ⟨hparty, x, hroot⟩ := h
  obtain ⟨log, hlog⟩ := hparty x
  obtain ⟨before, after, hflight⟩ := List.append_of_mem hroot
  have hrecv := crossing_again x log
  rw [← hlog] at hrecv
  refine ⟨_, Deliver.mk s x before after _ 0 _ hflight hrecv, ?_, !x, ?_⟩
  · intro y
    by_cases hy : y = x
    · subst y
      exact ⟨_, Function.update_self _ _ _⟩
    · obtain ⟨log', hlog'⟩ := hparty y
      exact ⟨log', (Function.update_of_ne hy _ _).trans hlog'⟩
  · have hne : ¬ (!x) = x := by simp
    simp only [System.receive, if_neg hne, Bool.not_not, queued, hlog, List.drop_left]
    exact List.mem_append_right _ (List.mem_singleton_self _)

/-- The two root messages of crossing sets are delivered, and then echo. -/
theorem echoing_reached : ∃ s s', Deliver (started crossingParty) s ∧
    Deliver s s' ∧ Echoing s' := by
  have hfirst : Deliver (started crossingParty) _ := Deliver.mk (started crossingParty) true [] []
    (crossingRoot !true) 0 _ rfl (crossing_first true)
  have hflight : ((started crossingParty).receive true [] (crossingHeard true)).toward false =
      [] ++ crossingRoot (!false) :: queued (crossingParty true) (crossingHeard true) := rfl
  have hsecond := Deliver.mk _ false [] _ (crossingRoot !false) 0 _ hflight (crossing_first false)
  refine ⟨_, _, hfirst, hsecond, ?_, false, ?_⟩
  · have hlog : ∀ p : Party, p = { p with log := p.log } := fun _ => rfl
    intro x
    refine ⟨(crossingHeard x).log, Eq.trans ?_ (hlog (crossingHeard x))⟩
    simp only [System.receive]
    cases x with
    | false => rw [Function.update_self]
    | true => rw [Function.update_of_ne (by decide), Function.update_self]
  · exact crossing_queued true

/-- A step that is always possible again can be repeated forever. -/
theorem exists_run {Q : System → Prop} (hstep : ∀ s, Q s → ∃ s', Deliver s s' ∧ Q s') {s : System}
    (hs : Q s) : ∃ run : ℕ → System, run 0 = s ∧ ∀ n, Deliver (run n) (run (n + 1)) := by
  choose next hnext hkeep using hstep
  let state : ℕ → { s // Q s } := fun n =>
    Nat.rec ⟨s, hs⟩ (fun _ t => ⟨next t.1 t.2, hkeep t.1 t.2⟩) n
  exact ⟨fun n => (state n).1, rfl, fun n => hnext (state n).1 (state n).2⟩

/-- Generic non-empty key sets whose reconciliation never falls silent. -/
theorem reconciliation_echoes :
    Generic ((crossingKeys false).toFinset ∪ (crossingKeys true).toFinset) 1 ∧
      (∀ x, crossingKeys x ≠ []) ∧ ¬ FallsSilent crossingKeys := by
  refine ⟨?_, ?_, ?_⟩
  · exact generic_of_own_bits (crossingKeys false ++ crossingKeys true) _ 1
      (by decide) (by decide) (by simp) (by decide +kernel) (by decide +kernel)
  · intro x
    cases x <;> simp [crossingKeys]
  · rintro ⟨p, hbuild, hends⟩
    have hp : p = crossingParty := by
      funext x
      rw [crossingParty, hbuild x]
      rfl
    subst hp
    obtain ⟨s, s', hfirst, hsecond, hecho⟩ := echoing_reached
    obtain ⟨run, hrun, hforever⟩ := exists_run echoing_step hecho
    obtain ⟨n, hn⟩ := hends (fun n => match n with
      | 0 => started crossingParty
      | 1 => s
      | n + 2 => run n) rfl
    apply hn
    match n with
    | 0 => exact hfirst
    | 1 =>
      change Deliver s (run 0)
      rw [hrun]
      exact hsecond
    | n + 2 => exact hforever n

end Succinct.SyncSilence
