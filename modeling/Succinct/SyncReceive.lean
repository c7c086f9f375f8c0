import Succinct.SyncParty

/-!
Receiving one message, branch by branch. A message from the peer stands for
all keys of the peer with its prefix; whatever recv_key concludes from it
about a key is right, and the answers it queues are shorter than the
message, unless the two key sets cross.
-/
namespace Succinct.SyncReceive

open SyncKeys BitTries SyncBits SyncTree SyncProtocol SyncCompare SyncWalks SyncParty

/-- Two sets cross when at least two keys of each begin with some bit
string, all of the one set going on with one bit there and all of the other
with the opposite bit. -/
def Crossing (S T : Finset SyncKey) : Prop :=
  ∃ d, ∃ x ∈ S, ∃ y ∈ T, Agree bit d x y ∧ bit x d ≠ bit y d ∧
    (∀ k ∈ S, Agree bit d k x → bit k d = bit x d) ∧
    (∀ k ∈ T, Agree bit d k y → bit k d = bit y d) ∧
    (∃ k ∈ S, k ≠ x ∧ Agree bit d k x) ∧ ∃ k ∈ T, k ≠ y ∧ Agree bit d k y

/-- What a message brings about: the party stays right, and the messages it
queues cost less than the one received. -/
def Settles (j : ℕ) (U R P : Finset SyncKey) (own : Option KeyTrie) (p : Party) (price : ℕ)
    (result : Option Party) : Prop :=
  ∃ p' D' extra, result = some p' ∧ Knows j U R P own D' p' ∧ Pays p p' extra ∧
    (extra < price ∨ Crossing R P)

section Receive

variable {j : ℕ} {U R P : Finset SyncKey} {own : Option KeyTrie} (hG : Generic U j)

theorem settles_of_pays {p p' : Party} {D' : Option KeyTrie} {price : ℕ} {result : Option Party}
    (hres : result = some p') (hknows : Knows j U R P own D' p') (hpays : Pays p p' 0)
    (hprice : 0 < price) : Settles j U R P own p price result :=
  ⟨p', D', 0, hres, hknows, hpays, Or.inl hprice⟩

/-- Costs paid before a message is settled are paid. -/
theorem Settles.after {p q : Party} {price : ℕ} {result : Option Party} (hpays : Pays p q 0)
    (h : Settles j U R P own q price result) : Settles j U R P own p price result := by
  obtain ⟨p', D', extra, hres, hknows, hpays', hextra⟩ := h
  refine ⟨p', D', extra, hres, hknows, ?_, hextra⟩
  have htrans := hpays.trans hpays'
  rwa [Nat.zero_add] at htrans

/-- A node with a position has a second key. -/
theorem exists_other {lo : ℕ} {t : KeyTrie} (ht : Over U lo t) (hinner : position t ≠ 64)
    (k : SyncKey) (hk : k ∈ keys t) : ∃ k' ∈ keys t, k' ≠ k := by
  cases t with
  | leaf s k' => exact absurd rfl hinner
  | node s p l r =>
    by_contra hnone
    have hall : ∀ k' ∈ keys l ∪ keys r, k' = k := by
      intro k' hk'
      by_contra hne
      exact hnone ⟨k', hk', hne⟩
    have hl := hall _ (Finset.mem_union_left _ (first_mem l))
    have hr := hall _ (Finset.mem_union_right _ (first_mem r))
    have hbit := ht.wellFormed.2.2.1 _ (first_mem l)
    rw [hl, ← hr, ht.wellFormed.2.2.2.1 _ (first_mem r)] at hbit
    exact Bool.noConfusion hbit

/-- Two inner nodes that part before the position of either make their sets
cross. -/
theorem crossing_of_mismatch {lo lo' d : ℕ} {t M : KeyTrie} (ht : Own j U R lo t)
    (hM : Own j U P lo' M) (hlo : lo ≤ d) (hlo' : lo' ≤ d) (hd : d < position t)
    (hd' : d < position M) (hagree : Agree bit d (first t) (first M))
    (hne : bit (first t) d ≠ bit (first M) d) (hinner : position t ≠ 64)
    (hinner' : position M ≠ 64) : Crossing R P := by
  have hR : ∀ k ∈ keys t, k ∈ R := fun k hk => ((ht.mem_iff k).mp hk).1
  have hP : ∀ k ∈ keys M, k ∈ P := fun k hk => ((hM.mem_iff k).mp hk).1
  obtain ⟨x', hx', hxne⟩ := exists_other ht.inside hinner _ (first_mem t)
  obtain ⟨y', hy', hyne⟩ := exists_other hM.inside hinner' _ (first_mem M)
  have hone : ∀ {S : Finset SyncKey} {lo : ℕ} {t : KeyTrie}, Own j U S lo t → lo ≤ d →
      d < position t → ∀ k ∈ S, Agree bit d k (first t) → bit k d = bit (first t) d := by
    intro S lo t ht hlo hd k hk hkx
    exact keys_agree t ht.inside.wellFormed k ((ht.mem_iff k).mpr ⟨hk, hkx.mono hlo⟩) d hd
  refine ⟨d, first t, hR _ (first_mem t), first M, hP _ (first_mem M), hagree, hne,
    hone ht hlo hd, hone hM hlo' hd', ⟨x', hR _ hx', hxne, ?_⟩, ⟨y', hP _ hy', hyne, ?_⟩⟩
  · exact (keys_agree t ht.inside.wellFormed x' hx').mono (Nat.le_of_lt hd)
  · exact (keys_agree M hM.inside.wellFormed y' hy').mono (Nat.le_of_lt hd')

theorem weight_lt {p q : ℕ} (hp : p < q) (hq : q ≤ 64) :
    3 ^ (64 - q) + 3 ^ (64 - q) < 3 ^ (64 - p) := by
  have hpow : 3 ^ (64 - q) * 3 ≤ 3 ^ (64 - p) := by
    rw [← pow_succ]
    exact Nat.pow_le_pow_right (by omega) (by omega)
  have hpos : 0 < 3 ^ (64 - q) := by positivity
  omega

/-- A summary of the peer's keys M, and what is left of it when the known
differences E with its prefix are taken out. -/
structure Heard (j : ℕ) (U P : Finset SyncKey) (lo : ℕ) (M : KeyTrie) (E : Finset SyncKey)
    (m : KeyMessage) : Prop where
  own : Own j U P lo M
  bits : PrefixOf j U m (first M)
  len : m.prefixLen = position M
  minLen : m.minPrefixLen = lo
  stored : m.stored = true
  inner : position M ≠ 64 → m.key = summary (position M) (first M) (symmDiff (keys M) E)
  leaf : position M = 64 → m = message lo M

def Taken (D : Option KeyTrie) (M : KeyTrie) (E : Finset SyncKey) : Prop :=
  ∀ k, k ∈ E ↔ k ∈ keysOf D ∧ Agree bit (position M) k (first M)

theorem taken_subset {D : Option KeyTrie} {p : Party} (h : Knows j U R P own D p) {M : KeyTrie}
    {E : Finset SyncKey} (hE : Taken D M E) : E ⊆ U := by
  intro k hk
  have hmem := ((hE k).mp hk).1
  cases D with
  | none => exact absurd hmem (Finset.notMem_empty _)
  | some t => exact (h.inside t rfl).mem k hmem

include hG

theorem Heard.standsFor {lo : ℕ} {M : KeyTrie} {E : Finset SyncKey} {m : KeyMessage}
    (h : Heard j U P lo M E m) (hp : position M < 8 * j) :
    StandsFor j m (symmDiff (keys M) E) := by
  have hle := hG.le
  refine ⟨?_, ?_⟩
  · intro i hlow hhigh
    rw [h.inner (by omega), bit_summary _ _ _ _ hhigh, if_neg (by omega)]
  · rw [xorBegin, h.len, if_neg]
    · omega
    · change ¬ position M = 64
      omega

/-- Nothing is left of a summary whose later bytes are blank. -/
theorem Heard.blank {lo : ℕ} {M : KeyTrie} {E : Finset SyncKey} {m : KeyMessage}
    (h : Heard j U P lo M E m) (hp : position M < 8 * j) (hE : E ⊆ U)
    (hblank : isBlank m = true) :
    keys M = E := by
  have hbytes := of_decide_eq_true hblank
  have hsub : symmDiff (keys M) E ⊆ U := by
    intro k hk
    rcases Finset.mem_symmDiff.mp hk with ⟨hk, -⟩ | ⟨hk, -⟩
    · exact h.own.inside.mem k hk
    · exact hE hk
  apply symmDiff_eq_bot.mp
  apply eq_empty_of_sum hG _ hsub
  intro i hlow hhigh
  rw [← (h.standsFor hG hp).sum i hlow hhigh, bit_eq _ i hhigh, hbytes ⟨i / 8, by omega⟩ (by
    rw [h.len]
    change position M / 8 + 1 ≤ i / 8
    omega)]
  exact Nat.zero_testBit _

/-- A subtree that explains the difference between what is left of a summary
and our own node holds keys that the peer lacks and that are not known yet. -/
theorem found_unknown {lo lo' lo'' p : ℕ} {l r M T : KeyTrie}
    {E : Finset SyncKey} {m : KeyMessage}
    (hm : Heard j U P lo' M E m) (hp : p < 8 * j) (hM : position M = p)
    (ht : Own j U R lo (.node true p l r))
    (hours : ∀ k ∈ keys l ∪ keys r, k ∈ R ∧ Agree bit p k (first M))
    (htheirs : ∀ k, k ∈ P → Agree bit p k (first M) → k ∈ keys M)
    {D : Option KeyTrie} {party : Party} (h : Knows j U R P own D party) (hE : Taken D M E)
    (hone : ∀ k ∈ E, ¬ (k ∈ R ∧ k ∈ P)) (hT : Own j U R lo'' T) (hTsub : keys T ⊆ keys l ∪ keys r)
    (hcmp : cmpMessage { m with
      key := summary p (first M) (symmDiff (symmDiff (keys M) E) (keys l ∪ keys r)) }
      (message lo'' T) = true) : ∀ k ∈ keys T, k ∉ P ∧ k ∉ keysOf D := by
  have hle := hG.le
  have hsub := taken_subset h hE
  have hlen : m.prefixLen = p := hm.len.trans hM
  have hstands : StandsFor j { m with
      key := summary p (first M) (symmDiff (symmDiff (keys M) E) (keys l ∪ keys r)) }
      (symmDiff (symmDiff (keys M) E) (keys l ∪ keys r)) := by
    refine ⟨?_, ?_⟩
    · intro i hlow hhigh
      rw [bit_summary _ _ _ _ hhigh, if_neg (by omega)]
    · change (if m.prefixLen = KEY_LEN_BITS then m.minPrefixLen else m.prefixLen) ≤ 8 * j
      rw [hlen, if_neg]
      · omega
      · change ¬ p = 64
        omega
  have hall : symmDiff (symmDiff (keys M) E) (keys l ∪ keys r) ⊆ U := by
    intro k hk
    simp only [Finset.mem_symmDiff] at hk
    rcases hk with ⟨⟨hk, -⟩ | ⟨hk, -⟩, -⟩ | ⟨hk, -⟩
    · exact hm.own.inside.mem k hk
    · exact hsub hk
    · exact ht.inside.mem k hk
  have heq := eq_of_cmpMessage hG _ _ _ _ hstands (standsFor_message hG T hT.inside hT.short) hall
    hT.inside.mem hcmp
  -- a key of ours in the difference is in M exactly when it is in E
  have hboth : ∀ k ∈ keys T, k ∈ keys M ↔ k ∈ E := by
    intro k hk
    have hkt := hTsub hk
    have hks := heq ▸ hk
    have hnot : ¬ k ∈ symmDiff (keys M) E := by
      rcases Finset.mem_symmDiff.mp hks with ⟨-, hno⟩ | ⟨-, hno⟩
      · exact absurd hkt hno
      · exact hno
    rw [Finset.mem_symmDiff] at hnot
    tauto
  have hnotP : ∀ k ∈ keys T, k ∉ P := by
    intro k hk hkP
    have hkR := hours k (hTsub hk)
    exact hone k ((hboth k hk).mp (htheirs k hkP hkR.2)) ⟨hkR.1, hkP⟩
  have hnotD : ∀ k ∈ keys T, k ∉ keysOf D := by
    intro k hk hkD
    have hkR := hours k (hTsub hk)
    have hkE : k ∈ E := (hE k).mpr ⟨hkD, hM ▸ hkR.2⟩
    have hkM := (hboth k hk).mpr hkE
    exact hone k hkE ⟨hkR.1, ((hm.own.mem_iff k).mp hkM).1⟩
  exact fun k hk => ⟨hnotP k hk, hnotD k hk⟩

omit hG in
/-- The difference between what is left of a summary and our own node. -/
theorem testMessage_eq {lo' : ℕ} {l M : KeyTrie} (lo : ℕ) (r : KeyTrie) {E : Finset SyncKey}
    {m : KeyMessage} (hm : Heard j U P lo' M E m) (hp : position M < 8 * j) (hle : 8 * j ≤ 63)
    (hagree : Agree bit (position M) (first l) (first M)) :
    syncXor (message lo (.node true (position M) l r)).key m = some { m with
      key := summary (position M) (first M)
        (symmDiff (symmDiff (keys M) E) (keys l ∪ keys r)) } := by
  have hkey : m.key = summary (position M) (first M) (symmDiff (keys M) E) := hm.inner (by omega)
  have hours : (message lo (.node true (position M) l r)).key =
      summary (position M) (first M) (keys l ∪ keys r) := summary_congr _ _ _ _ hagree
  rw [hours]
  apply syncXor_summary _ (first M) _ _ m hm.len (by omega)
  rw [hkey]
  exact carries_summary _ _ _

/-- The difference between what is left of a summary and our own node at
the same position is explained by one of our subtrees, or our children are
queued. -/
theorem answerSame_spec {lo lo' p : ℕ} {l r M : KeyTrie} {E : Finset SyncKey} {m : KeyMessage}
    (hm : Heard j U P lo' M E m) (hp : p < 8 * j) (hM : position M = p)
    (ht : Own j U R lo (.node true p l r)) (hagree : Agree bit p (first l) (first M))
    (hours : ∀ k ∈ keys l ∪ keys r, k ∈ R ∧ Agree bit p k (first M))
    (htheirs : ∀ k, k ∈ P → Agree bit p k (first M) → k ∈ keys M)
    {D : Option KeyTrie} {party : Party} (h : Knows j U R P own D party) (hE : Taken D M E)
    (hone : ∀ k ∈ E, ¬ (k ∈ R ∧ k ∈ P)) :
    Settles j U R P own party (3 ^ (64 - p)) (do
      let testMessage ← syncXor (message lo (.node true p l r)).key m
      match ← testLoop testMessage (KEY_LEN_BITS + 2) (embed lo (.node true p l r)) p with
      | .mk tm t0 t1 => peerMissingLeafNodes true (.mk tm t0 t1) NODE_CHILDREN party
      | .null => some (queueChild (queueChild party (embed (p + 1) l)) (embed (p + 1) r))) := by
  have hle := hG.le
  have hsub := taken_subset h hE
  have hprice : 0 < 3 ^ (64 - p) := by positivity
  have hxor := testMessage_eq lo r hm (by omega) hle (by rw [hM]; exact hagree)
  rw [hM] at hxor
  rw [hxor]
  simp only [Option.bind_eq_bind, Option.bind_some]
  rcases testLoop_spec hG { m with
      key := summary p (first M) (symmDiff (symmDiff (keys M) E) (keys l ∪ keys r)) }
    (KEY_LEN_BITS + 2) lo p _ ht (Nat.le_refl _) (by change 65 ≤ 66 + p; omega) with
    hnull | ⟨lo'', T, hfound, hT, hTsub, hcmp⟩
  · rw [hnull]
    have hl := ht.side hp false
    have hr := ht.side hp true
    change Own j U R (p + 1) l at hl
    change Own j U R (p + 1) r at hr
    obtain ⟨a0, a1, hl0⟩ := embed_message (p + 1) l
    obtain ⟨b0, b1, hr0⟩ := embed_message (p + 1) r
    have hrun : queueChild (queueChild party (embed (p + 1) l)) (embed (p + 1) r) =
        (party.queue (message (p + 1) l)).queue (message (p + 1) r) := by
      rw [hl0, hr0]
      rfl
    rw [Option.bind_some, hrun]
    refine ⟨_, D, _, rfl, (h.queue _ (Sent.node _ l hl)).queue _ (Sent.node _ r hr),
      (pays_queue _ _).trans (pays_queue _ _), Or.inl ?_⟩
    have hl64 := position_le_64 hG hl.inside
    have hr64 := position_le_64 hG hr.inside
    have hlp := position_ge hl.inside.wellFormed (by omega)
    have hrp := position_ge hr.inside.wellFormed (by omega)
    rw [weight_message _ l hl64, weight_message _ r hr64]
    have hlw := weight_lt (show p < position l by omega) hl64
    have hrw := weight_lt (show p < position r by omega) hr64
    omega
  · have hunknown := found_unknown hG hm hp hM ht hours htheirs h hE hone hT hTsub hcmp
    obtain ⟨p', D', hrun, hk, -, hpay⟩ := peerMissingLeafNodes_spec hG true lo'' T hT
      (fun k hk => (hunknown k hk).1) h (fun _ k hk => (hunknown k hk).2)
    obtain ⟨c0, c1, hembed⟩ := embed_message lo'' T
    rw [hfound, hembed]
    rw [hembed] at hrun
    exact settles_of_pays hrun hk hpay hprice

/-- Nothing of a node of ours is known or in the peer's set when nothing is
left of the summary of its prefix. -/
theorem blank_unknown {lo' : ℕ} {t M : KeyTrie} {E : Finset SyncKey} {m : KeyMessage}
    (hm : Heard j U P lo' M E m) (hp : position M < 8 * j)
    (hours : ∀ k ∈ keys t, k ∈ R ∧ Agree bit (position M) k (first M))
    (htheirs : ∀ k, k ∈ P → Agree bit (position M) k (first M) → k ∈ keys M)
    {D : Option KeyTrie} {p : Party} (h : Knows j U R P own D p) (hE : Taken D M E)
    (hblank : isBlank m = true) : ∀ k ∈ keys t, k ∉ P ∧ k ∉ keysOf D := by
  have heq := hm.blank hG hp (taken_subset h hE) hblank
  have hone : ∀ k ∈ E, ¬ (k ∈ R ∧ k ∈ P) := fun k hk => h.not_both ((hE k).mp hk).1
  intro k hk
  refine ⟨?_, ?_⟩
  · intro hkP
    have hkE : k ∈ E := heq ▸ htheirs k hkP (hours k hk).2
    exact hone k hkE ⟨(hours k hk).1, hkP⟩
  · intro hkD
    have hkE : k ∈ E := (hE k).mpr ⟨hkD, (hours k hk).2⟩
    have hkM : k ∈ keys M := heq ▸ hkE
    exact hone k hkE ⟨(hours k hk).1, ((hm.own.mem_iff k).mp hkM).1⟩

/-- Our node has all the prefix bits of the summary. -/
theorem answerNode_spec {lo lo' : ℕ} {t M : KeyTrie} {E : Finset SyncKey} {m : KeyMessage}
    (hm : Heard j U P lo' M E m) (hp : position M < 8 * j) (ht : Own j U R lo t)
    (hpos : position M ≤ position t)
    (hagree : Agree bit (position M) (first t) (first M)) {D : Option KeyTrie} {p : Party}
    (h : Knows j U R P own D p) (hE : Taken D M E) (c0 c1 : Node)
    (hembed : embed lo t = .mk (message lo t) c0 c1) :
    Settles j U R P own p (3 ^ (64 - position M))
      (answerNode p m (isBlank m) (message lo t) c0 c1 (position M)) := by
  have hle := hG.le
  have hsub := taken_subset h hE
  have hprice : 0 < 3 ^ (64 - position M) := by positivity
  have hours : ∀ k ∈ keys t, k ∈ R ∧ Agree bit (position M) k (first M) := fun k hk =>
    ⟨((ht.mem_iff k).mp hk).1, ht.agree_of_mem hpos hagree hk⟩
  have htheirs : ∀ k, k ∈ P → Agree bit (position M) k (first M) → k ∈ keys M := fun k hk hx =>
    (hm.own.mem_iff k).mpr ⟨hk, hx.mono (position_ge hm.own.inside.wellFormed (by
      have := hm.own.short
      omega))⟩
  have hone : ∀ k ∈ E, ¬ (k ∈ R ∧ k ∈ P) := fun k hk => h.not_both ((hE k).mp hk).1
  unfold answerNode
  by_cases hblank : isBlank m = true
  · rw [if_pos hblank]
    have hunknown := blank_unknown hG hm hp hours htheirs h hE hblank
    obtain ⟨p', D', hrun, hk, -, hpay⟩ := peerMissingLeafNodes_spec hG true lo t ht
      (fun k hk => (hunknown k hk).1) h (fun _ k hk => (hunknown k hk).2)
    rw [← hembed]
    exact settles_of_pays hrun hk hpay hprice
  · rw [if_neg hblank, message_prefixLen, hm.len]
    by_cases hlonger : position t > position M
    · rw [if_pos hlonger]
      refine ⟨_, D, _, rfl, h.queue _ (Sent.node lo t ht), pays_queue p _, Or.inl ?_⟩
      have h64 := position_le_64 hG ht.inside
      rw [weight_message lo t h64]
      have := weight_lt hlonger h64
      omega
    · rw [if_neg hlonger]
      cases t with
      | leaf s k =>
        change ¬ 64 > position M at hlonger
        omega
      | node s q l r =>
        have hq : q = position M := by
          change position M ≤ q at hpos
          change ¬ q > position M at hlonger
          omega
        have hs : s = true := ht.stored.1
        subst s q
        have hchildren : c0 = embed (position M + 1) l ∧ c1 = embed (position M + 1) r := by
          rw [embed] at hembed
          injection hembed with _ h0 h1
          exact ⟨h0.symm, h1.symm⟩
        rw [← hembed, hchildren.1, hchildren.2]
        exact answerSame_spec hG hm hp rfl ht hagree hours htheirs h hE hone

theorem eq_leaf {lo : ℕ} {t : KeyTrie} (ht : Over U lo t) (h64 : position t = 64) :
    ∃ s k, t = .leaf s k := by
  cases t with
  | leaf s k => exact ⟨s, k, rfl⟩
  | node s q l r =>
    have hq := ht.position_lt hG.spread
    have hle := hG.le
    change q = 64 at h64
    omega

/-- The prefix of our node leaves that of the summary at bit d. -/
theorem answerMismatch_spec {lo lo' d : ℕ} {t M : KeyTrie} {E : Finset SyncKey} {m : KeyMessage}
    (hm : Heard j U P lo' M E m) (ht : Own j U R lo t) (hlo : lo ≤ d) (hd : d < position t)
    (hd' : d < position M) (hagree : Agree bit d (first t) (first M))
    (hne : bit (first t) d ≠ bit (first M) d) {D : Option KeyTrie} {p : Party}
    (h : Knows j U R P own D p) (c0 c1 : Node) (hembed : embed lo t = .mk (message lo t) c0 c1) :
    Settles j U R P own p (3 ^ (64 - position M))
      (answerMismatch p m (message lo t) c0 c1 d) := by
  have hle := hG.le
  have h64 := position_le_64 hG hm.own.inside
  have hprice : 0 < 3 ^ (64 - position M) := by positivity
  have habsent : first M ∉ R := by
    intro hR
    have hmem := ht.mem_of_agree hlo hagree hR (fun _ _ => rfl)
    exact hne (keys_agree t ht.inside.wellFormed _ hmem d hd).symm
  have hP : first M ∈ P := ((hm.own.mem_iff _).mp (first_mem M)).1
  -- the last step, for a message about one key
  have hlast : ∀ (q : Party) (D' : Option KeyTrie), Knows j U R P own D' q →
      position M = 64 → Settles j U R P own q (3 ^ (64 - position M)) (peerAddKey q m) := by
    intro q D' hq hleaf
    have hmsg := hm.leaf hleaf
    obtain ⟨s, k, rfl⟩ := eq_leaf hG hm.own.inside hleaf
    obtain rfl : s = true := hm.own.stored
    subst m
    obtain ⟨q', D'', hrun, hk, -, hpay⟩ := peerAddKey_spec hG hq (message lo' (.leaf true k))
      ⟨rfl, hm.own.short⟩ hm.bits.mem hP habsent
    exact settles_of_pays hrun hk hpay hprice
  unfold answerMismatch
  rw [hm.minLen, hm.stored, hm.len]
  by_cases hrange : d ≥ lo' ∧ true = true
  · rw [if_pos hrange]
    have hnotP : ∀ k ∈ keys t, k ∉ P := by
      intro k hk
      have hkd := keys_agree t ht.inside.wellFormed k hk
      apply hm.own.absent hrange.1 hd'
      · exact (hkd.mono (Nat.le_of_lt hd)).trans hagree
      · rw [hkd d hd]
        exact hne
    obtain ⟨q, D', hrun, hk, -, hpay⟩ := peerMissingLeafNodes_spec hG false lo t ht hnotP h
      (fun hno => Bool.noConfusion hno)
    rw [← hembed, hrun]
    by_cases hleaf : position M = 64
    · have hif : position M = KEY_LEN_BITS := hleaf
      have hrest := (hlast q D' hk hleaf).after hpay
      rw [hif] at hrest
      simp only [Option.bind_eq_bind, Option.bind_some, ne_eq, hif, not_true, if_false, if_true]
      exact hrest
    · have hif : ¬ position M = KEY_LEN_BITS := hleaf
      simp only [Option.bind_eq_bind, Option.bind_some, ne_eq, hif, not_false_eq_true, if_true,
        if_false]
      have hqueue := pays_queue q (message lo t)
      have htrans := hpay.trans hqueue
      rw [Nat.zero_add] at htrans
      refine ⟨_, D', _, rfl, hk.queue _ (Sent.node lo t ht), htrans, ?_⟩
      by_cases hinner : position t = 64
      · left
        rw [weight_message lo t (Nat.le_of_eq hinner), hinner]
        have := weight_lt (show position M < 64 by omega) (Nat.le_refl 64)
        omega
      · right
        exact crossing_of_mismatch ht hm.own hlo hrange.1 hd hd' hagree hne hinner hleaf
  · rw [if_neg hrange]
    simp only [Option.bind_eq_bind, Option.bind_some]
    by_cases hleaf : position M = 64
    · have hif : position M = KEY_LEN_BITS := hleaf
      rw [if_pos hif]
      exact hlast p D h hleaf
    · have hif : ¬ position M = KEY_LEN_BITS := hleaf
      rw [if_neg hif]
      exact settles_of_pays rfl h (Pays.refl p) hprice

def PeerNode (U R P : Finset SyncKey) (M : KeyTrie) (node : Node) : Prop :=
  node = .null ∨ ∃ lo t, node = embed lo t ∧ Over U lo t ∧
    (∀ k ∈ keys t, Agree bit (position M) k (first M)) ∧ ∀ e ∈ leaves t, LabelOk R P e

/-- Nothing is taken back when the peer has what we have. -/
theorem received_none {lo lo' i : ℕ} {t M : KeyTrie} {node : Node} (hM : Own j U P lo' M)
    (hnode : PeerNode U R P M node) (ht : Own j U R lo t) (hlo : lo ≤ i) (him : i ≤ position M)
    (hagree : Agree bit i (first t) (first M)) (hkeys : keys M = keys t) (p : Party) :
    peerHasReceivedAll node p = some (0, p) := by
  rcases hnode with rfl | ⟨lo'', T, rfl, hT, hsub, hlabels⟩
  · rfl
  · apply peerHasReceivedAll_spec hG lo'' T hT
    intro e he
    by_contra hstored
    have hlabel := hlabels e he
    rw [LabelOk, if_pos (by simpa using hstored)] at hlabel
    have hk := hsub e.2 ((mem_keys_iff T e.2).mpr ⟨e.1, he⟩)
    have hmem := ht.mem_of_agree hlo hagree hlabel.1 (hk.mono him)
    exact hlabel.2 ((hM.mem_iff _).mp (hkeys ▸ hmem)).1

/-- Messages about one key compare equal. -/
theorem cmpMessage_of_first {lo lo' : ℕ} {t M : KeyTrie} (ht : Over U lo t) (hM : Over U lo' M)
    (hlo : lo ≤ 8 * j) (hlo' : lo' ≤ 8 * j) (ht64 : position t = 64) (hM64 : position M = 64)
    (heq : first t = first M) : cmpMessage (message lo' M) (message lo t) = true := by
  have hle := hG.le
  obtain ⟨s, k, rfl⟩ := eq_leaf hG ht ht64
  obtain ⟨s', k', rfl⟩ := eq_leaf hG hM hM64
  apply cmpMessage_leaf _ _ rfl rfl
  · exact heq.symm
  · change lo' ≤ 64
    omega
  · change lo ≤ 64
    omega

/-- One of our inner nodes is passed on the way along a message. -/
theorem recvStep_node {lo lo' q : ℕ} {s : Bool} {l r M : KeyTrie} {E : Finset SyncKey}
    {m : KeyMessage} (hm : Heard j U P lo' M E m) (ht : Own j U R lo (.node s q l r))
    (hlt : q < position M) (hagree : Agree bit q (first l) (first M)) {D : Option KeyTrie}
    {p : Party} (h : Knows j U R P own D p) (hE : position M ≠ 64 → Taken D M E)
    (next : Party → Node → ℕ → Option Party)
    (hnext : ∀ p' D', Knows j U R P own D' p' → (position M ≠ 64 → Taken D' M E) →
      Settles j U R P own p' (3 ^ (64 - position M))
        (next p' (embed (q + 1) (side (bit (first M) q) l r)) (q + 1))) :
    Settles j U R P own p (3 ^ (64 - position M)) (do
      guard (q = q)
      let p ← if m.minPrefixLen ≤ q ∧ m.stored then
          peerMissingLeafNodes false (embed lo (.node s q l r)) (bit (first M) q).toNat p
        else some p
      match (embed lo (.node s q l r)).child (bit (first M) q).toNat with
      | .null => if m.prefixLen = KEY_LEN_BITS then peerAddKey p m else none
      | .mk cm d0 d1 => next p (.mk cm d0 d1) (q + PREFIX_STEP_BITS)) := by
  obtain ⟨d0, d1, hside⟩ := embed_message (q + 1) (side (bit (first M) q) l r)
  rw [embed_child, hside, hm.minLen, hm.stored]
  rw [hside] at hnext
  simp only [guard_true, Option.bind_eq_bind, Option.pure_def, Option.bind_some, and_true]
  by_cases hrange : lo' ≤ q
  · have hother : ∀ k ∈ keys (side (!bit (first M) q) l r), Agree bit q k (first M) ∧
        bit k q ≠ bit (first M) q := by
      intro k hk
      have hmem := (ht.inside.mem_side _ k).mp hk
      refine ⟨ht.agree_of_mem (Nat.le_refl q) hagree hmem.1, ?_⟩
      rw [hmem.2]
      simp
    obtain ⟨p', D', hrun, hk, hkeys, hpay⟩ := peerMissingSiblings_spec hG lo q s
      (bit (first M) q) l r ht (fun k hk =>
        hm.own.absent hrange hlt (hother k hk).1 (hother k hk).2) h
    rw [if_pos hrange, hrun, Option.bind_some]
    refine (hnext p' D' hk ?_).after hpay
    intro hinner k
    rw [hE hinner k, hkeys, Finset.mem_union]
    refine ⟨fun hx => ⟨Or.inl hx.1, hx.2⟩, ?_⟩
    rintro ⟨hx | hx, hkM⟩
    · exact ⟨hx, hkM⟩
    · exact absurd (hkM q hlt) (hother k hx).2
  · rw [if_neg hrange]
    exact hnext p D h hE

theorem recvLoop_node {lo' : ℕ} {M : KeyTrie} {E : Finset SyncKey} {m : KeyMessage} {node : Node}
    (hm : Heard j U P lo' M E m) (hnode : PeerNode U R P M node) (fuel lo i : ℕ) (t : KeyTrie)
    (ht : Own j U R lo t) (hlo : lo ≤ i) (him : i ≤ position M) (hpos : i ≤ position t)
    (hagree : Agree bit i (first t) (first M)) (hfuel : 65 ≤ fuel + i)
    {D : Option KeyTrie} {p : Party} (h : Knows j U R P own D p)
    (hE : position M ≠ 64 → Taken D M E) :
    Settles j U R P own p (3 ^ (64 - position M))
      (recvLoop (message lo' M) m node (isBlank m) fuel p (embed lo t) i) := by
  have hle := hG.le
  have hprice : 0 < 3 ^ (64 - position M) := by positivity
  have hMstands := standsFor_message hG M hm.own.inside hm.own.short
  induction fuel generalizing lo i t D p with
  | zero =>
    have := position_le_64 hG hm.own.inside
    omega
  | succ fuel ih =>
    obtain ⟨c0, c1, hembed⟩ := embed_message lo t
    have hstored : (message lo' M).stored = true := by
      cases M with
      | leaf s k => exact hm.own.stored
      | node s q l r => exact hm.own.stored.1
    rw [hembed, recvLoop]
    by_cases hsame : cmpMessage (message lo' M) (message lo t) = true
    · have hkeys :=
        eq_of_cmpMessage hG _ _ _ _ hMstands (standsFor_message hG t ht.inside ht.short)
        hm.own.inside.mem ht.inside.mem hsame
      rw [if_pos hsame, if_pos hstored, received_none hG hm.own hnode ht hlo him hagree hkeys]
      exact settles_of_pays rfl h (Pays.refl p) hprice
    · rw [if_neg hsame]
      by_cases hrest : cmpMessage m (message lo t) = true
      · rw [if_pos hrest]
        exact settles_of_pays rfl h (Pays.refl p) hprice
      · have hnleaf : m.prefixLen = 64 → position t = 64 → first t ≠ first M := by
          intro hm64 ht64 heq
          exact hsame (cmpMessage_of_first hG ht.inside hm.own.inside ht.short hm.own.short ht64
            (hm.len ▸ hm64) heq)
        have hi := walk_lt hG hm.bits ht.inside hnleaf hagree (hm.len ▸ him) hpos
        rw [if_neg hrest]
        by_cases hstop : m.prefixLen ≤ i
        · have hiM : i = position M := by
            rw [hm.len] at hstop
            omega
          subst i
          rw [if_pos hstop]
          exact answerNode_spec hG hm hi ht hpos hagree h (hE (by omega)) c0 c1 hembed
        · rw [if_neg hstop, syncGetBits_eq m.key i (by omega)]
          simp only [Option.bind_eq_bind, Option.bind_some]
          rcases compareLoop_spec hG hm.bits (KEY_LEN_BITS + 1) lo i t ht.inside hnleaf hagree
            (hm.len ▸ him) hpos (by change 65 ≤ 65 + i; omega) with
            ⟨d, hrun, hdm, hdt, hid, hagree', hne⟩ | ⟨q, hrun, hq, hagree'⟩
          · rw [hrun]
            rw [hm.len] at hdm
            exact answerMismatch_spec hG hm ht (by omega) hdt hdm hagree' hne h c0 c1 hembed
          · rw [hrun, Option.bind_some]
            rw [hm.len] at hq hstop
            simp only [message_prefixLen]
            by_cases hfar : position M ≤ q
            · rw [if_pos hfar, ← hembed]
              exact ih lo q t ht (by omega) (by omega) (by omega) hagree' (by omega) h hE
            · rw [if_neg hfar]
              cases t with
              | leaf s k =>
                have := position_le_64 hG hm.own.inside
                change q = min _ 64 at hq
                omega
              | node s q' l r =>
                obtain rfl : q = q' := by
                  change q = min _ q' at hq
                  omega
                have hlt : q < position M := by omega
                have hshort := ht.inside.position_lt hG.spread
                have hbit : bit m.key q = bit (first M) q :=
                  hm.bits.bits q (by rw [hm.len]; exact hlt) (by omega)
                rw [hbit, ← hembed]
                exact recvStep_node hG hm ht hlt hagree' h hE _ (fun p' D' hk hT =>
                  ih (q + 1) (q + 1) _ (ht.side hshort _) (Nat.le_refl _) hlt
                    (position_ge (ht.inside.side _).wellFormed (by omega))
                    (ht.inside.agree_side hagree') (by omega) hk hT)

/-- An acknowledged key is one the peer lacks. -/
theorem recvLoop_ack {lo' : ℕ} {k : SyncKey} (hlo' : lo' ≤ 8 * j) (hR : k ∈ R) (hP : k ∉ P)
    (node : Node) (blank : Bool) (fuel lo i : ℕ) (t : KeyTrie) (ht : Own j U R lo t)
    (hk : k ∈ keys t) (hi64 : i ≤ 64) (hpos : i ≤ position t) (hfuel : 65 ≤ fuel + i)
    {D : Option KeyTrie} {p : Party} (h : Knows j U R P own D p) :
    Settles j U R P own p 1 (recvLoop (message lo' (.leaf false k)) (message lo' (.leaf false k))
      node blank fuel p (embed lo t) i) := by
  have hle := hG.le
  have hleaf : LeafLike j (message lo' (.leaf false k)) := ⟨rfl, hlo'⟩
  have hbits : ∀ {lo : ℕ} {t : KeyTrie}, Own j U R lo t → k ∈ keys t →
      PrefixOf j U (message lo' (.leaf false k)) k :=
    fun ht hk => ⟨ht.inside.mem k hk, fun _ _ _ => rfl, Or.inl rfl⟩
  have hstored : ¬ (message lo' (.leaf false k)).stored = true := Bool.false_ne_true
  induction fuel generalizing lo i t with
  | zero => omega
  | succ fuel ih =>
    obtain ⟨c0, c1, hembed⟩ := embed_message lo t
    have hU := ht.inside.mem k hk
    rw [hembed, recvLoop]
    by_cases hsame : cmpMessage (message lo' (.leaf false k)) (message lo t) = true
    · have hkeys : {k} = keys t := eq_of_cmpMessage hG _ _ _ _ hleaf.standsFor
        (standsFor_message hG t ht.inside ht.short)
          (Finset.singleton_subset_iff.mpr hU) ht.inside.mem
        hsame
      rw [if_pos hsame, if_neg hstored]
      cases t with
      | node s q l r => exact absurd hkeys.symm (not_singleton bit ht.inside.wellFormed k)
      | leaf s k' =>
        obtain rfl : k = k' := Finset.singleton_injective hkeys
        rcases peerIsMissing_spec hG h (message lo (.leaf s k)) ⟨rfl, ht.short⟩ hU hR hP false
          (fun hno => Bool.noConfusion hno) with ⟨-, hres⟩ | ⟨-, p', hres, hknows, hlog, hcount⟩
        · rw [hres]
          exact settles_of_pays rfl h (Pays.refl p) Nat.one_pos
        · rw [hres]
          have hlearn : known p ≤ known p' := by omega
          have hpays : Pays p p' 0 := ⟨hlearn, _, hlog, hlearn⟩
          exact settles_of_pays rfl hknows hpays Nat.one_pos
    · have hagree : ∀ n, n ≤ position t → Agree bit n (first t) k := fun n hn =>
        ((keys_agree t ht.inside.wellFormed k hk).mono hn).symm
      have hinner : ¬ position t = 64 := by
        intro h64
        obtain ⟨s, k', rfl⟩ := eq_leaf hG ht.inside h64
        obtain rfl : k = k' := Finset.mem_singleton.mp hk
        exact hsame (cmpMessage_leaf _ _ rfl rfl rfl (by change lo' ≤ 64; omega)
          (by change lo ≤ 64; have := ht.short; omega))
      cases t with
      | leaf s k' => exact absurd rfl hinner
      | node s q l r =>
        have hq := ht.inside.position_lt hG.spread
        have hiq : i ≤ q := hpos
        have hstop : ¬ (message lo' (.leaf false k)).prefixLen ≤ i := by
          change ¬ 64 ≤ i
          omega
        rw [if_neg hsame, if_neg hsame, if_neg hstop, syncGetBits_eq _ i (by omega)]
        simp only [Option.bind_eq_bind, Option.bind_some]
        rcases compareLoop_spec hG (hbits ht hk) (KEY_LEN_BITS + 1) lo i _ ht.inside
          (fun _ h64 => absurd h64 hinner) (hagree i hpos) hi64 hpos
          (by change 65 ≤ 65 + i; omega) with ⟨d, -, -, hd, -, -, hne⟩ | ⟨q', hrun, hq', -⟩
        · exact absurd (keys_agree _ ht.inside.wellFormed k hk d hd).symm hne
        · obtain rfl : q' = q := by
            change q' = min 64 q at hq'
            omega
          have hfar : ¬ position (.leaf false k : KeyTrie) ≤ q' := by
            change ¬ 64 ≤ q'
            omega
          obtain ⟨d0, d1, hside⟩ := embed_message (q' + 1) (side (bit k q') l r)
          rw [hrun, Option.bind_some, ← hembed]
          simp only [message_prefixLen, if_neg hfar, if_neg (fun hx : _ ∧ _ => hstored hx.2)]
          have hchild : (embed lo (.node s q' l r)).child
              (bit (message lo' (.leaf false k)).key q').toNat =
              .mk (message (q' + 1) (side (bit k q') l r)) d0 d1 := by
            rw [← hside]
            exact embed_child lo q' s (bit k q') l r
          have hguard : (guard (q' = position (.node s q' l r : KeyTrie)) : Option PUnit) =
            some () :=
            if_pos rfl
          rw [hchild, hguard, Option.bind_some]
          change Settles j U R P own p 1 (recvLoop _ _ node blank fuel p
            (.mk (message (q' + 1) (side (bit k q') l r)) d0 d1) (q' + 1))
          rw [← hside]
          exact ih (q' + 1) (q' + 1) _ (ht.side hq _) ((ht.inside.mem_side _ k).mpr ⟨hk, rfl⟩)
            (by omega) (position_ge (ht.inside.side _).wellFormed (by omega)) (by omega)

def Rooted (j : ℕ) (U S : Finset SyncKey) (own : Option KeyTrie) : Prop :=
  (own = none ∧ S = ∅) ∨ ∃ t, own = some t ∧ Own j U S 0 t

omit hG in
theorem recvKey_root {D : Option KeyTrie} {p : Party} (h : Knows j U R P own D p) {t : KeyTrie}
    (hown : own = some t) (m : KeyMessage) (hmin : m.minPrefixLen ≤ m.prefixLen)
    (hlen : m.prefixLen ≤ 64) {node : Node} {rest : KeyMessage}
    (hrest : removeDifferences p.peer.root m = some (node, rest)) {price : ℕ}
    (hloop : Settles j U R P own p price
      (recvLoop m rest node (isBlank rest) (2 * KEY_LEN_BITS) p (embed 0 t) 0)) :
    ∃ p', recvKey p m = some (0, p') ∧ Settles j U R P own p price (some p') := by
  obtain ⟨p', D', extra, hres, hset⟩ := hloop
  refine ⟨p', ?_, p', D', extra, rfl, hset⟩
  have hroot : p.root = embed 0 t := by
    rw [h.root, hown]
    rfl
  obtain ⟨c0, c1, hembed⟩ := embed_message 0 t
  have hvalid : ¬ (m.minPrefixLen > m.prefixLen ∨ m.prefixLen > KEY_LEN_BITS + 1) := by
    change ¬ (m.minPrefixLen > m.prefixLen ∨ m.prefixLen > 65)
    omega
  have hnull : ¬ p.root = .null := by
    rw [hroot, hembed]
    simp
  have hone : ¬ m.prefixLen = KEY_LEN_BITS + 1 := by
    change ¬ m.prefixLen = 65
    omega
  rw [recvKey, if_neg hvalid, if_neg hnull, if_neg hone, hrest]
  simp only [Option.bind_eq_bind, Option.bind_some]
  rw [hroot, hres]
  rfl

/-- A party without keys only takes down what the peer tells it. -/
theorem recvKey_null {D : Option KeyTrie} {p : Party} (h : Knows j U R P own D p)
    (hown : own = none) (m : KeyMessage) (hmin : m.minPrefixLen ≤ m.prefixLen)
    (hlen : m.prefixLen ≤ 65)
    (hkey : m.prefixLen = KEY_LEN_BITS → LeafLike j m ∧ m.key ∈ U ∧ m.key ∈ P ∧ m.key ∉ R)
    {price : ℕ} (hprice : 0 < price) :
    ∃ p', recvKey p m = some (0, p') ∧ Settles j U R P own p price (some p') := by
  have hroot : p.root = .null := by
    rw [h.root, hown]
    rfl
  have hvalid : ¬ (m.minPrefixLen > m.prefixLen ∨ m.prefixLen > KEY_LEN_BITS + 1) := by
    change ¬ (m.minPrefixLen > m.prefixLen ∨ m.prefixLen > 65)
    omega
  rw [recvKey, if_neg hvalid, if_pos hroot]
  by_cases hleaf : m.prefixLen = KEY_LEN_BITS
  · obtain ⟨hlike, hU, hP, hR⟩ := hkey hleaf
    obtain ⟨p', D', hrun, hk, -, hpay⟩ := peerAddKey_spec hG h m hlike hU hP hR
    refine ⟨p', ?_, settles_of_pays rfl hk hpay hprice⟩
    rw [hrun]
    rfl
  · refine ⟨p, ?_, settles_of_pays rfl h (Pays.refl p) hprice⟩
    rw [peerAddKey, if_pos (Or.inl hleaf)]
    rfl

/-- A summary or a key of the peer, and what is left of it without the
differences known. -/
theorem removeDifferences_heard {D : Option KeyTrie} {p : Party} (h : Knows j U R P own D p)
    {lo : ℕ} {M : KeyTrie} (hM : Own j U P lo M) :
    ∃ E m node, removeDifferences p.peer.root (message lo M) = some (node, m) ∧
      Heard j U P lo M E m ∧ PeerNode U R P M node ∧ (position M ≠ 64 → Taken D M E) := by
  have hle := hG.le
  have hmem : first M ∈ U := hM.inside.mem _ (first_mem M)
  cases M with
  | leaf s k =>
    obtain rfl : s = true := hM.stored
    obtain ⟨node, hrest, hnode⟩ := removeDifferences_leaf hG (m := message lo (.leaf true k))
      ⟨rfl, hM.short⟩ hmem D h.inside
    rw [← h.peerRoot] at hrest
    refine ⟨∅, _, node, hrest, ?_, ?_, fun hno => absurd rfl hno⟩
    · exact ⟨hM, ⟨hmem, fun _ _ _ => rfl, Or.inl rfl⟩, rfl, rfl, rfl,
        fun hno => absurd rfl hno, fun _ => rfl⟩
    · rcases hnode with hnull | ⟨lo', s, hnode, hleaf⟩
      · exact Or.inl hnull
      · refine Or.inr ⟨lo', .leaf s k, hnode, ⟨trivial, ?_⟩, ?_, ?_⟩
        · intro x hx
          rw [Finset.mem_singleton.mp hx]
          exact hmem
        · intro x hx
          rw [Finset.mem_singleton.mp hx]
          exact fun _ _ => rfl
        · intro e he
          rw [List.mem_singleton.mp he]
          exact h.labels _ hleaf
  | node s q l r =>
    obtain rfl : s = true := hM.stored.1
    have hq := hM.inside.position_lt hG.spread
    obtain ⟨E, node, hrest, hE, hnode⟩ := removeDifferences_inner hG hM.inside D h.inside
    rw [← h.peerRoot] at hrest
    refine ⟨E, _, node, hrest, ?_, ?_, fun _ => hE⟩
    · refine ⟨hM, ⟨hmem, ?_, Or.inr hq⟩, rfl, rfl, rfl, fun _ => rfl, ?_⟩
      · intro i hi hlt
        change i < q at hi
        change bit (summary q (first l) _) i = _
        rw [bit_summary _ _ _ _ hlt, if_pos hi]
        rfl
      · intro hno
        change q = 64 at hno
        omega
    · rcases hnode with hnull | ⟨lo', t', hnode, hkeys, hover, hleaves⟩
      · exact Or.inl hnull
      · refine Or.inr ⟨lo', t', hnode, hover, ?_, fun e he => h.labels e (hleaves e he)⟩
        intro k hk
        exact ((hE k).mp (hkeys ▸ hk)).2

/-- A summary or a key of the peer is received. -/
theorem recvKey_node (hown : Rooted j U R own) {D : Option KeyTrie} {p : Party}
    (h : Knows j U R P own D p) {lo : ℕ} {M : KeyTrie} (hM : Own j U P lo M) :
    ∃ p', recvKey p (message lo M) = some (0, p') ∧
      Settles j U R P own p (3 ^ (64 - position M)) (some p') := by
  have hle := hG.le
  have h64 := position_le_64 hG hM.inside
  have hmin : (message lo M).minPrefixLen ≤ (message lo M).prefixLen := by
    rw [message_prefixLen]
    have hge := position_ge hM.inside.wellFormed (by have := hM.short; omega)
    cases M <;> exact hge
  have hlen : (message lo M).prefixLen ≤ 64 := by
    rw [message_prefixLen]
    exact h64
  rcases hown with ⟨hnone, hR⟩ | ⟨t, hsome, ht⟩
  · apply recvKey_null hG h hnone _ hmin (by omega) _ (by positivity)
    intro hleaf
    rw [message_prefixLen] at hleaf
    obtain ⟨s, k, rfl⟩ := eq_leaf hG hM.inside hleaf
    have hk := Finset.mem_singleton_self k
    refine ⟨⟨rfl, hM.short⟩, hM.inside.mem k hk, ((hM.mem_iff k).mp hk).1, ?_⟩
    rw [hR]
    exact Finset.notMem_empty _
  · obtain ⟨E, m, node, hrest, hm, hnode, hE⟩ := removeDifferences_heard hG h hM
    exact recvKey_root h hsome _ hmin hlen hrest
      (recvLoop_node hG hm hnode (2 * KEY_LEN_BITS) 0 0 t ht (Nat.le_refl 0)
        (Nat.zero_le _) (Nat.zero_le _) (fun i hi =>
          absurd hi (Nat.not_lt_zero i)) (by decide) h hE)

/-- An acknowledgement is received. -/
theorem recvKey_ack (hown : Rooted j U R own) {D : Option KeyTrie} {p : Party}
    (h : Knows j U R P own D p) {lo : ℕ} (hlo : lo ≤ 8 * j) {k : SyncKey} (hR : k ∈ R)
    (hP : k ∉ P) : ∃ p', recvKey p (message lo (.leaf false k)) = some (0, p') ∧
      Settles j U R P own p 1 (some p') := by
  have hle := hG.le
  rcases hown with ⟨-, hempty⟩ | ⟨t, hsome, ht⟩
  · rw [hempty] at hR
    exact absurd hR (Finset.notMem_empty _)
  · have hk : k ∈ keys t := (ht.mem_iff k).mpr ⟨hR, fun i hi => absurd hi (Nat.not_lt_zero i)⟩
    have hmin : lo ≤ 64 := by omega
    have hrest : removeDifferences p.peer.root (message lo (.leaf false k)) =
        some (.null, message lo (.leaf false k)) := by
      rw [removeDifferences, if_pos]
      exact Or.inr rfl
    apply recvKey_root h hsome (message lo (.leaf false k)) hmin (Nat.le_refl 64) hrest
    exact recvLoop_ack hG hlo hR hP _ _ (2 * KEY_LEN_BITS) 0 0 t ht hk (by omega)
      (Nat.zero_le _) (by decide) h

/-- The peer has no key at all. -/
theorem recvKey_empty (hown : Rooted j U R own) {D : Option KeyTrie} {p : Party}
    (h : Knows j U R P own D p) (hP : P = ∅) (m : KeyMessage) (hmin : m.minPrefixLen = 0)
    (hlen : m.prefixLen = KEY_LEN_BITS + 1) :
    ∃ p', recvKey p m = some (0, p') ∧ Settles j U R P own p 1 (some p') := by
  rcases hown with ⟨hnone, -⟩ | ⟨t, hsome, ht⟩
  · apply recvKey_null hG h hnone m (by omega) (Nat.le_of_eq hlen) _ Nat.one_pos
    intro hno
    rw [hlen] at hno
    exact absurd hno (by decide)
  · obtain ⟨p', D', hrun, hk, -, hpay⟩ := peerMissingLeafNodes_spec hG false 0 t ht
      (fun k _ => by
        rw [hP]
        exact Finset.notMem_empty k) h (fun hno => Bool.noConfusion hno)
    refine ⟨p', ?_, settles_of_pays rfl hk hpay Nat.one_pos⟩
    have hroot : p.root = embed 0 t := by
      rw [h.root, hsome]
      rfl
    obtain ⟨c0, c1, hembed⟩ := embed_message 0 t
    have hvalid : ¬ (m.minPrefixLen > m.prefixLen ∨ m.prefixLen > KEY_LEN_BITS + 1) := by
      rw [hmin, hlen]
      decide
    have hnull : ¬ p.root = .null := by
      rw [hroot, hembed]
      simp
    rw [recvKey, if_neg hvalid, if_neg hnull, if_pos hlen, hroot, hrun]
    rfl

end Receive

/-- The bytes of a message are read back. -/
theorem parseMessage_messageBytes (m : KeyMessage) (hmin : m.minPrefixLen < 128)
    (hlen : m.prefixLen < 256) : parseMessage (messageBytes m) = m := by
  obtain ⟨minPrefixLen, stored, prefixLen, key⟩ := m
  change minPrefixLen < 128 at hmin
  change prefixLen < 256 at hlen
  have hfirst : (UInt8.ofNat ((if stored then 0x80 else 0) + minPrefixLen % 0x80)).toNat =
      (if stored then 0x80 else 0) + minPrefixLen := by
    rw [UInt8.toNat_ofNat', Nat.mod_eq_of_lt hmin]
    split <;> omega
  have hsecond : (UInt8.ofNat prefixLen).toNat = prefixLen := by
    rw [UInt8.toNat_ofNat']
    omega
  have hbytes : ∀ i : Fin 8, (messageBytes ⟨minPrefixLen, stored, prefixLen, key⟩).getD
      (2 + i.val) 0 = key i := by
    intro i
    rw [messageBytes, Nat.add_comm 2 i.val, List.getD_cons_succ, List.getD_cons_succ,
      List.getD_eq_getElem?_getD, List.getElem?_ofFn, dif_pos i.isLt]
    rfl
  simp only [parseMessage, hbytes]
  simp only [messageBytes, List.getD_cons_zero, List.getD_cons_succ, hfirst, hsecond]
  cases stored
  · have hmod : minPrefixLen % 128 = minPrefixLen := Nat.mod_eq_of_lt hmin
    simp [hmod]
    omega
  · have hmod : (128 + minPrefixLen) % 128 = minPrefixLen := by omega
    simp [hmod]

theorem syncRecvMessage_one {p p' : Party} {buff : List UInt8}
    (hlen : buff.length = MESSAGE_BYTES) (h : recvKey p (parseMessage buff) = some (0, p')) :
    syncRecvMessage p buff = some (0, p') := by
  have hmod : ¬ buff.length % MESSAGE_BYTES ≠ 0 := by
    rw [hlen]
    decide
  have hcount : buff.length / MESSAGE_BYTES = 1 := by
    rw [hlen]
    decide
  rw [syncRecvMessage, if_neg hmod, hcount, recvMessages, h]
  rfl

/-- Every message the peer may have sent is taken in without a failure. What
it makes the party conclude is right, and the answers cost less than the
message unless the two sets cross. -/
theorem syncRecvMessage_spec {j : ℕ} {U R P : Finset SyncKey} {own D : Option KeyTrie}
    (hG : Generic U j) (hown : Rooted j U R own) {p : Party} (h : Knows j U R P own D p)
    {buff : List UInt8} (hbuff : Sent j U P R buff) :
    ∃ p', syncRecvMessage p buff = some (0, p') ∧
      Settles j U R P own p (weight buff) (some p') := by
  have hle := hG.le
  have hread : ∀ lo t, lo ≤ 8 * j → position t ≤ 64 →
      parseMessage (messageBytes (message lo t)) = message lo t := by
    intro lo t hlo hpos
    apply parseMessage_messageBytes
    · cases t <;> (change lo < 128; omega)
    · rw [message_prefixLen]
      omega
  have hsize : ∀ m, (messageBytes m).length = MESSAGE_BYTES := by
    intro m
    simp [messageBytes, MESSAGE_BYTES, KEY_LEN]
  cases hbuff with
  | node lo t ht =>
    have h64 := position_le_64 hG ht.inside
    obtain ⟨p', hrun, hset⟩ := recvKey_node hG hown h ht
    refine ⟨p', ?_, ?_⟩
    · apply syncRecvMessage_one (hsize _)
      rw [hread lo t ht.short h64, hrun]
    · rw [weight_message lo t h64]
      exact hset
  | ack lo k hlo hR hP =>
    obtain ⟨p', hrun, hset⟩ := recvKey_ack hG hown h hlo hR hP
    refine ⟨p', ?_, ?_⟩
    · apply syncRecvMessage_one (hsize _)
      rw [hread lo (.leaf false k) hlo (Nat.le_refl 64), hrun]
    · rw [weight_message lo (.leaf false k) (Nat.le_refl 64)]
      exact hset
  | empty hP =>
    obtain ⟨p', hrun, hset⟩ := recvKey_empty hG hown h hP
      (parseMessage (0x80 :: UInt8.ofNat (KEY_LEN_BITS + 1) :: List.replicate KEY_LEN 0)) rfl rfl
    exact ⟨p', syncRecvMessage_one rfl hrun, hset⟩

end Succinct.SyncReceive
