import Succinct.SyncReceive

/-!
Two parties reconcile their keys over a network that may reorder, lose and
duplicate messages. In every state they can reach, each has concluded only
what is true of the other.
-/
namespace Succinct.SyncSoundness

open SyncKeys BitTries SyncBits SyncTree SyncProtocol SyncCompare SyncWalks SyncParty SyncReceive

def freshParty : Party :=
  { root := .null, peer := { sendCount := 0, recvCount := 0, root := .null }, log := [] }

def syncAddKeys : List SyncKey → Party → Option Party
  | [], p => some p
  | key :: rest, p => (syncAddKey p key).bind (syncAddKeys rest)

structure System where
  party : Bool → Party
  toward : Bool → List (List UInt8)

def queuedBytes : Callback → Option (List UInt8)
  | .queueMessage buff => some buff
  | _ => none

/-- What was passed to queue_message since an earlier log. -/
def queued (p p' : Party) : List (List UInt8) :=
  (p'.log.drop p.log.length).filterMap queuedBytes

def System.receive (s : System) (x : Bool) (rest : List (List UInt8)) (p' : Party) : System :=
  { party := Function.update s.party x p'
    toward := fun y => if y = x then rest else s.toward y ++ queued (s.party x) p' }

def System.send (s : System) (x : Bool) (buffs : List (List UInt8)) : System :=
  { s with toward := Function.update s.toward x buffs }

inductive Deliver : System → System → Prop
  | mk (s : System) (x : Bool) (before after : List (List UInt8)) (buff : List UInt8) (ret : ℤ)
      (p' : Party) (hflight : s.toward x = before ++ buff :: after)
      (hrecv : syncRecvMessage (s.party x) buff = some (ret, p')) :
      Deliver s (s.receive x (before ++ after) p')

inductive Step : System → System → Prop
  | deliver (s s' : System) (h : Deliver s s') : Step s s'
  | root (s : System) (x : Bool) :
      Step s (s.send (!x) (s.toward (!x) ++ [syncRootMsg (s.party x)]))
  | lose (s : System) (x : Bool) (before after : List (List UInt8)) (buff : List UInt8)
      (hflight : s.toward x = before ++ buff :: after) : Step s (s.send x (before ++ after))
  | duplicate (s : System) (x : Bool) (buff : List UInt8) (hflight : buff ∈ s.toward x) :
      Step s (s.send x (buff :: s.toward x))

def leafEntries : Node → List (Bool × SyncKey)
  | .null => []
  | .mk m c0 c1 =>
    if m.prefixLen = KEY_LEN_BITS then [(m.stored, m.key)] else leafEntries c0 ++ leafEntries c1

structure Truthful (R P : Finset SyncKey) (root : Node) (p : Party) : Prop where
  missing : ∀ k, (true, k) ∈ leafEntries p.peer.root → k ∈ R ∧ k ∉ P
  offered : ∀ k, (false, k) ∈ leafEntries p.peer.root → k ∈ P ∧ k ∉ R
  sendCount : p.peer.sendCount = (leafEntries p.peer.root).countP (fun e => e.1)
  recvCount : p.peer.recvCount = (leafEntries p.peer.root).countP (fun e => !e.1)
  has : ∀ k, .has k ∈ p.log → k ∈ P ∧ k ∉ R
  hasNot : ∀ k, .hasNot k ∈ p.log → k ∈ R ∧ k ∉ P
  nowHas : ∀ k, .nowHas k ∉ p.log
  root : p.root = root

theorem markStored_stored (m : KeyMessage) (hm : m.stored = true) (n : Node) :
    markStored m n = n := by
  induction n with
  | null => rfl
  | mk m' c0 c1 ih0 ih1 =>
    rw [markStored, ih0, ih1]
    split
    case isTrue heq =>
      rw [heq, ← hm]
    case isFalse =>
      rfl

theorem stored_branch (d : ℕ) (k : SyncKey) (t : KeyTrie) (ht : Stored t) :
    Stored (branch bit true d k t) := by
  unfold branch
  split
  · exact ⟨rfl, ht, rfl⟩
  · exact ⟨rfl, rfl, ht⟩

theorem stored_insert (k : SyncKey) (t : KeyTrie) (ht : Stored t) :
    Stored (insertKey bit true k t) := by
  induction t with
  | leaf s k' => exact stored_branch _ k _ ht
  | node s p l r ihl ihr =>
    rw [insertKey]
    split
    · exact stored_branch _ k _ ht
    · split
      · exact ⟨ht.1, ht.2.1, ihr ht.2.2⟩
      · exact ⟨ht.1, ihl ht.2.1, ht.2.2⟩

theorem stored_leaves (t : KeyTrie) (ht : Stored t) (e : Bool × SyncKey) (he : e ∈ leaves t) :
    e.1 = true := by
  induction t with
  | leaf s k =>
    rw [List.mem_singleton.mp he]
    exact ht
  | node s p l r ihl ihr =>
    rcases List.mem_append.mp he with he | he
    · exact ihl ht.2.1 he
    · exact ihr ht.2.2 he

section Soundness

variable {j : ℕ} {U : Finset SyncKey} (hG : Generic U j)

include hG

theorem leafEntries_embed (lo lo' : ℕ) (t : KeyTrie) (ht : Over U lo' t) :
    leafEntries (embed lo t) = leaves t := by
  induction t generalizing lo lo' with
  | leaf s k => rfl
  | node s p l r ihl ihr =>
    rw [embed, leafEntries, if_neg (inner_len hG lo ht), ihl (p + 1) (p + 1) ht.left,
      ihr (p + 1) (p + 1) ht.right]
    rfl

/-- A key is added to the party's own tree, unless it is there. -/
theorem syncAddKey_spec {S : Finset SyncKey} {own : Option KeyTrie} (hown : Rooted j U S own)
    (k : SyncKey) (hk : k ∈ U) :
    ∃ own', syncAddKey { freshParty with root := embedOption 0 own } k =
        some { freshParty with root := embedOption 0 own' } ∧ Rooted j U (insert k S) own' := by
  have hleaf : LeafLike j (leafMessage k) := ⟨rfl, Nat.zero_le _⟩
  have hover : OverOption U own := by
    intro t ht
    rcases hown with ⟨hnone, -⟩ | ⟨t', hsome, ht'⟩
    · rw [hnone] at ht
      exact absurd ht (by simp)
    · rw [hsome] at ht
      rw [← Option.some.inj ht]
      exact ht'.inside
  have hkeys : ∀ x, x ∈ keysOf own ↔ x ∈ S := by
    intro x
    rcases hown with ⟨rfl, rfl⟩ | ⟨t, rfl, ht⟩
    · rfl
    · exact (ht.mem_iff x).trans
        ⟨fun h => h.1, fun h => ⟨h, fun i hi => absurd hi (Nat.not_lt_zero i)⟩⟩
  obtain ⟨hin, hout⟩ := findMessage_spec hG (leafMessage k) hleaf hk own hover
  by_cases hmem : k ∈ keysOf own
  · obtain ⟨lo, s, hfind, hleaves⟩ := hin hmem
    refine ⟨own, ?_, ?_⟩
    · have hs : s = true := by
        rcases hown with ⟨rfl, -⟩ | ⟨t, rfl, ht⟩
        · exact absurd hmem (Finset.notMem_empty _)
        · exact stored_leaves t ht.stored _ hleaves
      subst s
      rw [syncAddKey, hfind, embed]
      simp only [Option.bind_eq_bind, Option.bind_some]
      rw [markStored_stored _ rfl]
    · rw [Finset.insert_eq_of_mem ((hkeys k).mp hmem)]
      exact hown
  · obtain ⟨hadd, hinsert⟩ := addKey_option hG true k hk own hover hmem
    refine ⟨some (insertOption true k own), ?_, Or.inr ⟨_, rfl, hinsert, ?_, Nat.zero_le _, ?_⟩⟩
    · rw [syncAddKey, hout hmem]
      simp only [Option.bind_eq_bind, Option.bind_some]
      rw [hadd]
      rfl
    · rcases hown with ⟨rfl, -⟩ | ⟨t, rfl, ht⟩
      · rfl
      · exact stored_insert k t ht.stored
    · intro x
      rw [keys_insertOption, Finset.mem_insert, Finset.mem_insert, hkeys]
      exact ⟨fun h => ⟨h, fun i hi => absurd hi (Nat.not_lt_zero i)⟩, fun h => h.1⟩

theorem syncAddKeys_spec (ks : List SyncKey) {S : Finset SyncKey} {own : Option KeyTrie}
    (hown : Rooted j U S own) (hks : ∀ k ∈ ks, k ∈ U) :
    ∃ own', syncAddKeys ks { freshParty with root := embedOption 0 own } =
        some { freshParty with root := embedOption 0 own' } ∧
        Rooted j U (ks.toFinset ∪ S) own' := by
  induction ks generalizing S own with
  | nil =>
    rw [List.toFinset_nil, Finset.empty_union]
    exact ⟨own, rfl, hown⟩
  | cons k rest ih =>
    obtain ⟨own1, hadd, hown1⟩ := syncAddKey_spec hG hown k (hks k List.mem_cons_self)
    obtain ⟨own2, hrest, hown2⟩ := ih hown1 (fun x hx => hks x (List.mem_cons_of_mem _ hx))
    refine ⟨own2, ?_, ?_⟩
    · rw [syncAddKeys, hadd, Option.bind_some, hrest]
    · rwa [List.toFinset_cons, Finset.insert_union, ← Finset.union_insert]

omit hG in
/-- A party that has heard nothing yet. -/
theorem knows_fresh (R P : Finset SyncKey) (own : Option KeyTrie) :
    Knows j U R P own none { freshParty with root := embedOption 0 own } := by
  refine ⟨rfl, rfl, ?_, ?_, rfl, rfl, ?_⟩
  · intro t ht
    exact absurd ht (by simp)
  · intro e he
    exact absurd he List.not_mem_nil
  · intro e he
    exact absurd he List.not_mem_nil

theorem leafEntries_knows {R P : Finset SyncKey} {own D : Option KeyTrie} {p : Party}
    (h : Knows j U R P own D p) : leafEntries p.peer.root = leavesOf D := by
  rw [h.peerRoot]
  cases D with
  | none => rfl
  | some t => exact leafEntries_embed hG 0 0 t (h.inside t rfl)

theorem truthful_of_knows {R P : Finset SyncKey} {own D : Option KeyTrie} {p : Party}
    (h : Knows j U R P own D p) : Truthful R P (embedOption 0 own) p := by
  have hentries := leafEntries_knows hG h
  refine ⟨?_, ?_, ?_, ?_, ?_, ?_, ?_, h.root⟩
  · intro k hk
    rw [hentries] at hk
    exact h.labels _ hk
  · intro k hk
    rw [hentries] at hk
    exact h.labels _ hk
  · rw [hentries]
    exact h.sendCount
  · rw [hentries]
    exact h.recvCount
  · exact fun k hk => h.log _ hk
  · exact fun k hk => h.log _ hk
  · exact fun k hk => h.log _ hk

/-- Every party knows what is true, and every message was sent by its peer. -/
structure Sound (j : ℕ) (U : Finset SyncKey) (S : Bool → Finset SyncKey)
    (own : Bool → Option KeyTrie) (s : System) : Prop where
  knows : ∀ x, ∃ D, Knows j U (S x) (S !x) (own x) D (s.party x)
  sent : ∀ x, ∀ buff ∈ s.toward x, Sent j U (S !x) (S x) buff

omit hG in
theorem Sound.send {S : Bool → Finset SyncKey} {own : Bool → Option KeyTrie} {s : System}
    (h : Sound j U S own s) (x : Bool) (buffs : List (List UInt8))
    (hbuffs : ∀ buff ∈ buffs, Sent j U (S !x) (S x) buff) : Sound j U S own (s.send x buffs) := by
  refine ⟨h.knows, ?_⟩
  intro y buff hbuff
  by_cases hy : y = x
  · subst y
    simp only [System.send, Function.update_self] at hbuff
    exact hbuffs buff hbuff
  · simp only [System.send, Function.update_of_ne hy] at hbuff
    exact h.sent y buff hbuff

omit hG in
theorem sent_root {S T : Finset SyncKey} {own D : Option KeyTrie} (hown : Rooted j U S own)
    {p : Party} (h : Knows j U S T own D p) : Sent j U S T (syncRootMsg p) := by
  rcases hown with ⟨rfl, hS⟩ | ⟨t, rfl, ht⟩
  · have hroot : p.root = .null := h.root
    rw [syncRootMsg, hroot]
    exact Sent.empty hS
  · have hroot : p.root = embed 0 t := h.root
    obtain ⟨c0, c1, hembed⟩ := embed_message 0 t
    rw [syncRootMsg, hroot, hembed]
    exact Sent.node 0 t ht

omit hG in
theorem sent_queued {R P : Finset SyncKey} {own D : Option KeyTrie} {p p' : Party}
    (h : Knows j U R P own D p') : ∀ buff ∈ queued p p', Sent j U R P buff := by
  intro buff hbuff
  obtain ⟨e, he, heq⟩ := List.mem_filterMap.mp hbuff
  have hok := h.log e (List.mem_of_mem_drop he)
  cases e with
  | queueMessage b =>
    rw [← Option.some.inj heq]
    exact hok
  | has k => exact absurd heq (by simp [queuedBytes])
  | hasNot k => exact absurd heq (by simp [queuedBytes])
  | nowHas k => exact absurd heq (by simp [queuedBytes])

omit hG in
/-- The state after a delivery is sound again. -/
theorem Sound.receive {S : Bool → Finset SyncKey} {own : Bool → Option KeyTrie} {s : System}
    (h : Sound j U S own s) (x : Bool) (rest : List (List UInt8)) (hrest : rest ⊆ s.toward x)
    {D' : Option KeyTrie} {p' : Party} (hp' : Knows j U (S x) (S !x) (own x) D' p') :
    Sound j U S own (s.receive x rest p') := by
  refine ⟨?_, ?_⟩
  · intro y
    by_cases hy : y = x
    · subst y
      rw [System.receive]
      simp only [Function.update_self]
      exact ⟨D', hp'⟩
    · rw [System.receive]
      simp only [Function.update_of_ne hy]
      exact h.knows y
  · intro y buff hbuff
    by_cases hy : y = x
    · subst y
      simp only [System.receive, if_true] at hbuff
      exact h.sent _ buff (hrest hbuff)
    · simp only [System.receive, if_neg hy] at hbuff
      obtain rfl : x = !y := by
        cases x <;> cases y <;> simp_all
      rcases List.mem_append.mp hbuff with hbuff | hbuff
      · exact h.sent y buff hbuff
      · have hsent := sent_queued hp' buff hbuff
        rwa [Bool.not_not] at hsent

/-- A delivery in a sound state, with what the receiver makes of the
message. -/
theorem Sound.deliver {S : Bool → Finset SyncKey} {own : Bool → Option KeyTrie}
    (hown : ∀ x, Rooted j U (S x) (own x)) {s s' : System} (h : Sound j U S own s)
    (hstep : Deliver s s') :
    ∃ x before after buff p' D' extra, s.toward x = before ++ buff :: after ∧
      s' = s.receive x (before ++ after) p' ∧ Knows j U (S x) (S !x) (own x) D' p' ∧
      Pays (s.party x) p' extra ∧ (extra < weight buff ∨ Crossing (S x) (S !x)) := by
  obtain ⟨x, before, after, buff, ret, p', hflight, hrecv⟩ := hstep
  obtain ⟨D, hD⟩ := h.knows x
  have hmem : buff ∈ s.toward x := by
    rw [hflight]
    simp
  obtain ⟨q, hrun, q', D', extra, heq, hq, hset⟩ :=
    syncRecvMessage_spec hG (hown x) hD (h.sent x buff hmem)
  obtain rfl : q = q' := Option.some.inj heq
  obtain rfl : p' = q := by
    rw [hrecv] at hrun
    exact (Prod.mk.inj (Option.some.inj hrun)).2
  exact ⟨x, before, after, buff, p', D', extra, hflight, rfl, hq, hset⟩

omit hG in
theorem without_subset {buffs before after : List (List UInt8)} {buff : List UInt8}
    (hflight : buffs = before ++ buff :: after) : before ++ after ⊆ buffs := by
  intro b hb
  rw [hflight]
  rcases List.mem_append.mp hb with hb | hb
  · exact List.mem_append_left _ hb
  · exact List.mem_append_right _ (List.mem_cons_of_mem _ hb)

theorem Sound.step {S : Bool → Finset SyncKey} {own : Bool → Option KeyTrie}
    (hown : ∀ x, Rooted j U (S x) (own x)) {s s' : System} (h : Sound j U S own s)
    (hstep : Step s s') : Sound j U S own s' := by
  cases hstep with
  | deliver _ hdeliver =>
    obtain ⟨x, before, after, buff, p', D', extra, hflight, rfl, hp', -⟩ :=
      h.deliver hG hown hdeliver
    exact h.receive x _ (without_subset hflight) hp'
  | root x =>
    apply h.send
    intro buff hbuff
    rcases List.mem_append.mp hbuff with hbuff | hbuff
    · exact h.sent _ buff hbuff
    · obtain ⟨D, hD⟩ := h.knows x
      rw [List.mem_singleton.mp hbuff, Bool.not_not]
      exact sent_root (hown x) hD
  | lose x before after buff hflight =>
    apply h.send
    exact fun b hb => h.sent x b (without_subset hflight hb)
  | duplicate x buff hflight =>
    apply h.send
    intro b hb
    rcases List.mem_cons.mp hb with rfl | hb
    · exact h.sent x b hflight
    · exact h.sent x b hb

theorem Sound.run {S : Bool → Finset SyncKey} {own : Bool → Option KeyTrie}
    (hown : ∀ x, Rooted j U (S x) (own x)) {s s' : System} (h : Sound j U S own s)
    (hrun : Relation.ReflTransGen Step s s') : Sound j U S own s' := by
  induction hrun with
  | refl => exact h
  | tail _ hstep ih => exact ih.step hG hown hstep

/-- The trees of two parties that add their keys. -/
theorem rooted_start {ks : Bool → List SyncKey}
    (hU : U = (ks false).toFinset ∪ (ks true).toFinset) :
    ∃ own : Bool → Option KeyTrie,
      (∀ x, syncAddKeys (ks x) freshParty =
        some { freshParty with root := embedOption 0 (own x) }) ∧
      ∀ x, Rooted j U (ks x).toFinset (own x) := by
  have hone : ∀ x, ∃ own, syncAddKeys (ks x) freshParty =
      some { freshParty with root := embedOption 0 own } ∧ Rooted j U (ks x).toFinset own := by
    intro x
    have hmem : ∀ k ∈ ks x, k ∈ U := by
      intro k hk
      rw [hU, Finset.mem_union, List.mem_toFinset, List.mem_toFinset]
      cases x with
      | false => exact Or.inl hk
      | true => exact Or.inr hk
    obtain ⟨own, hadd, hown⟩ := syncAddKeys_spec hG (ks x) (S := ∅) (Or.inl ⟨rfl, rfl⟩) hmem
    rw [Finset.union_empty] at hown
    exact ⟨own, hadd, hown⟩
  choose own hown using hone
  exact ⟨own, fun x => (hown x).1, fun x => (hown x).2⟩

omit hG in
theorem sound_start (S : Bool → Finset SyncKey) (own : Bool → Option KeyTrie) :
    Sound j U S own ⟨fun x =>
      { freshParty with root := embedOption 0 (own x) }, fun _ => []⟩ := by
  refine ⟨fun x => ⟨none, knows_fresh _ _ _⟩, ?_⟩
  intro x buff hbuff
  exact absurd hbuff List.not_mem_nil

end Soundness

/-- Whatever the network does, all that a party concludes about its peer is
true, its own tree stays as it was, and it can take in every message. -/
theorem reconciliation_sound (j : ℕ) (ks : Bool → List SyncKey)
    (hG : Generic ((ks false).toFinset ∪ (ks true).toFinset) j) :
    ∃ p : Bool → Party, (∀ x, syncAddKeys (ks x) freshParty = some (p x)) ∧
      ∀ s, Relation.ReflTransGen Step ⟨p, fun _ => []⟩ s → ∀ x,
        Truthful (ks x).toFinset (ks !x).toFinset (p x).root (s.party x) ∧
          ∀ buff ∈ s.toward x, ∃ p', syncRecvMessage (s.party x) buff = some (0, p') := by
  obtain ⟨own, hbuild, hown⟩ := rooted_start hG rfl
  refine ⟨fun x => { freshParty with root := embedOption 0 (own x) }, hbuild, ?_⟩
  intro s hreach x
  have hsound := (sound_start (fun x => (ks x).toFinset) own).run hG hown hreach
  obtain ⟨D, hD⟩ := hsound.knows x
  refine ⟨truthful_of_knows hG hD, ?_⟩
  intro buff hbuff
  obtain ⟨p', hrun, -⟩ := syncRecvMessage_spec hG (hown x) hD (hsound.sent x buff hbuff)
  exact ⟨p', hrun⟩

def partBefore (n : ℕ) (ks : List SyncKey) : Bool :=
  ks.all fun a => ks.all fun b => decide (a = b) || (List.range n).any fun i => bit a i != bit b i

theorem spread_of_partBefore {n : ℕ} {ks : List SyncKey} (h : partBefore n ks = true) :
    Spread n {k | k ∈ ks} := by
  intro a ha b hb hne
  have hpair := List.all_eq_true.mp (List.all_eq_true.mp h a ha) b hb
  rcases Bool.or_eq_true_iff.mp hpair with heq | hany
  · exact absurd (of_decide_eq_true heq) hne
  · obtain ⟨i, hi, hdiff⟩ := List.any_eq_true.mp hany
    exact ⟨i, List.mem_range.mp hi, bne_iff_ne.mp hdiff⟩

def ownBits (j : ℕ) (ks : List SyncKey) : Bool :=
  ks.all fun k => (List.range 64).any fun i =>
    decide (8 * j ≤ i) && ks.all fun x => bit x i == decide (x = k)

/-- Keys are independent when each has a later bit of its own. -/
theorem generic_of_own_bits (ks : List SyncKey) (U : Finset SyncKey) (j : ℕ) (hlow : 1 ≤ j)
    (hhigh : j ≤ 6) (hU : ∀ x ∈ U, x ∈ ks) (hpart : partBefore (8 * j) ks = true)
    (hbits : ownBits j ks = true) : Generic U j := by
  have hown : ∀ k ∈ U, ∃ i < 64, 8 * j ≤ i ∧ ∀ x ∈ U, bit x i = decide (x = k) := by
    intro k hk
    obtain ⟨i, hi, hboth⟩ := List.any_eq_true.mp (List.all_eq_true.mp hbits k (hU k hk))
    obtain ⟨hge, hall⟩ := Bool.and_eq_true_iff.mp hboth
    refine ⟨i, List.mem_range.mp hi, of_decide_eq_true hge, ?_⟩
    intro x hx
    exact beq_iff_eq.mp (List.all_eq_true.mp hall x (hU x hx))
  refine ⟨hlow, hhigh, ?_, ?_⟩
  · intro a ha b hb hne
    exact spread_of_partBefore hpart a (hU a ha) b (hU b hb) hne
  rintro T hT ⟨k, hk⟩
  obtain ⟨i, hlt, hge, hbits⟩ := hown k (hT hk)
  refine ⟨i, hge, hlt, ?_⟩
  have hrest : ∀ X ⊆ T.erase k, parity (fun x => bit x i) X = false := by
    intro X
    induction X using Finset.induction_on with
    | empty => exact fun _ => rfl
    | insert x X hx ih =>
      intro hsub
      have hmem := Finset.mem_erase.mp (hsub (Finset.mem_insert_self x X))
      rw [Finset.insert_eq, parity_union _ _ _ (Finset.disjoint_singleton_left.mpr hx),
        parity_singleton, ih (fun y hy => hsub (Finset.mem_insert_of_mem hy)), Bool.xor_false,
        hbits x (hT hmem.2), decide_eq_false hmem.1]
  rw [← Finset.insert_erase hk, Finset.insert_eq, parity_union _ _ _
    (Finset.disjoint_singleton_left.mpr (Finset.notMem_erase k T)), parity_singleton,
    hrest _ (Finset.Subset.refl _), Bool.xor_false, hbits k (hT hk), decide_eq_true rfl]

def keyOf (bytes : List UInt8) : SyncKey := fun i => bytes.getD i.val 0

/-- One party has two keys, the other one of them and a third. -/
theorem reconciliation_sound_three :
    ∃ p : Bool → Party, (∀ x, syncAddKeys (if x then [keyOf [0, 1], keyOf [1, 0, 1]]
        else [keyOf [0, 1], keyOf [2, 0, 0, 1]]) freshParty = some (p x)) ∧
      ∀ s, Relation.ReflTransGen Step ⟨p, fun _ => []⟩ s →
        ∀ k, (true, k) ∈ leafEntries (s.party true).peer.root → k = keyOf [1, 0, 1] := by
  have hG : Generic ([keyOf [0, 1], keyOf [2, 0, 0, 1]].toFinset ∪
      [keyOf [0, 1], keyOf [1, 0, 1]].toFinset) 1 :=
    generic_of_own_bits [keyOf [0, 1], keyOf [1, 0, 1], keyOf [2, 0, 0, 1]] _ 1
      (by decide) (by decide) (by simp) (by decide +kernel) (by decide +kernel)
  obtain ⟨p, hstart, hsound⟩ := reconciliation_sound 1 (fun x =>
    if x then [keyOf [0, 1], keyOf [1, 0, 1]] else [keyOf [0, 1], keyOf [2, 0, 0, 1]]) hG
  refine ⟨p, hstart, ?_⟩
  intro s hs k hk
  obtain ⟨hmem, hnot⟩ := (hsound s hs true).1.missing k hk
  simp only [if_true, List.toFinset_cons, List.toFinset_nil, Bool.not_true, Bool.false_eq_true,
    if_false, Finset.mem_insert, Finset.notMem_empty, or_false] at hmem hnot
  rcases hmem with h | h
  · exact absurd (Or.inl h) hnot
  · exact h

end Succinct.SyncSoundness
