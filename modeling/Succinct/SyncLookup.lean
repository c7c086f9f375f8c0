import Succinct.SyncCanonical
import Succinct.SyncSoundness

/-!
Looking up a key in the own tree. find_message compares the key searched for
with the key of every node on its way, and the key of an inner node is the
XOR of all keys below it, so a lookup answers for the keys of all nodes. It
is exact as long as the keys added are closed under these summaries.
-/
namespace Succinct.SyncLookup

open SyncKeys BitTries SyncBits SyncTree SyncProtocol SyncCompare SyncWalks SyncCanonical
  SyncSoundness

def syncKeyExists (p : Party) (key : SyncKey) : Option Bool := do
  let node ← findMessage p.root (leafMessage key)
  some (decide (node ≠ .null))

structure Counted where
  party : Party
  keyCount : UInt32

def Counted.add (s : Counted) (key : SyncKey) : Option Counted := do
  let found ← syncKeyExists s.party key
  let party ← syncAddKey s.party key
  some { party := party, keyCount := if found then s.keyCount else s.keyCount + 1 }

def Counted.addKeys (s : Counted) (ks : List SyncKey) : Option Counted := ks.foldlM Counted.add s

def fresh : Counted := { party := freshParty, keyCount := 0 }

instance (p : ℕ) (a b : SyncKey) : Decidable (Agree bit p a b) :=
  inferInstanceAs (Decidable (∀ i, i < p → bit a i = bit b i))

/-- Wherever two keys of the set part, the summary of the keys that have
their common prefix is in the set. -/
def ClosedUnderSummaries (S : Finset SyncKey) : Prop :=
  ∀ a ∈ S, ∀ b ∈ S, ∀ p, Agree bit p a b → bit a p ≠ bit b p →
    summary p a (S.filter fun k => Agree bit p k a) ∈ S

def Found (S : Finset SyncKey) (k : SyncKey) : Prop :=
  k ∈ S ∨ ∃ a ∈ S, ∃ b ∈ S, ∃ p, Agree bit p a b ∧ bit a p ≠ bit b p ∧
    k = summary p a (S.filter fun x => Agree bit p x a)

theorem closedUnderSummaries_iff (S : Finset SyncKey) :
    ClosedUnderSummaries S ↔ ∀ k, Found S k → k ∈ S := by
  constructor
  · rintro h k (hk | ⟨a, ha, b, hb, p, hagree, hne, rfl⟩)
    · exact hk
    · exact h a ha b hb p hagree hne
  · intro h a ha b hb p hagree hne
    exact h _ (Or.inr ⟨a, ha, b, hb, p, hagree, hne, rfl⟩)

def nodeKeys : KeyTrie → Finset SyncKey
  | .leaf _ k => {k}
  | .node _ p l r =>
    Insert.insert (summary p (first l) (keys l ∪ keys r)) (nodeKeys l ∪ nodeKeys r)

/-- The keys of all nodes begin with the prefix of the root. -/
theorem agree_of_mem_nodeKeys {U : Set SyncKey} {n lo : ℕ} (hU : Spread n U) (hn : n ≤ 63)
    (t : KeyTrie) (ht : Over U lo t) (k : SyncKey) (hk : k ∈ nodeKeys t) :
    Agree bit (position t) k (first t) := by
  induction t generalizing lo with
  | leaf s k' =>
    rw [Finset.mem_singleton.mp hk]
    exact fun _ _ => rfl
  | node s p l r ihl ihr =>
    have hp := ht.position_lt hU
    have hchild : ∀ b, k ∈ nodeKeys (side b l r) →
        Agree bit (position (side b l r)) k (first (side b l r)) →
        Agree bit p k (first l) := by
      intro b _ hagree
      have hge := position_ge (ht.side b).wellFormed (by omega)
      have hmem := (ht.mem_side b _).mp (first_mem (side b l r))
      exact (hagree.mono (by omega)).trans (ht.wellFormed.2.1 _ hmem.1)
    rcases Finset.mem_insert.mp hk with rfl | hk
    · intro i hi
      change i < p at hi
      rw [bit_summary _ _ _ _ (by omega), if_pos hi]
      rfl
    · rcases Finset.mem_union.mp hk with hk | hk
      · exact hchild false hk (ihl ht.left hk)
      · exact hchild true hk (ihr ht.right hk)

theorem cmpMessage_leafMessage (lo : ℕ) (t : KeyTrie) (k : SyncKey) (hlo : lo ≤ 64)
    (hpos : position t ≤ 64) :
    cmpMessage (message lo t) (leafMessage k) = decide ((message lo t).key = k) := by
  have hnot : ¬ min (message lo t).prefixLen (leafMessage k).prefixLen <
      max (if (message lo t).prefixLen = KEY_LEN_BITS then (message lo t).minPrefixLen
          else (message lo t).prefixLen)
        (if (leafMessage k).prefixLen = KEY_LEN_BITS then (leafMessage k).minPrefixLen
          else (leafMessage k).prefixLen) := by
    have hmin : (message lo t).minPrefixLen = lo := by
      cases t <;> rfl
    rw [message_prefixLen, hmin]
    change ¬ min (position t) 64 < max (if position t = 64 then lo else position t) 0
    split <;> omega
  have hwhole : sameBytes (message lo t).key k 0 KEY_LEN = decide ((message lo t).key = k) := by
    rw [sameBytes]
    apply decide_eq_decide.mpr
    constructor
    · intro h
      funext i
      exact h i (Nat.zero_le _) (by rw [Nat.zero_add]; exact i.isLt)
    · intro h i _ _
      rw [h]
  unfold cmpMessage
  simp only [if_neg hnot]
  exact hwhole

section Lookup

variable {n : ℕ} {U : Set SyncKey} (hU : Spread n U) (hn : n ≤ 63)

include hU hn

/-- A key on neither side of a node but its own is found on the side of its
bit. -/
theorem mem_nodeKeys_side {lo p : ℕ} {s : Bool} {l r : KeyTrie} (ht : Over U lo (.node s p l r))
    (k : SyncKey) (hne : k ≠ (message lo (.node s p l r)).key) :
    k ∈ nodeKeys (.node s p l r) ↔ k ∈ nodeKeys (side (bit k p) l r) := by
  have hp := ht.position_lt hU
  have hside : ∀ b, k ∈ nodeKeys (side b l r) → bit k p = b := by
    intro b hk
    have hover := ht.side b
    have hagree := agree_of_mem_nodeKeys hU hn _ hover k hk
    have hge := position_ge hover.wellFormed (by omega)
    rw [hagree p (by omega)]
    exact ((ht.mem_side b _).mp (first_mem (side b l r))).2
  rw [nodeKeys, Finset.mem_insert, Finset.mem_union]
  constructor
  · rintro (heq | hk | hk)
    · exact absurd heq hne
    · rw [hside false hk]
      exact hk
    · rw [hside true hk]
      exact hk
  · intro hk
    right
    cases hb : bit k p with
    | false =>
      rw [hb] at hk
      exact Or.inl hk
    | true =>
      rw [hb] at hk
      exact Or.inr hk

/-- A lookup answers for the keys of all nodes. -/
theorem findLoop_nodeKeys (k : SyncKey) (fuel lo i : ℕ) (t : KeyTrie) (ht : Over U lo t)
    (hlo : lo ≤ 64) (hpos : i ≤ position t) (hi : i ≤ 64) (hfuel : 65 ≤ fuel + i)
    (hstored : Stored t) :
    ∃ node, findLoop (leafMessage k) fuel (embed lo t) i = some node ∧
      (node = .null ↔ k ∉ nodeKeys t) ∧ ∀ m c0 c1, node = .mk m c0 c1 → m.stored = true := by
  induction fuel generalizing lo i t with
  | zero => omega
  | succ fuel ih =>
    cases t with
    | leaf s k' =>
      have hcmp := cmpMessage_leafMessage lo (.leaf s k') k hlo (Nat.le_refl 64)
      have hlen : (message lo (.leaf s k')).prefixLen = KEY_LEN_BITS := rfl
      rw [embed, findLoop, hcmp, if_pos hlen]
      by_cases hk : k' = k
      · subst k'
        refine ⟨_, if_pos (decide_eq_true rfl), ?_, ?_⟩
        · simp [nodeKeys]
        · intro m c0 c1 heq
          injection heq with hm
          rw [← hm]
          exact hstored
      · refine ⟨.null, if_neg (fun h => hk (of_decide_eq_true h)), ?_, ?_⟩
        · simpa [nodeKeys] using fun h => hk h.symm
        · intro m c0 c1 heq
          exact absurd heq (by simp)
    | node s p l r =>
      have hp := ht.position_lt hU
      have hcmp := cmpMessage_leafMessage lo (.node s p l r) k hlo (by change p ≤ 64; omega)
      have hlen : ¬ (message lo (.node s p l r)).prefixLen = KEY_LEN_BITS := by
        change ¬ p = 64
        omega
      have hip : i ≤ p := hpos
      by_cases hk : (message lo (.node s p l r)).key = k
      · rw [embed, findLoop, hcmp, if_pos (decide_eq_true hk)]
        refine ⟨_, rfl, ?_, ?_⟩
        · have hmem : k ∈ nodeKeys (.node s p l r) := by
            rw [← hk]
            exact Finset.mem_insert_self _ _
          simp [hmem]
        · intro m c0 c1 heq
          injection heq with hm
          rw [← hm]
          exact hstored.1
      · have hkey : (leafMessage k).key = k := rfl
        rw [embed, findLoop, hcmp, if_neg (by simpa using hk), if_neg hlen, hkey,
          syncGetBits_eq k i (by omega), Option.bind_eq_bind, Option.bind_some]
        by_cases hlt : i < p
        · have hshort : i < (message lo (.node s p l r)).prefixLen := hlt
          have hnode := message_bit lo (.node s p l r) i hlt (by omega)
          rw [if_pos hshort, syncGetBits_eq _ i (by omega), Option.bind_some, hnode]
          by_cases hbit : bit (first (.node s p l r)) i = bit k i
          · rw [if_neg (by rw [hbit]; simp)]
            exact ih lo (i + 1) (.node s p l r) ht hlo hlt (by omega) (by omega) hstored
          · rw [if_pos (bool_toNat_ne hbit)]
            refine ⟨.null, rfl, ?_, ?_⟩
            · have hnot : k ∉ nodeKeys (.node s p l r) := by
                intro hmem
                exact hbit (agree_of_mem_nodeKeys hU hn _ ht k hmem i hlt).symm
              simp [hnot]
            · intro m c0 c1 heq
              exact absurd heq (by simp)
        · obtain rfl : i = p := by omega
          have hshort : ¬ i < (message lo (.node s i l r)).prefixLen := Nat.lt_irrefl i
          have hchild := embed_child lo i s (bit k i) l r
          rw [embed] at hchild
          rw [if_neg hshort, hchild]
          have hover := ht.side (bit k i)
          have hsides : Stored (side (bit k i) l r) := by
            cases bit k i with
            | false => exact hstored.2.1
            | true => exact hstored.2.2
          obtain ⟨node, hfind, hnull, hmark⟩ := ih (i + 1) (i + 1) _ hover (by omega)
            (position_ge hover.wellFormed (by omega)) (by omega) (by omega) hsides
          refine ⟨node, hfind, ?_, hmark⟩
          rw [hnull, mem_nodeKeys_side hU hn ht k (fun heq => hk heq.symm)]

omit hU hn in
/-- The keys of all nodes are those of the set and its summaries. -/
theorem mem_nodeKeys_iff {S : Finset SyncKey} {lo : ℕ} (t : KeyTrie) (ht : Over U lo t)
    (hmem : ∀ x, x ∈ keys t ↔ x ∈ S ∧ Agree bit lo x (first t)) (k : SyncKey) :
    k ∈ nodeKeys t ↔ k ∈ keys t ∨ ∃ a ∈ keys t, ∃ b ∈ keys t, ∃ p, Agree bit p a b ∧
      bit a p ≠ bit b p ∧ k = summary p a (S.filter fun x => Agree bit p x a) := by
  induction t generalizing lo with
  | leaf s k' =>
    rw [nodeKeys, keys]
    constructor
    · exact Or.inl
    · rintro (hk | ⟨a, ha, b, hb, p, -, hne, -⟩)
      · exact hk
      · rw [Finset.mem_singleton.mp ha, Finset.mem_singleton.mp hb] at hne
        exact absurd rfl hne
  | node s p l r ihl ihr =>
    have hw := ht.wellFormed
    have hfilter : (S.filter fun x => Agree bit p x (first l)) = keys l ∪ keys r := by
      ext x
      rw [Finset.mem_filter]
      constructor
      · rintro ⟨hx, hagree⟩
        exact (hmem x).mpr ⟨hx, hagree.mono hw.1⟩
      · intro hx
        exact ⟨((hmem x).mp hx).1, hw.2.1 x hx⟩
    have hside : ∀ b x, x ∈ keys (side b l r) ↔
      x ∈ S ∧ Agree bit (p + 1) x (first (side b l r)) := by
      intro b x
      have hfirst := (ht.mem_side b _).mp (first_mem (side b l r))
      rw [ht.mem_side b x]
      constructor
      · rintro ⟨hx, hb⟩
        refine ⟨((hmem x).mp hx).1, ?_⟩
        intro i hi
        by_cases hip : i = p
        · rw [hip, hb, hfirst.2]
        · exact hw.agree bit x _ hx hfirst.1 i (by omega)
      · rintro ⟨hx, hagree⟩
        refine ⟨(hmem x).mpr ⟨hx, ?_⟩, ?_⟩
        · have hlow := hw.1
          exact (hagree.mono (by omega)).trans (hw.agree bit _ _ hfirst.1
            (Finset.mem_union_left _ (first_mem l)) |>.mono hlow)
        · rw [hagree p (Nat.lt_succ_self p), hfirst.2]
    rw [nodeKeys, Finset.mem_insert, Finset.mem_union, ihl ht.left (hside false),
      ihr ht.right (hside true)]
    change _ ↔ k ∈ keys l ∪ keys r ∨ ∃ a ∈ keys l ∪ keys r, ∃ b ∈ keys l ∪ keys r, _
    constructor
    · rintro (heq | (hk | ⟨a, ha, b, hb, hrest⟩) | hk | ⟨a, ha, b, hb, hrest⟩)
      · refine Or.inr ⟨first l, Finset.mem_union_left _ (first_mem l), first r,
          Finset.mem_union_right _ (first_mem r), p, ?_, ?_, ?_⟩
        · exact (hw.2.1 _ (Finset.mem_union_right _ (first_mem r))).symm
        · rw [hw.2.2.1 _ (first_mem l), hw.2.2.2.1 _ (first_mem r)]
          exact Bool.false_ne_true
        · rw [hfilter]
          exact heq
      · exact Or.inl (Finset.mem_union_left _ hk)
      · exact Or.inr ⟨a, Finset.mem_union_left _ ha, b, Finset.mem_union_left _ hb, hrest⟩
      · exact Or.inl (Finset.mem_union_right _ hk)
      · exact Or.inr ⟨a, Finset.mem_union_right _ ha, b, Finset.mem_union_right _ hb, hrest⟩
    · -- keys on different sides part at p, those on one side further down
      have hapart : ∀ a b q, a ∈ keys l ∪ keys r → b ∈ keys l ∪ keys r → bit a p ≠ bit b p →
          Agree bit q a b → bit a q ≠ bit b q →
          summary q a (S.filter fun x => Agree bit q x a) =
            summary p (first l) (keys l ∪ keys r) := by
        intro a b q ha hb hdiff hagree hne
        have hpq := position_le bit hw a b ha hb q hne
        obtain rfl : q = p := by
          by_contra hqp
          exact hdiff (hagree p (by omega))
        have hfirst := hw.2.1 a ha
        rw [summary_congr q a (first l) _ hfirst, ← hfilter]
        congr 1
        ext x
        rw [Finset.mem_filter, Finset.mem_filter]
        exact ⟨fun h => ⟨h.1, h.2.trans hfirst⟩, fun h => ⟨h.1, h.2.trans hfirst.symm⟩⟩
      rintro (hk | ⟨a, ha, b, hb, q, hagree, hne, heq⟩)
      · rcases Finset.mem_union.mp hk with hk | hk
        · exact Or.inr (Or.inl (Or.inl hk))
        · exact Or.inr (Or.inr (Or.inl hk))
      · by_cases hsame : bit a p = bit b p
        · have ha' := (ht.mem_side _ a).mpr ⟨ha, rfl⟩
          have hb' := (ht.mem_side _ b).mpr ⟨hb, hsame.symm⟩
          cases hbit : bit a p with
          | false =>
            rw [hbit] at ha' hb'
            exact Or.inr (Or.inl (Or.inr ⟨a, ha', b, hb', q, hagree, hne, heq⟩))
          | true =>
            rw [hbit] at ha' hb'
            exact Or.inr (Or.inr (Or.inr ⟨a, ha', b, hb', q, hagree, hne, heq⟩))
        · rw [heq, hapart a b q ha hb hsame hagree hne]
          exact Or.inl rfl

def Built (U : Set SyncKey) (S : Finset SyncKey) (p : Party) : Prop :=
  (S = ∅ ∧ p = freshParty) ∨
    ∃ t, p = { freshParty with root := embed 0 t } ∧ Over U 0 t ∧ Stored t ∧ keys t = S

theorem findMessage_built {S : Finset SyncKey} {p : Party} (h : Built U S p) (k : SyncKey) :
    ∃ node, findMessage p.root (leafMessage k) = some node ∧ (node = .null ↔ ¬ Found S k) ∧
      ∀ m c0 c1, node = .mk m c0 c1 → m.stored = true := by
  rcases h with ⟨rfl, rfl⟩ | ⟨t, rfl, ht, hstored, rfl⟩
  · refine ⟨.null, rfl, ?_, ?_⟩
    · simp [Found]
    · intro m c0 c1 heq
      exact absurd heq (by simp)
  · obtain ⟨c0, c1, hembed⟩ := embed_message 0 t
    have hle : position t ≤ 64 := by
      cases t with
      | leaf s k => exact Nat.le_refl 64
      | node s p l r =>
        have hp := ht.position_lt hU
        change p ≤ 64
        omega
    have hstart : findMessage (embed 0 t) (leafMessage k) =
        findLoop (leafMessage k) 65 (embed 0 t) (position t) := by
      rw [hembed, findMessage, message_prefixLen]
      rfl
    obtain ⟨node, hfind, hnull, hmark⟩ := findLoop_nodeKeys hU hn k 65 0 (position t) t ht
      (Nat.zero_le _) (Nat.le_refl _) hle (by omega) hstored
    refine ⟨node, hstart.trans hfind, ?_, hmark⟩
    rw [hnull, mem_nodeKeys_iff t ht (S := keys t) (fun x =>
      ⟨fun hx => ⟨hx, fun i hi => absurd hi (Nat.not_lt_zero i)⟩, fun hx => hx.1⟩)]
    rfl

theorem leafKeys_built {S : Finset SyncKey} {p : Party} (h : Built U S p) :
    leafKeys p.root = S := by
  rcases h with ⟨rfl, rfl⟩ | ⟨t, rfl, ht, -, rfl⟩
  · rfl
  · exact leafKeys_embed hU hn 0 0 t ht

theorem syncAddKey_built {S : Finset SyncKey} {p : Party} (h : Built U S p) {k : SyncKey}
    (hk : k ∈ U) :
    ∃ p', syncAddKey p k = some p' ∧ (Found S k → p' = p) ∧
      (¬ Found S k → Built U (Insert.insert k S) p') := by
  obtain ⟨node, hfind, hnull, hmark⟩ := findMessage_built hU hn h k
  cases node with
  | mk m c0 c1 =>
    have hfound : Found S k := by
      by_contra hno
      exact absurd (hnull.mpr hno) (by simp)
    refine ⟨p, ?_, fun _ => rfl, fun hno => absurd hfound hno⟩
    rw [syncAddKey, hfind, Option.bind_eq_bind, Option.bind_some]
    simp only
    rw [markStored_stored m (hmark m c0 c1 rfl)]
  | null =>
    have hnot := hnull.mp rfl
    have hnew : k ∉ S := fun hmem => hnot (Or.inl hmem)
    have hadd : ∃ t, addKey p.root k true = some (embed 0 t) ∧ Over U 0 t ∧ Stored t ∧
        keys t = Insert.insert k S := by
      rcases h with ⟨rfl, rfl⟩ | ⟨t, rfl, ht, hstored, rfl⟩
      · refine ⟨.leaf true k, rfl, ⟨trivial, ?_⟩, rfl, rfl⟩
        intro x hx
        rw [Finset.mem_singleton.mp hx]
        exact hk
      · exact ⟨_, addKey_embed hU hn k hk true t ht hnew,
          ht.insertKey hU k hk true hnew (fun i hi => absurd hi (Nat.not_lt_zero i)),
          stored_insert k t hstored, keys_insert bit true k t⟩
    obtain ⟨t, hrun, ht, hstored, hkeys⟩ := hadd
    have hpeer : p = { freshParty with root := p.root } := by
      rcases h with ⟨-, rfl⟩ | ⟨t, rfl, -⟩ <;> rfl
    refine ⟨{ freshParty with root := embed 0 t }, ?_, fun hfound => absurd hfound hnot,
      fun _ => Or.inr ⟨t, rfl, ht, hstored, hkeys⟩⟩
    rw [syncAddKey, hfind, Option.bind_eq_bind, Option.bind_some]
    simp only [hrun, Option.bind_some]
    rw [hpeer]
    rfl

end Lookup

structure Exact (ks : List SyncKey) (s : Counted) : Prop where
  lookup : ∀ k, syncKeyExists s.party k = some (decide (k ∈ ks))
  keyCount : s.keyCount.toNat = ks.toFinset.card
  leaves : leafKeys s.party.root = ks.toFinset

section Runs

variable {U : Set SyncKey} (hU : Spread 63 U)

include hU

theorem syncKeyExists_built {S : Finset SyncKey} {p : Party} (h : Built U S p) (k : SyncKey) :
    ∃ b, syncKeyExists p k = some b ∧ (b = true ↔ Found S k) := by
  obtain ⟨node, hfind, hnull, -⟩ := findMessage_built hU (Nat.le_refl _) h k
  refine ⟨decide (node ≠ .null), ?_, ?_⟩
  · rw [syncKeyExists, hfind]
    rfl
  · rw [decide_eq_true_iff, ne_eq, hnull, not_not]

/-- A state in which nothing was taken for a key. -/
structure Complete (U : Set SyncKey) (ks : List SyncKey) (s : Counted) : Prop where
  built : Built U ks.toFinset s.party
  keyCount : s.keyCount = UInt32.ofNat ks.toFinset.card

theorem add_complete {ks : List SyncKey} {s : Counted} (h : Complete U ks s) {k : SyncKey}
    (hk : k ∈ U) (hclosed : ClosedUnderSummaries ks.toFinset) :
    ∃ s', s.add k = some s' ∧ Complete U (ks ++ [k]) s' := by
  obtain ⟨b, hexists, hb⟩ := syncKeyExists_built hU h.built k
  obtain ⟨p', hadd, hold, hnew⟩ := syncAddKey_built hU (Nat.le_refl _) h.built hk
  have hset : (ks ++ [k]).toFinset = Insert.insert k ks.toFinset := by
    rw [List.toFinset_append, Finset.union_comm, List.toFinset_cons, List.toFinset_nil,
      Finset.insert_eq k ks.toFinset]
    rfl
  refine ⟨{ party := p', keyCount := if b then s.keyCount else s.keyCount + 1 }, ?_, ?_⟩
  · rw [Counted.add, hexists, hadd]
    rfl
  · by_cases hfound : Found ks.toFinset k
    · have hmem := (closedUnderSummaries_iff _).mp hclosed k hfound
      have hsame : (ks ++ [k]).toFinset = ks.toFinset := by
        rw [hset, Finset.insert_eq_of_mem hmem]
      refine ⟨?_, ?_⟩
      · rw [hsame, hold hfound]
        exact h.built
      · rw [hsame, if_pos (hb.mpr hfound)]
        exact h.keyCount
    · have hnot : k ∉ ks.toFinset := fun hmem => hfound (Or.inl hmem)
      refine ⟨?_, ?_⟩
      · rw [hset]
        exact hnew hfound
      · rw [hset, Finset.card_insert_of_notMem hnot, if_neg (fun ht => hfound (hb.mp ht)),
          h.keyCount, UInt32.ofNat_add]
        rfl

theorem addKeys_complete (ks : List SyncKey) (hmem : ∀ k ∈ ks, k ∈ U)
    (hclosed : ∀ ks', ks' <+: ks → ks' ≠ ks → ClosedUnderSummaries ks'.toFinset) :
    ∃ s, fresh.addKeys ks = some s ∧ Complete U ks s := by
  induction ks using List.reverseRecOn with
  | nil => exact ⟨fresh, rfl, Or.inl ⟨rfl, rfl⟩, rfl⟩
  | append_singleton ks k ih =>
    have hfewer : ∀ ks', ks' <+: ks → ks' <+: ks ++ [k] ∧ ks' ≠ ks ++ [k] := by
      intro ks' hpre
      refine ⟨hpre.trans (List.prefix_append ks [k]), ?_⟩
      intro heq
      have hlen := hpre.length_le
      rw [heq, List.length_append, List.length_singleton] at hlen
      omega
    obtain ⟨s, hrun, hs⟩ := ih (fun x hx => hmem x (List.mem_append_left _ hx))
      (fun ks' hpre _ => hclosed ks' (hfewer ks' hpre).1 (hfewer ks' hpre).2)
    obtain ⟨s', hadd, hs'⟩ := add_complete hU hs (hmem k (List.mem_append_right _ (by simp)))
      (hclosed ks (hfewer ks (List.prefix_refl ks)).1 (hfewer ks (List.prefix_refl ks)).2)
    refine ⟨s', ?_, hs'⟩
    unfold Counted.addKeys at hrun ⊢
    rw [List.foldlM_append, hrun, Option.bind_eq_bind, Option.bind_some, List.foldlM_cons, hadd]
    rfl

theorem exact_iff {ks : List SyncKey} {s : Counted} (h : Complete U ks s) :
    Exact ks s ↔ ks.toFinset.card < 2 ^ 32 ∧ ClosedUnderSummaries ks.toFinset := by
  have hcount : s.keyCount.toNat = ks.toFinset.card % 2 ^ 32 := by
    rw [h.keyCount, UInt32.toNat_ofNat']
  constructor
  · intro hexact
    refine ⟨?_, (closedUnderSummaries_iff _).mpr ?_⟩
    · rw [← hexact.keyCount, hcount]
      exact Nat.mod_lt _ (by decide)
    · intro k hfound
      obtain ⟨b, hexists, hb⟩ := syncKeyExists_built hU h.built k
      rw [hexact.lookup k, Option.some.injEq] at hexists
      rw [List.mem_toFinset]
      exact of_decide_eq_true (hexists.trans (hb.mpr hfound))
  · rintro ⟨hfew, hclosed⟩
    refine ⟨?_, ?_, leafKeys_built hU (Nat.le_refl _) h.built⟩
    · intro k
      obtain ⟨b, hexists, hb⟩ := syncKeyExists_built hU h.built k
      have hmem : Found ks.toFinset k ↔ k ∈ ks := by
        rw [← List.mem_toFinset]
        exact ⟨(closedUnderSummaries_iff _).mp hclosed k, Or.inl⟩
      rw [hexists, Option.some.injEq, Bool.eq_iff_iff, hb, hmem, decide_eq_true_iff]
    · rw [hcount, Nat.mod_eq_of_lt hfew]

end Runs

/-- Every state on the way is exact exactly when the keys added so far are
always closed under summaries, and fit the counter. -/
theorem lookup_exact_iff_closed (ks : List SyncKey) (hU : Spread 63 {k | k ∈ ks}) :
    (∀ ks', ks' <+: ks → ∃ s, fresh.addKeys ks' = some s ∧ Exact ks' s) ↔
      ks.toFinset.card < 2 ^ 32 ∧ ∀ ks', ks' <+: ks → ClosedUnderSummaries ks'.toFinset := by
  have hmem : ∀ ks', ks' <+: ks → ∀ k ∈ ks', k ∈ {k | k ∈ ks} :=
    fun ks' hpre k hk => hpre.subset hk
  constructor
  · intro hexact
    have hclosed : ∀ n ks', ks'.length = n → ks' <+: ks →
        ks'.toFinset.card < 2 ^ 32 ∧ ClosedUnderSummaries ks'.toFinset := by
      intro n
      induction n using Nat.strong_induction_on with
      | _ n ih =>
        intro ks' hlen hpre
        obtain ⟨s, hrun, hs⟩ := hexact ks' hpre
        obtain ⟨s', hrun', hs'⟩ := addKeys_complete hU ks' (hmem ks' hpre) (by
          intro ks'' hpre' hne
          have hlt : ks''.length < n := by
            have hle := hpre'.length_le
            by_contra hge
            exact hne (hpre'.eq_of_length (by omega))
          exact (ih _ hlt ks'' rfl (hpre'.trans hpre)).2)
        obtain rfl : s' = s := Option.some.inj (hrun'.symm.trans hrun)
        exact (exact_iff hU hs').mp hs
    exact ⟨(hclosed _ ks rfl (List.prefix_refl ks)).1,
      fun ks' hpre => (hclosed _ ks' rfl hpre).2⟩
  · rintro ⟨hfew, hclosed⟩ ks' hpre
    obtain ⟨s, hrun, hs⟩ := addKeys_complete hU ks' (hmem ks' hpre)
      (fun ks'' hpre' _ => hclosed ks'' (hpre'.trans hpre))
    refine ⟨s, hrun, (exact_iff hU hs).mpr ⟨?_, hclosed ks' hpre⟩⟩
    have hsub : ks'.toFinset ⊆ ks.toFinset := fun k hk =>
      List.mem_toFinset.mpr (hpre.subset (List.mem_toFinset.mp hk))
    exact Nat.lt_of_le_of_lt (Finset.card_le_card hsub) hfew

def summariesWithin (ks : List SyncKey) : Bool :=
  ks.all fun a => ks.all fun b => (List.range 64).all fun p =>
    !(decide (Agree bit p a b) && bit a p != bit b p) ||
      decide (summary p a (ks.toFinset.filter fun k => Agree bit p k a) ∈ ks)

theorem closed_of_summariesWithin {ks : List SyncKey} (h : summariesWithin ks = true) :
    ClosedUnderSummaries ks.toFinset := by
  intro a ha b hb p hagree hne
  have hp : p < 64 := by
    by_contra hge
    rw [bit_of_ge a p (by omega), bit_of_ge b p (by omega)] at hne
    exact absurd rfl hne
  have hpair := List.all_eq_true.mp (List.all_eq_true.mp h a (List.mem_toFinset.mp ha)) b
    (List.mem_toFinset.mp hb)
  have hbit := List.all_eq_true.mp hpair p (List.mem_range.mpr hp)
  rw [decide_eq_true hagree, Bool.true_and, bne_iff_ne.mpr hne, Bool.not_true,
    Bool.false_or] at hbit
  exact List.mem_toFinset.mpr (of_decide_eq_true hbit)

/-- The summary of 01 and 00 is 01. -/
theorem lookup_exact_two :
    ∃ s, fresh.addKeys [keyOf [1], keyOf [0]] = some s ∧ Exact [keyOf [1], keyOf [0]] s := by
  have hspread : Spread 63 {k | k ∈ [keyOf [1], keyOf [0]]} :=
    spread_of_partBefore (by decide +kernel)
  have hclosed : ∀ ks' ∈ [keyOf [1], keyOf [0]].inits, ClosedUnderSummaries ks'.toFinset := by
    intro ks' hks'
    have hall : ([keyOf [1], keyOf [0]].inits.all summariesWithin) = true := by
      decide +kernel
    exact closed_of_summariesWithin (List.all_eq_true.mp hall ks' hks')
  exact (lookup_exact_iff_closed _ hspread).mpr ⟨by decide +kernel,
    fun ks' hpre => hclosed ks' (List.mem_inits ks' _ |>.mpr hpre)⟩ _ (List.prefix_refl _)

/-- The XOR of two keys is taken for a third. -/
theorem lookup_finds_summary :
    ¬ ∀ ks : List SyncKey, Spread 63 {k | k ∈ ks} →
      ∃ s, fresh.addKeys ks = some s ∧ Exact ks s := by
  intro hall
  have hspread : Spread 63 {k | k ∈ [keyOf [0x01], keyOf [0x80]]} :=
    spread_of_partBefore (by decide +kernel)
  obtain ⟨s, hrun, hexact⟩ := hall _ hspread
  have hfound : (fresh.addKeys [keyOf [0x01], keyOf [0x80]]).bind
      (fun s => syncKeyExists s.party (keyOf [0x81])) = some true := by
    decide +kernel
  rw [hrun, Option.bind_some, hexact.lookup] at hfound
  exact absurd hfound (by decide +kernel)

end Succinct.SyncLookup
