import Succinct.SyncBits

/-!
The key tree as a path-compressed trie. A trie of keys determines a tree of
nodes: the summary of an inner node is the common prefix of its keys followed
by the XOR of their remaining bits. add_key and remove_key are insertion and
deletion in the trie, and never fail an assertion there.
-/
namespace Succinct.SyncTree

open SyncKeys BitTries SyncBits

abbrev KeyTrie := Trie Bool SyncKey

def ofBits (f : ℕ → Bool) : SyncKey :=
  fun i => UInt8.ofNat (Nat.ofBits fun n : Fin 8 => f (8 * i.val + (7 - n.val)))

theorem bit_ofBits (f : ℕ → Bool) (i : ℕ) (hi : i < 64) : bit (ofBits f) i = f i := by
  have hlt : (Nat.ofBits fun n : Fin 8 => f (8 * (i / 8) + (7 - n.val))) < 256 :=
    Nat.ofBits_lt_two_pow _
  rw [bit_eq _ i hi, ofBits, UInt8.toNat_ofNat', Nat.mod_eq_of_lt hlt]
  rw [Nat.testBit_ofBits_lt _ _ (by omega)]
  congr 1
  change 8 * (i / 8) + (7 - (7 - i % 8)) = i
  omega

/-- The first p bits of a key, then the XOR of the remaining bits of a set. -/
def summary (p : ℕ) (k : SyncKey) (S : Finset SyncKey) : SyncKey :=
  ofBits fun i => if i < p then bit k i else parity (fun x => bit x i) S

theorem bit_summary (p : ℕ) (k : SyncKey) (S : Finset SyncKey) (i : ℕ) (hi : i < 64) :
    bit (summary p k S) i = if i < p then bit k i else parity (fun x => bit x i) S :=
  bit_ofBits _ i hi

theorem summary_congr (p : ℕ) (a b : SyncKey) (S : Finset SyncKey) (h : Agree bit p a b) :
    summary p a S = summary p b S := by
  apply key_ext
  intro i hi
  rw [bit_summary _ _ _ _ hi, bit_summary _ _ _ _ hi]
  split
  case isTrue hlt =>
    exact h i hlt
  case isFalse =>
    rfl

/-- A single key is its own summary. -/
theorem summary_singleton (p : ℕ) (k : SyncKey) : summary p k {k} = k := by
  apply key_ext
  intro i hi
  rw [bit_summary _ _ _ _ hi, parity_singleton]
  split <;> rfl

/-- A destination that has the XOR of a set behind its prefix, and in its
prefix no bits but those of the given key. -/
def Carries (p : ℕ) (a : SyncKey) (S : Finset SyncKey) (key : SyncKey) : Prop :=
  ∀ i, i < 64 → (i < p → bit key i = true → bit a i = true) ∧
    (p ≤ i → bit key i = parity (fun x => bit x i) S)

theorem carries_summary (p : ℕ) (a : SyncKey) (S : Finset SyncKey) :
    Carries p a S (summary p a S) := by
  intro i hi
  rw [bit_summary _ _ _ _ hi]
  refine ⟨?_, ?_⟩
  · intro hlt h
    rwa [if_pos hlt] at h
  · intro hge
    rw [if_neg (by omega)]

theorem carries_zero (p : ℕ) (a : SyncKey) : Carries p a ∅ (fun _ => 0) := by
  intro i hi
  have hzero : bit (fun _ => 0) i = false := by simp [bit_eq _ i hi]
  rw [hzero, parity_empty]
  exact ⟨fun _ h => Bool.noConfusion h, fun _ => rfl⟩

theorem syncXor_summary (p : ℕ) (a : SyncKey) (S D : Finset SyncKey) (dest : KeyMessage)
    (hp : dest.prefixLen = p) (hlt : p < 64) (hcarry : Carries p a S dest.key) :
    syncXor (summary p a D) dest = some { dest with key := summary p a (symmDiff S D) } := by
  subst p
  obtain ⟨key, hkey, hbits⟩ := syncXor_bit (summary dest.prefixLen a D) dest hlt (by
    intro i hi h
    rw [bit_summary _ _ _ _ (by omega), if_pos hi]
    exact (hcarry i (by omega)).1 hi h)
  have heq : key = summary dest.prefixLen a (symmDiff S D) := by
    apply key_ext
    intro i hi
    rw [hbits i hi, bit_summary _ _ _ _ hi, bit_summary _ _ _ _ hi, parity_symmDiff]
    by_cases hlt : i < dest.prefixLen
    · simp only [if_pos hlt]
    · simp only [if_neg hlt]
      rw [(hcarry i hi).2 (by omega)]
  rw [hkey, heq]

theorem syncXor_key (p : ℕ) (a k : SyncKey) (S : Finset SyncKey) (dest : KeyMessage)
    (hp : dest.prefixLen = p) (hlt : p < 64) (hcarry : Carries p a S dest.key)
    (hagree : Agree bit p k a) :
    syncXor k dest = some { dest with key := summary p a (symmDiff S {k}) } := by
  have hk : k = summary p a {k} := by
    rw [← summary_congr p k a _ hagree, summary_singleton]
  have h := syncXor_summary p a S {k} dest hp hlt hcarry
  rwa [← hk] at h

def position : KeyTrie → ℕ
  | .leaf _ _ => 64
  | .node _ p _ _ => p

def message (lo : ℕ) : KeyTrie → KeyMessage
  | .leaf s k => { minPrefixLen := lo, stored := s, prefixLen := 64, key := k }
  | .node s p l r =>
    { minPrefixLen := lo, stored := s, prefixLen := p,
      key := summary p (first l) (keys l ∪ keys r) }

/-- The tree of nodes of a trie whose parent splits just before lo. -/
def embed (lo : ℕ) : KeyTrie → Node
  | .leaf s k => .mk (message lo (.leaf s k)) .null .null
  | .node s p l r => .mk (message lo (.node s p l r)) (embed (p + 1) l) (embed (p + 1) r)

def Spread (n : ℕ) (U : Set SyncKey) : Prop :=
  ∀ a ∈ U, ∀ b ∈ U, a ≠ b → ∃ i, i < n ∧ bit a i ≠ bit b i

structure Over (U : Set SyncKey) (lo : ℕ) (t : KeyTrie) : Prop where
  wellFormed : WellFormed bit lo t
  mem : ∀ k ∈ keys t, k ∈ U

theorem Over.left {U : Set SyncKey} {lo p : ℕ} {s : Bool} {l r : KeyTrie}
    (h : Over U lo (.node s p l r)) : Over U (p + 1) l :=
  ⟨h.wellFormed.2.2.2.2.1, fun k hk => h.mem k (Finset.mem_union_left _ hk)⟩

theorem Over.right {U : Set SyncKey} {lo p : ℕ} {s : Bool} {l r : KeyTrie}
    (h : Over U lo (.node s p l r)) : Over U (p + 1) r :=
  ⟨h.wellFormed.2.2.2.2.2, fun k hk => h.mem k (Finset.mem_union_right _ hk)⟩

theorem Over.position_lt {n : ℕ} {U : Set SyncKey} (hU : Spread n U) {lo p : ℕ} {s : Bool}
    {l r : KeyTrie} (h : Over U lo (.node s p l r)) : p < n := by
  have hw := h.wellFormed
  have hl : first l ∈ keys l ∪ keys r := Finset.mem_union_left _ (first_mem l)
  have hr : first r ∈ keys l ∪ keys r := Finset.mem_union_right _ (first_mem r)
  have hbit : bit (first l) p ≠ bit (first r) p := by
    rw [hw.2.2.1 _ (first_mem l), hw.2.2.2.1 _ (first_mem r)]
    exact Bool.false_ne_true
  obtain ⟨i, hi, hne⟩ := hU _ (h.mem _ hl) _ (h.mem _ hr) (fun heq => hbit (by rw [heq]))
  exact Nat.lt_of_le_of_lt (position_le bit hw _ _ hl hr i hne) hi

/-- Before its position, the summary of a trie has the bits of its keys. -/
theorem message_bit (lo : ℕ) (t : KeyTrie) (i : ℕ) (hi : i < position t) (hlt : i < 64) :
    bit (message lo t).key i = bit (first t) i := by
  cases t with
  | leaf s k => rfl
  | node s p l r =>
    have hp : i < p := hi
    rw [message, bit_summary _ _ _ _ hlt, if_pos hp]
    rfl

theorem message_prefixLen (lo : ℕ) (t : KeyTrie) : (message lo t).prefixLen = position t := by
  cases t <;> rfl

theorem embed_message (lo : ℕ) (t : KeyTrie) :
    ∃ c0 c1, embed lo t = .mk (message lo t) c0 c1 := by
  cases t with
  | leaf s k => exact ⟨_, _, rfl⟩
  | node s p l r => exact ⟨_, _, rfl⟩

/-- A tree moves to another parent by a change of its own node alone. -/
theorem embed_moved (lo lo' : ℕ) (t : KeyTrie) :
    ∃ c0 c1, embed lo t = .mk (message lo t) c0 c1 ∧
      embed lo' t = .mk { message lo t with minPrefixLen := lo' } c0 c1 := by
  cases t with
  | leaf s k => exact ⟨_, _, rfl, rfl⟩
  | node s p l r => exact ⟨_, _, rfl, rfl⟩

theorem keys_agree {lo : ℕ} (t : KeyTrie) (hw : WellFormed bit lo t) (k : SyncKey)
    (hk : k ∈ keys t) : Agree bit (position t) k (first t) := by
  cases t with
  | leaf s k' =>
    rw [Finset.mem_singleton.mp hk]
    exact fun _ _ => rfl
  | node s p l r => exact hw.2.1 k hk

theorem position_ge {lo : ℕ} {t : KeyTrie} (hw : WellFormed bit lo t) (hlo : lo ≤ 64) :
    lo ≤ position t := by
  cases t with
  | leaf s k => exact hlo
  | node s p l r => exact hw.1

def side (b : Bool) (l r : KeyTrie) : KeyTrie := if b then r else l

theorem embed_child (lo p : ℕ) (s b : Bool) (l r : KeyTrie) :
    (embed lo (.node s p l r)).child b.toNat = embed (p + 1) (side b l r) := by
  cases b <;> rfl

theorem Over.side {U : Set SyncKey} {lo p : ℕ} {s : Bool} {l r : KeyTrie}
    (h : Over U lo (.node s p l r)) (b : Bool) : Over U (p + 1) (side b l r) := by
  cases b with
  | false => exact h.left
  | true => exact h.right

/-- The keys on one side are those with its bit. -/
theorem Over.mem_side {U : Set SyncKey} {lo p : ℕ} {s : Bool} {l r : KeyTrie}
    (h : Over U lo (.node s p l r)) (b : Bool) (k : SyncKey) :
    k ∈ keys (SyncTree.side b l r) ↔ k ∈ keys l ∪ keys r ∧ bit k p = b := by
  cases b with
  | false =>
    have hl := keys_left bit h.wellFormed
    rw [SyncTree.side, if_neg (by simp), hl]
    simp only [Finset.mem_filter]
    rw [← hl]
  | true =>
    have hr := keys_right bit h.wellFormed
    rw [SyncTree.side, if_pos rfl, hr]
    simp only [Finset.mem_filter]
    rw [← hr]

/-- The child along a key agrees with it on one more bit. -/
theorem Over.agree_side {U : Set SyncKey} {lo p : ℕ} {s : Bool} {l r : KeyTrie} {x : SyncKey}
    (h : Over U lo (.node s p l r)) (hagree : Agree bit p (first l) x) :
    Agree bit (p + 1) (first (SyncTree.side (bit x p) l r)) x := by
  have hfirst := (h.mem_side (bit x p) _).mp (first_mem (SyncTree.side (bit x p) l r))
  intro n hn
  by_cases heq : n = p
  · rw [heq, hfirst.2]
  · rw [h.wellFormed.2.1 _ hfirst.1 n (by omega)]
    exact hagree n (by omega)

theorem leaves_side (p : ℕ) (s b : Bool) (l r : KeyTrie) (e : Bool × SyncKey)
    (h : e ∈ leaves (side b l r)) : e ∈ leaves (.node s p l r) := by
  cases b with
  | false => exact List.mem_append_left _ h
  | true => exact List.mem_append_right _ h

theorem bool_toNat_ne {a b : Bool} (h : a ≠ b) : ¬ a.toNat = b.toNat := by
  cases a <;> cases b <;> simp_all

/-- The last two turns of add_key, after it has put a new parent in place. -/
theorem addLoop_parent (k : SyncKey) (s : Bool) (fuel d next : ℕ) (a : SyncKey)
    (S : Finset SyncKey) (m : KeyMessage) (old : Node) (hd : d < 63) (hm : m.prefixLen = d)
    (hkey : m.key = summary d a S) (hagree : Agree bit d k a) :
    addLoop k s (fuel + 2) (Node.setChild m .null .null (!bit k d).toNat old) d next =
      some (Node.setChild { m with key := summary d a (symmDiff S {k}) }
        (leafNode k (d + 1) s) (leafNode k (d + 1) s) (!bit k d).toNat old) := by
  have hbits := syncGetBits_eq k d hd
  have hxor : syncXor k m = some { m with key := summary d a (symmDiff S {k}) } := by
    apply syncXor_key d a k S m hm (by omega) _ hagree
    rw [hkey]
    exact carries_summary d a S
  have hleaf : addLoop k s (fuel + 1) .null (d + PREFIX_STEP_BITS) (d + PREFIX_STEP_BITS) =
      some (leafNode k (d + 1) s) := rfl
  cases hbit : bit k d with
  | false =>
    rw [hbit] at hbits
    simp only [Bool.toNat_false] at hbits
    simp only [Bool.not_false, Bool.toNat_true, Node.setChild, Nat.one_ne_zero, if_false]
    rw [addLoop, hbits]
    simp only [Option.bind_eq_bind, Option.bind_some, hm, if_true, hxor, Node.child, hleaf,
      Node.setChild]
  | true =>
    rw [hbit] at hbits
    simp only [Bool.toNat_true] at hbits
    simp only [Bool.not_true, Bool.toNat_false, Node.setChild, if_true]
    rw [addLoop, hbits]
    simp only [Option.bind_eq_bind, Option.bind_some, hm, if_true, hxor, Node.child, hleaf,
      Node.setChild, Nat.one_ne_zero, if_false]

theorem embed_branch (lo d : ℕ) (s : Bool) (k : SyncKey) (t : KeyTrie) (hk : k ∉ keys t)
    (hagree : Agree bit d k (first t)) :
    embed lo (branch bit s d k t) =
      Node.setChild { minPrefixLen := lo, stored := s, prefixLen := d,
                      key := summary d (first t) (symmDiff (keys t) {k}) }
        (leafNode k (d + 1) s) (leafNode k (d + 1) s) (!bit k d).toNat (embed (d + 1) t) := by
  have hdisj : Disjoint (keys t) {k} := Finset.disjoint_singleton_right.mpr hk
  have hkeys : symmDiff (keys t) {k} = keys t ∪ {k} := hdisj.symmDiff_eq_sup
  unfold branch
  cases hbit : bit k d with
  | false =>
    have hsummary := summary_congr d k (first t) (keys t ∪ {k}) hagree
    rw [hkeys, ← hsummary, Finset.union_comm]
    rfl
  | true =>
    rw [hkeys]
    rfl

/-- A turn of add_key that only moves on by a bit. -/
theorem addLoop_skip (k : SyncKey) (s : Bool) (fuel lo i : ℕ) (t : KeyTrie) (hi : i < 63)
    (hpos : i < position t) (hbit : bit k i = bit (first t) i) :
    addLoop k s (fuel + 1) (embed lo t) i lo = addLoop k s fuel (embed lo t) (i + 1) lo := by
  obtain ⟨c0, c1, hembed⟩ := embed_message lo t
  have hlen : ¬ (message lo t).prefixLen = i := by
    rw [message_prefixLen]
    omega
  have hnode : syncGetBits i PREFIX_STEP_BITS (message lo t).key = some (bit k i).toNat := by
    rw [syncGetBits_eq _ i hi, message_bit lo t i hpos (by omega), hbit]
  rw [hembed, addLoop, syncGetBits_eq k i hi]
  simp only [Option.bind_eq_bind, Option.bind_some, if_neg hlen, hnode, if_true]
  rfl

/-- The summary of a node after a key is added below it. -/
theorem message_insert (lo p : ℕ) (s : Bool) (k : SyncKey) (l r : KeyTrie) (hp : p < 64)
    (hagree : Agree bit p k (first l)) (hk : k ∉ keys l ∪ keys r) :
    syncXor k (message lo (.node s p l r)) =
      some { minPrefixLen := lo, stored := s, prefixLen := p,
             key := summary p (first l) (Insert.insert k (keys l ∪ keys r)) } := by
  have h := syncXor_key p (first l) k (keys l ∪ keys r) (message lo (.node s p l r)) rfl hp
    (carries_summary p _ _) hagree
  have hdisj : Disjoint (keys l ∪ keys r) {k} := Finset.disjoint_singleton_right.mpr hk
  have hkeys : symmDiff (keys l ∪ keys r) {k} = Insert.insert k (keys l ∪ keys r) := by
    rw [hdisj.symmDiff_eq_sup, Finset.insert_eq, Finset.union_comm {k}]
    rfl
  rw [h, hkeys]
  rfl

theorem insertKey_split (k : SyncKey) (s : Bool) (t : KeyTrie) (i : ℕ) (hpos : i < position t)
    (hagree : Agree bit i k (first t)) (hne : bit k i ≠ bit (first t) i) :
    insertKey bit s k t = branch bit s i k t := by
  have hdiff := diff_eq bit k (first t) i hagree hne
  cases t with
  | leaf s' k' =>
    change diff bit k k' = i at hdiff
    rw [insertKey, hdiff]
  | node s' p l r =>
    change diff bit k (first l) = i at hdiff
    have hlt : i < p := hpos
    rw [insertKey, hdiff, if_pos hlt]

/-- The summary of a node after a key below it is removed. -/
theorem message_erase (lo p : ℕ) (s : Bool) (k : SyncKey) (l r : KeyTrie) (hp : p < 64)
    (hagree : Agree bit p k (first l)) (hk : k ∈ keys l ∪ keys r) :
    syncXor k (message lo (.node s p l r)) =
      some { minPrefixLen := lo, stored := s, prefixLen := p,
             key := summary p (first l) ((keys l ∪ keys r).erase k) } := by
  have h := syncXor_key p (first l) k (keys l ∪ keys r) (message lo (.node s p l r)) rfl hp
    (carries_summary p _ _) hagree
  have hkeys : symmDiff (keys l ∪ keys r) {k} = (keys l ∪ keys r).erase k := by
    rw [symmDiff_of_ge (Finset.singleton_subset_iff.mpr hk), Finset.sdiff_singleton_eq_erase]
  rw [h, hkeys]
  rfl

section Refinement

variable {n : ℕ} {U : Set SyncKey} (hU : Spread n U) (hn : n ≤ 63)

include hU hn

theorem xorChildren_embed (lo lo' p : ℕ) (a : SyncKey) (S : Finset SyncKey) (t : KeyTrie)
    (ht : Over U lo' t) (dest : KeyMessage) (hp : dest.prefixLen = p) (hlt : p < 64)
    (hcarry : Carries p a S dest.key) (hagree : ∀ k ∈ keys t, Agree bit p k a) :
    xorChildren (embed lo t) dest =
      some { dest with key := summary p a (symmDiff S (keys t)) } := by
  induction t generalizing lo lo' S dest with
  | leaf s k =>
    exact syncXor_key p a k S dest hp hlt hcarry (hagree k (Finset.mem_singleton_self k))
  | node s q l r ihl ihr =>
    have hq := ht.position_lt hU
    have hne : ¬ (message lo (.node s q l r)).prefixLen = KEY_LEN_BITS := by
      change ¬ q = 64
      omega
    have hleft := ihl (q + 1) (q + 1) S ht.left dest hp hcarry
      (fun k hk => hagree k (Finset.mem_union_left _ hk))
    have hright := ihr (q + 1) (q + 1) (symmDiff S (keys l)) ht.right
      { dest with key := summary p a (symmDiff S (keys l)) } hp (carries_summary p a _)
      (fun k hk => hagree k (Finset.mem_union_right _ hk))
    have hkeys : symmDiff (symmDiff S (keys l)) (keys r) = symmDiff S (keys (.node s q l r)) := by
      rw [symmDiff_assoc, (ht.wellFormed.disjoint bit).symmDiff_eq_sup]
      rfl
    rw [embed, xorChildren, if_neg hne, hleft]
    simp only [Option.bind_eq_bind, Option.bind_some]
    rw [hright, hkeys]

theorem addLoop_split (k : SyncKey) (s : Bool) (fuel lo d : ℕ) (t : KeyTrie) (ht : Over U lo t)
    (hd : d < 63) (hpos : d < position t) (hagree : Agree bit d k (first t))
    (hne : bit k d ≠ bit (first t) d) (hk : k ∉ keys t) :
    addLoop k s (fuel + 3) (embed lo t) d lo = some (embed lo (branch bit s d k t)) := by
  obtain ⟨c0, c1, hembed, hmoved⟩ := embed_moved lo (d + 1) t
  have hlen : ¬ (message lo t).prefixLen = d := by
    rw [message_prefixLen]
    omega
  have hfirst : bit (first t) d = !bit k d := by
    cases hb : bit k d <;> cases hb' : bit (first t) d <;> simp_all
  have hnode : syncGetBits d PREFIX_STEP_BITS (message lo t).key = some (!bit k d).toNat := by
    rw [syncGetBits_eq _ d hd, message_bit lo t d hpos (by omega), hfirst]
  have hidx : ¬ (bit k d).toNat = (!bit k d).toNat := by
    apply bool_toNat_ne
    cases bit k d <;> simp
  have hguard : d + PREFIX_STEP_BITS ≤ (message lo t).prefixLen := by
    rw [message_prefixLen]
    exact hpos
  have hxor : xorChildren (embed (d + 1) t)
      { minPrefixLen := lo, stored := s, prefixLen := d, key := fun _ => 0 } =
        some { minPrefixLen := lo, stored := s, prefixLen := d,
               key := summary d (first t) (keys t) } := by
    have h := xorChildren_embed hU hn (d + 1) lo d (first t) ∅ t ht
      { minPrefixLen := lo, stored := s, prefixLen := d, key := fun _ => 0 } rfl (by omega)
      (carries_zero d (first t))
      (fun x hx => (keys_agree t ht.wellFormed x hx).mono (Nat.le_of_lt hpos))
    rw [h, ← Finset.bot_eq_empty, bot_symmDiff]
  have hparent : xorChildren (Node.setChild
      { minPrefixLen := lo, stored := s, prefixLen := d, key := fun _ => 0 } .null .null
      (!bit k d).toNat (embed (d + 1) t))
      { minPrefixLen := lo, stored := s, prefixLen := d, key := fun _ => 0 } =
        some { minPrefixLen := lo, stored := s, prefixLen := d,
               key := summary d (first t) (keys t) } := by
    have hne64 : ¬ d = KEY_LEN_BITS := by
      change ¬ d = 64
      omega
    cases bit k d <;> simp [Node.setChild, xorChildren, hne64, hxor]
  rw [hmoved] at hparent
  rw [hembed, addLoop, syncGetBits_eq k d hd]
  simp only [Option.bind_eq_bind, Option.bind_some, if_neg hlen, hnode, if_neg hidx]
  rw [guard, if_pos hguard]
  simp only [Option.pure_def, Option.bind_some]
  change (xorChildren (Node.setChild
    _ _ _ _ (Node.mk { message lo t with minPrefixLen := d + 1 } c0 c1)) _).bind _ = _
  rw [hparent]
  simp only [Option.bind_some]
  change addLoop k s (fuel + 2)
    (Node.setChild _ _ _ _ (Node.mk { message lo t with minPrefixLen := d + 1 } c0 c1)) _ _ = _
  rw [← hmoved, addLoop_parent k s fuel d _ (first t) (keys t) _ _ hd rfl rfl hagree,
    embed_branch lo d s k t hk hagree]

/-- add_key at a node whose prefix the key has. -/
theorem addLoop_descend (k : SyncKey) (hkU : k ∈ U) (s : Bool) (fuel lo : ℕ) (s' : Bool) (p : ℕ)
    (l r : KeyTrie) (ht : Over U lo (.node s' p l r)) (hk : k ∉ keys l ∪ keys r)
    (hagree : Agree bit p k (first l))
    (hleft : bit k p = false → addLoop k s fuel (embed (p + 1) l) (p + 1) (p + 1) =
      some (embed (p + 1) (insertKey bit s k l)))
    (hright : bit k p = true → addLoop k s fuel (embed (p + 1) r) (p + 1) (p + 1) =
      some (embed (p + 1) (insertKey bit s k r))) :
    addLoop k s (fuel + 1) (embed lo (.node s' p l r)) p lo =
      some (embed lo (insertKey bit s k (.node s' p l r))) := by
  have hp := ht.position_lt hU
  have hmsg := message_insert lo p s' k l r (by omega) hagree hk
  have hnear : ¬ diff bit k (first l) < p := by
    intro hlt
    have hmem : first l ∈ keys l ∪ keys r := Finset.mem_union_left _ (first_mem l)
    obtain ⟨j, -, hne⟩ := hU k hkU _ (ht.mem _ hmem) (fun heq => hk (heq ▸ hmem))
    exact diff_ne bit k (first l) ⟨j, hne⟩ (hagree _ hlt)
  rw [embed, addLoop, syncGetBits_eq k p (by omega), insertKey, if_neg hnear]
  simp only [Option.bind_eq_bind, Option.bind_some, hmsg]
  cases hbit : bit k p with
  | false =>
    have hfirst : Agree bit p (first (insertKey bit s k l)) (first l) := by
      have hmem := first_mem (insertKey bit s k l)
      rw [keys_insert] at hmem
      rcases Finset.mem_insert.mp hmem with heq | hmem
      · rw [heq]
        exact hagree
      · exact ht.wellFormed.2.1 _ (Finset.mem_union_left _ hmem)
    have hsummary := summary_congr p _ _ (Insert.insert k (keys l ∪ keys r)) hfirst
    have hchild := hleft hbit
    simp only [Bool.toNat_false, Node.child, if_true]
    change (if p = p then (addLoop k s fuel (embed (p + 1) l) (p + 1) (p + 1)).bind _ else _) = _
    rw [if_pos rfl, hchild, Option.bind_some, Node.setChild, if_pos rfl, if_neg (by simp), embed,
      message, keys_insert, Finset.insert_union, hsummary]
  | true =>
    have hchild := hright hbit
    simp only [Bool.toNat_true, Node.child, Nat.one_ne_zero, if_false]
    change (if p = p then (addLoop k s fuel (embed (p + 1) r) (p + 1) (p + 1)).bind _ else _) = _
    rw [if_pos rfl, hchild, Option.bind_some, Node.setChild, if_neg (by simp), if_pos trivial,
      embed, message, keys_insert, Finset.union_insert]

theorem addLoop_embed (k : SyncKey) (hkU : k ∈ U) (s : Bool) (fuel lo i : ℕ) (t : KeyTrie)
    (ht : Over U lo t) (hk : k ∉ keys t) (hagree : Agree bit i k (first t))
    (hpos : i ≤ position t) (hfuel : 66 ≤ fuel + i) :
    addLoop k s fuel (embed lo t) i lo = some (embed lo (insertKey bit s k t)) := by
  induction fuel generalizing lo i t with
  | zero =>
    obtain ⟨j, hj, hne⟩ := hU k hkU _ (ht.mem _ (first_mem t)) (fun heq => hk (heq ▸ first_mem t))
    exact absurd (hagree j (by omega)) hne
  | succ fuel ih =>
    obtain ⟨j, hj, hne⟩ := hU k hkU _ (ht.mem _ (first_mem t)) (fun heq => hk (heq ▸ first_mem t))
    have hi : i ≤ j := by
      by_contra hlt
      exact hne (hagree j (by omega))
    by_cases hlt : i < position t
    · by_cases hbit : bit k i = bit (first t) i
      · rw [addLoop_skip k s fuel lo i t (by omega) hlt hbit]
        apply ih lo (i + 1) t ht hk _ hlt (by omega)
        intro x hx
        by_cases heq : x = i
        · rw [heq, hbit]
        · exact hagree x (by omega)
      · obtain ⟨fuel, rfl⟩ : ∃ m, fuel = m + 2 := ⟨fuel - 2, by omega⟩
        rw [insertKey_split k s t i hlt hagree hbit]
        exact addLoop_split hU hn k s fuel lo i t ht (by omega) hlt hagree hbit hk
    · cases t with
      | leaf s' k' =>
        change ¬ i < 64 at hlt
        omega
      | node s' p l r =>
        have hip : i = p := by
          change ¬ i < p at hlt
          change i ≤ p at hpos
          omega
        subst i
        apply addLoop_descend hU hn k hkU s fuel lo s' p l r ht hk hagree
        · intro hbit
          apply ih (p + 1) (p + 1) l ht.left (fun hx => hk (Finset.mem_union_left _ hx)) _ _
            (by omega)
          · intro x hx
            by_cases heq : x = p
            · rw [heq, hbit, ht.wellFormed.2.2.1 _ (first_mem l)]
            · exact hagree x (by omega)
          · exact position_ge ht.left.wellFormed (by omega)
        · intro hbit
          apply ih (p + 1) (p + 1) r ht.right (fun hx => hk (Finset.mem_union_right _ hx)) _ _
            (by omega)
          · intro x hx
            by_cases heq : x = p
            · rw [heq, hbit, ht.wellFormed.2.2.2.1 _ (first_mem r)]
            · rw [hagree x (by omega)]
              exact (ht.wellFormed.2.1 _ (Finset.mem_union_right _ (first_mem r)) x
                (by omega)).symm
          · exact position_ge ht.right.wellFormed (by omega)

omit hn in
theorem Over.insertKey {lo : ℕ} {t : KeyTrie} (ht : Over U lo t) (k : SyncKey) (hkU : k ∈ U)
    (s : Bool) (hk : k ∉ keys t) (hlo : Agree bit lo k (first t)) :
    Over U lo (insertKey bit s k t) := by
  refine ⟨?_, ?_⟩
  · apply wellFormed_insert bit s k t ht.wellFormed hlo
    intro x hx
    obtain ⟨i, -, hne⟩ := hU k hkU x (ht.mem x hx) (fun heq => hk (heq ▸ hx))
    exact ⟨i, hne⟩
  · intro x hx
    rw [keys_insert] at hx
    rcases Finset.mem_insert.mp hx with rfl | hx
    · exact hkU
    · exact ht.mem x hx

/-- add_key inserts into the trie of the tree. -/
theorem addKey_embed (k : SyncKey) (hkU : k ∈ U) (s : Bool) (t : KeyTrie) (ht : Over U 0 t)
    (hk : k ∉ keys t) : addKey (embed 0 t) k s = some (embed 0 (insertKey bit s k t)) := by
  apply addLoop_embed hU hn k hkU s _ 0 0 t ht hk _ (Nat.zero_le _) (Nat.le_refl _)
  intro i hi
  omega

def embedOption (lo : ℕ) : Option KeyTrie → Node
  | none => .null
  | some t => embed lo t

theorem removeLoop_skip (k : SyncKey) (fuel lo i : ℕ) (s : Bool) (p : ℕ) (l r : KeyTrie)
    (ht : Over U lo (.node s p l r)) (hi : i < p) (hbit : bit k i = bit (first l) i) :
    removeLoop k (fuel + 1) (embed lo (.node s p l r)) i =
      removeLoop k fuel (embed lo (.node s p l r)) (i + 1) := by
  have hp := ht.position_lt hU
  have hne : ¬ (message lo (.node s p l r)).prefixLen = KEY_LEN_BITS := by
    change ¬ p = 64
    omega
  have hshort : i < (message lo (.node s p l r)).prefixLen := hi
  have hnode : syncGetBits i PREFIX_STEP_BITS (message lo (.node s p l r)).key =
      some (bit k i).toNat := by
    rw [syncGetBits_eq _ i (by omega), message_bit lo (.node s p l r) i hi (by omega), hbit]
    rfl
  rw [embed, removeLoop, if_neg hne, syncGetBits_eq k i (by omega)]
  simp only [Option.bind_eq_bind, Option.bind_some, hnode]
  rw [if_pos hshort, guard, if_pos trivial]
  rfl

theorem removeLoop_descend (k : SyncKey) (fuel lo : ℕ) (s : Bool) (p : ℕ) (l r : KeyTrie)
    (ht : Over U lo (.node s p l r)) (hk : k ∈ keys l ∪ keys r)
    (hleft : k ∈ keys l → removeLoop k fuel (embed (p + 1) l) (p + 1) =
      some (embedOption (p + 1) (deleteKey bit k l)))
    (hright : k ∈ keys r → removeLoop k fuel (embed (p + 1) r) (p + 1) =
      some (embedOption (p + 1) (deleteKey bit k r))) :
    removeLoop k (fuel + 1) (embed lo (.node s p l r)) p =
      some (embedOption lo (deleteKey bit k (.node s p l r))) := by
  have hp := ht.position_lt hU
  have hw := ht.wellFormed
  have hdisj := Finset.disjoint_left.mp (hw.disjoint bit)
  have hne : ¬ (message lo (.node s p l r)).prefixLen = KEY_LEN_BITS := by
    change ¬ p = 64
    omega
  have hshort : ¬ p < (message lo (.node s p l r)).prefixLen := Nat.lt_irrefl p
  have hmsg := message_erase lo p s k l r (by omega) (hw.2.1 k hk) hk
  rw [embed, removeLoop, if_neg hne, syncGetBits_eq k p (by omega)]
  simp only [Option.bind_eq_bind, Option.bind_some, if_neg hshort, hmsg]
  rcases Finset.mem_union.mp hk with hmem | hmem
  · have hbit := hw.2.2.1 k hmem
    have hnot : k ∉ keys r := hdisj hmem
    have hchild := hleft hmem
    simp only [hbit, Bool.toNat_false, Node.child, if_true, deleteKey,
      Bool.false_eq_true, if_false]
    change (removeLoop k fuel (embed (p + 1) l) (p + 1)).bind _ = _
    rw [hchild, Option.bind_some]
    rcases delete_spec bit k l ht.left.wellFormed hmem with ⟨hdel, -⟩ | ⟨l', hdel, -, hkeys⟩
    · obtain ⟨d0, d1, hembed, hmoved⟩ := embed_moved (p + 1) lo r
      simp only [hdel, embedOption, hembed, hmoved]
      rfl
    · obtain ⟨d0, d1, hembed⟩ := embed_message (p + 1) l'
      have hfirst : Agree bit p (first l) (first l') := by
        apply Agree.symm
        apply hw.2.1
        apply Finset.mem_union_left
        apply Finset.erase_subset k (keys l)
        rw [← hkeys]
        exact first_mem l'
      have hsummary := summary_congr p _ _ (keys l' ∪ keys r) hfirst
      rw [Finset.erase_union_distrib, Finset.erase_eq_of_notMem hnot, ← hkeys, hsummary]
      simp only [hdel, embedOption, hembed]
      rw [Node.setChild, if_pos rfl, ← hembed]
      rfl
  · have hbit := hw.2.2.2.1 k hmem
    have hnot : k ∉ keys l := fun hx => hdisj hx hmem
    have hchild := hright hmem
    simp only [hbit, Bool.toNat_true, Node.child, if_true, deleteKey, Nat.one_ne_zero, if_false]
    change (removeLoop k fuel (embed (p + 1) r) (p + 1)).bind _ = _
    rw [hchild, Option.bind_some]
    rcases delete_spec bit k r ht.right.wellFormed hmem with ⟨hdel, -⟩ | ⟨r', hdel, -, hkeys⟩
    · obtain ⟨d0, d1, hembed, hmoved⟩ := embed_moved (p + 1) lo l
      simp only [hdel, embedOption, hembed, hmoved]
    · obtain ⟨d0, d1, hembed⟩ := embed_message (p + 1) r'
      rw [Finset.erase_union_distrib, Finset.erase_eq_of_notMem hnot, ← hkeys]
      simp only [hdel, embedOption, hembed]
      rw [Node.setChild, if_neg (by simp), ← hembed]
      rfl

theorem removeLoop_embed (k : SyncKey) (fuel lo i : ℕ) (t : KeyTrie) (ht : Over U lo t)
    (hk : k ∈ keys t) (hpos : i ≤ position t) (hfuel : 65 ≤ fuel + i) (hi : i ≤ 63) :
    removeLoop k fuel (embed lo t) i = some (embedOption lo (deleteKey bit k t)) := by
  induction fuel generalizing lo i t with
  | zero => omega
  | succ fuel ih =>
    cases t with
    | leaf s k' => rfl
    | node s p l r =>
      have hp := ht.position_lt hU
      by_cases hlt : i < p
      · rw [removeLoop_skip hU hn k fuel lo i s p l r ht hlt (ht.wellFormed.2.1 k hk i hlt)]
        exact ih lo (i + 1) (.node s p l r) ht hk hlt (by omega) (by omega)
      · have hip : i = p := by
          change i ≤ p at hpos
          omega
        subst i
        apply removeLoop_descend hU hn k fuel lo s p l r ht hk
        · intro hmem
          exact ih (p + 1) (p + 1) l ht.left hmem (position_ge ht.left.wellFormed (by omega))
            (by omega) (by omega)
        · intro hmem
          exact ih (p + 1) (p + 1) r ht.right hmem (position_ge ht.right.wellFormed (by omega))
            (by omega) (by omega)

/-- remove_key deletes from the trie of the tree. -/
theorem removeKey_embed (k : SyncKey) (t : KeyTrie) (ht : Over U 0 t) (hk : k ∈ keys t) :
    removeKey (embed 0 t) k = some (embedOption 0 (deleteKey bit k t)) :=
  removeLoop_embed hU hn k _ 0 0 t ht hk (Nat.zero_le _) (Nat.le_refl _) (by omega)

end Refinement

end Succinct.SyncTree
