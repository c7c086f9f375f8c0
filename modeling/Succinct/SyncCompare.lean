import Succinct.SyncTree
import Succinct.SyncProtocol

/-!
What cmp_message tells about sets of keys. Keys are generic when they differ
early and no set of them XORs to zero in the later bytes. Two messages then
compare equal only if they stand for the same set, so find_message finds
leaves and nothing else.
-/
namespace Succinct.SyncCompare

open SyncKeys BitTries SyncBits SyncTree SyncProtocol

/-- Any two keys differ within their first 8j bits, and no non-empty subset
XORs to zero on bytes j..7. -/
structure Generic (U : Finset SyncKey) (j : ℕ) : Prop where
  low : 1 ≤ j
  high : j ≤ 6
  spread : Spread (8 * j) U
  independent : ∀ T ⊆ U, T.Nonempty → ∃ i, 8 * j ≤ i ∧ i < 64 ∧ parity (fun k => bit k i) T = true

theorem sameBytes_bit (a b : SyncKey) (start n i : ℕ) (h : sameBytes a b start n = true)
    (hi : i < 64) (hlow : start ≤ i / 8) (hhigh : i / 8 < start + n) : bit a i = bit b i := by
  have hbytes := of_decide_eq_true h
  rw [bit_eq a i hi, bit_eq b i hi, hbytes ⟨i / 8, by omega⟩ hlow hhigh]

theorem sameBytes_self (a : SyncKey) (start n : ℕ) : sameBytes a a start n = true := by
  simp [sameBytes]

def xorBegin (m : KeyMessage) : ℕ :=
  if m.prefixLen = KEY_LEN_BITS then m.minPrefixLen else m.prefixLen

/-- Messages that compare equal have the same bits from the later of their
sums on. -/
theorem cmpMessage_bit (a b : KeyMessage) (n i : ℕ) (h : cmpMessage a b = true)
    (ha : xorBegin a ≤ 8 * n) (hb : xorBegin b ≤ 8 * n) (hni : 8 * n ≤ i) (hi : i < 64) :
    bit a.key i = bit b.key i := by
  unfold cmpMessage at h
  change (if min a.prefixLen b.prefixLen < max (xorBegin a) (xorBegin b) then
    if min a.prefixLen b.prefixLen ≥ 8 ∧
      !sameBytes a.key b.key 0 (min a.prefixLen b.prefixLen / 8) then false
    else !(decide ((max (xorBegin a) (xorBegin b) + 7) / 8 < KEY_LEN) &&
      !sameBytes a.key b.key ((max (xorBegin a) (xorBegin b) + 7) / 8)
        (KEY_LEN - (max (xorBegin a) (xorBegin b) + 7) / 8))
    else sameBytes a.key b.key 0 KEY_LEN) = true at h
  have hmax : max (xorBegin a) (xorBegin b) ≤ 8 * n := max_le ha hb
  generalize max (xorBegin a) (xorBegin b) = begin at h hmax
  have hlen : KEY_LEN = 8 := rfl
  split at h
  · split at h
    · exact absurd h Bool.false_ne_true
    · have hlt : (begin + 7) / 8 < KEY_LEN := by omega
      rw [decide_eq_true hlt, Bool.true_and, Bool.not_not] at h
      exact sameBytes_bit _ _ _ _ i h hi (by omega) (by omega)
  · exact sameBytes_bit _ _ _ _ i h hi (by omega) (by omega)

theorem cmpMessage_leaf (a b : KeyMessage) (ha : a.prefixLen = KEY_LEN_BITS)
    (hb : b.prefixLen = KEY_LEN_BITS) (hkey : a.key = b.key) (hlo : a.minPrefixLen ≤ 64)
    (hlo' : b.minPrefixLen ≤ 64) : cmpMessage a b = true := by
  have hnot : ¬ min a.prefixLen b.prefixLen <
      max (if a.prefixLen = KEY_LEN_BITS then a.minPrefixLen else a.prefixLen)
        (if b.prefixLen = KEY_LEN_BITS then b.minPrefixLen else b.prefixLen) := by
    rw [if_pos ha, if_pos hb, ha, hb]
    simp only [KEY_LEN_BITS]
    omega
  unfold cmpMessage
  simp only [if_neg hnot, hkey]
  exact sameBytes_self _ _ _

/-- A message stands for a set when its later bits are the sum of the set. -/
structure StandsFor (j : ℕ) (m : KeyMessage) (X : Finset SyncKey) : Prop where
  sum : ∀ i, 8 * j ≤ i → i < 64 → bit m.key i = parity (fun k => bit k i) X
  begins : xorBegin m ≤ 8 * j

section Generic

variable {j : ℕ} {U : Finset SyncKey} (hG : Generic U j)

include hG

theorem Generic.le : 8 * j ≤ 63 := by
  have := hG.high
  omega

theorem eq_empty_of_sum (X : Finset SyncKey) (hX : X ⊆ U)
    (h : ∀ i, 8 * j ≤ i → i < 64 → parity (fun k => bit k i) X = false) : X = ∅ := by
  by_contra hne
  obtain ⟨i, hlow, hhigh, hbit⟩ := hG.independent X hX (Finset.nonempty_iff_ne_empty.mpr hne)
  rw [h i hlow hhigh] at hbit
  exact Bool.noConfusion hbit

/-- Messages that compare equal stand for the same set. -/
theorem eq_of_cmpMessage (a b : KeyMessage) (X Y : Finset SyncKey) (ha : StandsFor j a X)
    (hb : StandsFor j b Y) (hX : X ⊆ U) (hY : Y ⊆ U) (h : cmpMessage a b = true) : X = Y := by
  have hempty : symmDiff X Y = ∅ := by
    apply eq_empty_of_sum hG
    · intro k hk
      rcases Finset.mem_symmDiff.mp hk with ⟨hk, -⟩ | ⟨hk, -⟩
      · exact hX hk
      · exact hY hk
    · intro i hlow hhigh
      rw [parity_symmDiff, ← ha.sum i hlow hhigh, ← hb.sum i hlow hhigh,
        cmpMessage_bit a b j i h ha.begins hb.begins hlow hhigh, Bool.xor_self]
  exact symmDiff_eq_bot.mp hempty

theorem standsFor_message {lo lo' : ℕ} (t : KeyTrie) (ht : Over U lo' t) (hlo : lo ≤ 8 * j) :
    StandsFor j (message lo t) (keys t) := by
  cases t with
  | leaf s k =>
    refine ⟨?_, hlo⟩
    intro i _ _
    rw [keys, parity_singleton]
    rfl
  | node s p l r =>
    have hp := ht.position_lt hG.spread
    have hle := hG.le
    have hne : ¬ p = KEY_LEN_BITS := by
      change ¬ p = 64
      omega
    refine ⟨?_, ?_⟩
    · intro i hlow hhigh
      rw [message, bit_summary _ _ _ _ hhigh, if_neg (by omega)]
      rfl
    · change (if p = KEY_LEN_BITS then lo else p) ≤ 8 * j
      rw [if_neg hne]
      omega

theorem not_cmp_of_ne (a b : KeyMessage) (X Y : Finset SyncKey) (ha : StandsFor j a X)
    (hb : StandsFor j b Y) (hX : X ⊆ U) (hY : Y ⊆ U) (hne : X ≠ Y) : ¬ cmpMessage a b = true :=
  fun h => hne (eq_of_cmpMessage hG a b X Y ha hb hX hY h)

structure LeafLike (j : ℕ) (m : KeyMessage) : Prop where
  isLeaf : m.prefixLen = KEY_LEN_BITS
  short : m.minPrefixLen ≤ 8 * j

omit hG in
theorem LeafLike.standsFor {m : KeyMessage} (h : LeafLike j m) : StandsFor j m {m.key} := by
  refine ⟨?_, ?_⟩
  · intro i _ _
    rw [parity_singleton]
  · rw [xorBegin, if_pos h.isLeaf]
    exact h.short

/-- The search for a key in a tree of generic keys. -/
theorem findLoop_spec (m : KeyMessage) (hm : LeafLike j m) (hk : m.key ∈ U) (fuel lo i : ℕ)
    (t : KeyTrie) (ht : Over U lo t) (hlo : lo ≤ 8 * j) (hpos : i ≤ position t)
    (hfuel : 65 ≤ fuel + i) :
    (m.key ∈ keys t → ∃ lo' s, findLoop m fuel (embed lo t) i = some (embed lo' (.leaf s m.key)) ∧
      (s, m.key) ∈ leaves t) ∧
    (m.key ∉ keys t → findLoop m fuel (embed lo t) i = some .null) := by
  have hle := hG.le
  induction fuel generalizing lo i t with
  | zero =>
    have hi : i ≤ 64 := by
      cases t with
      | leaf s k => exact hpos
      | node s p l r =>
        have hp := ht.position_lt hG.spread
        change i ≤ p at hpos
        omega
    omega
  | succ fuel ih =>
    have hstands := standsFor_message hG t ht hlo
    have hkey : ({m.key} : Finset SyncKey) ⊆ U := Finset.singleton_subset_iff.mpr hk
    cases t with
    | leaf s k =>
      have hunfold : findLoop m (fuel + 1) (embed lo (.leaf s k)) i =
          if cmpMessage (message lo (.leaf s k)) m then some (embed lo (.leaf s k))
          else some .null := by
        have hlen : (message lo (.leaf s k)).prefixLen = KEY_LEN_BITS := rfl
        rw [embed, findLoop, if_pos hlen]
      rw [hunfold]
      refine ⟨?_, ?_⟩
      · intro hmem
        have heq : m.key = k := Finset.mem_singleton.mp hmem
        have hcmp := cmpMessage_leaf (message lo (.leaf s k)) m rfl hm.isLeaf heq.symm
          (by change lo ≤ 64; omega) (by have := hm.short; omega)
        rw [if_pos hcmp]
        refine ⟨lo, s, ?_, ?_⟩
        · rw [heq]
        · rw [heq]
          exact List.mem_singleton_self _
      · intro hnot
        have hne : keys (.leaf s k : KeyTrie) ≠ {m.key} := by
          intro heq
          apply hnot
          rw [heq]
          exact Finset.mem_singleton_self _
        rw [if_neg (not_cmp_of_ne hG _ _ _ _ hstands hm.standsFor ht.mem hkey hne)]
    | node s p l r =>
      have hp := ht.position_lt hG.spread
      have hw := ht.wellFormed
      have hip : i ≤ p := hpos
      have hne64 : ¬ (message lo (.node s p l r)).prefixLen = KEY_LEN_BITS := by
        change ¬ p = 64
        omega
      have hcmp :=
        not_cmp_of_ne hG _ _ _ _ hstands hm.standsFor ht.mem hkey (not_singleton bit hw _)
      rw [embed, findLoop, if_neg hcmp, if_neg hne64, syncGetBits_eq m.key i (by omega)]
      simp only [Option.bind_eq_bind, Option.bind_some]
      by_cases hlt : i < p
      · have hnode : syncGetBits i PREFIX_STEP_BITS (message lo (.node s p l r)).key =
            some (bit (first l) i).toNat := by
          rw [syncGetBits_eq _ i (by omega), message_bit lo (.node s p l r) i hlt (by omega)]
          rfl
        have hshort : i < (message lo (.node s p l r)).prefixLen := hlt
        rw [if_pos hshort, hnode, Option.bind_some]
        by_cases hbit : bit (first l) i = bit m.key i
        · rw [hbit, if_neg (by simp)]
          exact ih lo (i + 1) (.node s p l r) ht hlo hlt (by omega)
        · rw [if_pos (bool_toNat_ne hbit)]
          refine ⟨?_, fun _ => rfl⟩
          intro hmem
          exact absurd (hw.2.1 _ hmem i hlt).symm hbit
      · have heq : i = p := by omega
        subst i
        have hshort : ¬ p < (message lo (.node s p l r)).prefixLen := Nat.lt_irrefl p
        have hchild := embed_child lo p s (bit m.key p) l r
        rw [embed] at hchild
        rw [if_neg hshort, hchild]
        obtain ⟨hin, hout⟩ := ih (p + 1) (p + 1) _ (ht.side (bit m.key p)) (by omega)
          (position_ge (ht.side _).wellFormed (by omega)) (by omega)
        have hside := ht.mem_side (bit m.key p) m.key
        refine ⟨?_, ?_⟩
        · intro hmem
          obtain ⟨lo', s', hfind, hleaf⟩ := hin (hside.mpr ⟨hmem, rfl⟩)
          exact ⟨lo', s', hfind, leaves_side p s _ l r _ hleaf⟩
        · intro hnot
          exact hout (fun hmem => hnot (hside.mp hmem).1)

def keysOf : Option KeyTrie → Finset SyncKey
  | none => ∅
  | some t => keys t

def leavesOf : Option KeyTrie → List (Bool × SyncKey)
  | none => []
  | some t => leaves t

def OverOption (U : Finset SyncKey) (D : Option KeyTrie) : Prop := ∀ t ∈ D, Over U 0 t

theorem findMessage_spec (m : KeyMessage) (hm : LeafLike j m) (hk : m.key ∈ U)
    (D : Option KeyTrie) (hD : OverOption U D) :
    (m.key ∈ keysOf D → ∃ lo s, findMessage (embedOption 0 D) m =
      some (embed lo (.leaf s m.key)) ∧ (s, m.key) ∈ leavesOf D) ∧
    (m.key ∉ keysOf D → findMessage (embedOption 0 D) m = some .null) := by
  cases D with
  | none =>
    refine ⟨?_, fun _ => rfl⟩
    intro hmem
    exact absurd hmem (Finset.notMem_empty _)
  | some t =>
    have ht := hD t rfl
    obtain ⟨c0, c1, hembed⟩ := embed_message 0 t
    have hstart : findMessage (embedOption 0 (some t)) m =
        findLoop m 65 (embed 0 t) (position t) := by
      rw [embedOption, hembed, findMessage, message_prefixLen]
      rfl
    rw [hstart]
    exact findLoop_spec hG m hm hk 65 0 (position t) t ht (Nat.zero_le _) (Nat.le_refl _)
      (by omega)

end Generic

end Succinct.SyncCompare
