import Succinct.SyncCanonical
import Succinct.SyncParty

/-!
The walks of sync_keys.cpp along any message whatever, through the tree of
any keys. sync_get_bits does not give out the last bit of a key, so that a
walk ends in an assertion where only this bit could tell two keys apart; it
ends nowhere else.
-/
namespace Succinct.SyncLastBits

open SyncKeys BitTries SyncBits SyncTree SyncProtocol SyncCompare SyncCanonical SyncParty

def Twins (a b : SyncKey) : Prop := a ≠ b ∧ ∀ i, i < 63 → bit a i = bit b i

instance decidableTwins (a b : SyncKey) : Decidable (Twins a b) :=
  inferInstanceAs (Decidable (a ≠ b ∧ ∀ i, i < 63 → bit a i = bit b i))

theorem spread_iff (K : Set SyncKey) : Spread 63 K ↔ ∀ a ∈ K, ∀ b ∈ K, ¬ Twins a b := by
  constructor
  · intro h a ha b hb htwins
    obtain ⟨i, hi, hne⟩ := h a ha b hb htwins.1
    exact hne (htwins.2 i hi)
  · intro h a ha b hb hne
    by_contra hno
    refine h a ha b hb ⟨hne, fun i hi => ?_⟩
    by_contra hbit
    exact hno ⟨i, hi, hbit⟩

theorem Twins.symm {a b : SyncKey} (h : Twins a b) : Twins b a :=
  ⟨h.1.symm, fun i hi => (h.2 i hi).symm⟩

theorem eq_of_agree {a b : SyncKey} (h : ¬ Twins a b) (hagree : Agree bit 63 a b) : a = b := by
  by_contra hne
  exact h ⟨hne, hagree⟩

/-- Messages with the same key always compare equal. -/
theorem cmpMessage_of_key (a b : KeyMessage) (h : a.key = b.key) : cmpMessage a b = true := by
  unfold cmpMessage
  simp only [h, sameBytes_self, Bool.not_true, Bool.and_false, Bool.not_false, Bool.false_eq_true,
    and_false, if_false, ite_self]

inductive Below (lo : ℕ) (t : KeyTrie) : ℕ → KeyTrie → Prop
  | refl : Below lo t lo t
  | side {lo' p : ℕ} {s : Bool} {l r : KeyTrie} (b : Bool) (h : Below lo t lo' (.node s p l r)) :
      Below lo t (p + 1) (side b l r)

def leafMessages : Node → List KeyMessage
  | .null => []
  | .mk m c0 c1 => if m.prefixLen = KEY_LEN_BITS then [m] else leafMessages c0 ++ leafMessages c1

def nodeMessages : Node → List KeyMessage
  | .null => []
  | .mk m c0 c1 => m :: (nodeMessages c0 ++ nodeMessages c1)

section Below

variable {lo lo' : ℕ} {t t' : KeyTrie}

theorem Below.trans (h : Below lo t lo' t') {lo'' : ℕ} {t'' : KeyTrie}
    (h' : Below lo' t' lo'' t'') :
    Below lo t lo'' t'' := by
  induction h' with
  | refl => exact h
  | side b _ ih => exact ih.side b

theorem Below.over {U : Set SyncKey} (h : Below lo t lo' t') (ht : Over U lo t) :
    Over U lo' t' := by
  induction h with
  | refl => exact ht
  | side b _ ih => exact ih.side b

theorem Below.keys_subset {U : Set SyncKey} (h : Below lo t lo' t') (ht : Over U lo t) :
    keys t' ⊆ keys t := by
  induction h with
  | refl => exact Finset.Subset.refl _
  | side b h ih => exact fun k hk => ih (((h.over ht).mem_side b k).mp hk).1

theorem Below.nodeMessages_subset (h : Below lo t lo' t') :
    ∀ m ∈ nodeMessages (embed lo' t'), m ∈ nodeMessages (embed lo t) := by
  induction h with
  | refl => exact fun m hm => hm
  | side b h ih =>
    intro m hm
    apply ih
    rw [embed, nodeMessages]
    apply List.mem_cons_of_mem
    cases b with
    | false => exact List.mem_append_left _ hm
    | true => exact List.mem_append_right _ hm

theorem Below.message_mem (h : Below lo t lo' t') :
    message lo' t' ∈ nodeMessages (embed lo t) := by
  apply h.nodeMessages_subset
  cases t' with
  | leaf s k => exact List.mem_cons_self
  | node s p l r => exact List.mem_cons_self

end Below

section Walks

variable {U : Set SyncKey} (hU : Spread 63 U)

include hU

theorem not_leaf (lo : ℕ) {lo' p : ℕ} {s : Bool} {l r : KeyTrie}
    (ht : Over U lo' (.node s p l r)) :
    ¬ (message lo (.node s p l r)).prefixLen = KEY_LEN_BITS := by
  have hp := ht.position_lt hU
  change ¬ p = 64
  omega

theorem position_le {lo : ℕ} {t : KeyTrie} (ht : Over U lo t) : position t ≤ 64 := by
  cases t with
  | leaf s k => exact Nat.le_refl 64
  | node s p l r =>
    have hp := ht.position_lt hU
    change p ≤ 64
    omega

theorem Below.short {lo lo' : ℕ} {t t' : KeyTrie} (h : Below lo t lo' t') (ht : Over U lo t)
    (hlo : lo ≤ 63) : lo' ≤ 63 := by
  cases h with
  | refl => exact hlo
  | side b h => exact (h.over ht).position_lt hU

theorem Below.leafMessages_subset {lo lo' : ℕ} {t t' : KeyTrie} (h : Below lo t lo' t')
    (ht : Over U lo t) : ∀ m ∈ leafMessages (embed lo' t'), m ∈ leafMessages (embed lo t) := by
  induction h with
  | refl => exact fun m hm => hm
  | side b h ih =>
    intro m hm
    apply ih
    rw [embed, leafMessages, if_neg (not_leaf hU _ (h.over ht))]
    cases b with
    | false => exact List.mem_append_left _ hm
    | true => exact List.mem_append_right _ hm

/-- What a lookup ends at. The key of a leaf is always found. -/
theorem findLoop_total (m : KeyMessage) (fuel lo i : ℕ) (t : KeyTrie) (ht : Over U lo t)
    (hpos : i ≤ position t) (hfuel : 65 ≤ fuel + i) :
    (findLoop m fuel (embed lo t) i = some .null ∧ m.key ∉ keys t) ∨
      ∃ lo' t', findLoop m fuel (embed lo t) i = some (embed lo' t') ∧ Below lo t lo' t' ∧
        cmpMessage (message lo' t') m = true := by
  induction fuel generalizing lo i t with
  | zero =>
    have := position_le hU ht
    omega
  | succ fuel ih =>
    by_cases hcmp : cmpMessage (message lo t) m = true
    · right
      obtain ⟨c0, c1, hembed⟩ := embed_message lo t
      refine ⟨lo, t, ?_, .refl, hcmp⟩
      rw [hembed, findLoop, if_pos hcmp]
    · cases t with
      | leaf s k =>
        left
        have hlen : (message lo (.leaf s k)).prefixLen = KEY_LEN_BITS := rfl
        rw [embed, findLoop, if_neg hcmp, if_pos hlen]
        refine ⟨rfl, fun hk => hcmp (cmpMessage_of_key _ _ ?_)⟩
        exact (Finset.mem_singleton.mp hk).symm
      | node s p l r =>
        have hp := ht.position_lt hU
        have hip : i ≤ p := hpos
        rw [embed, findLoop, if_neg hcmp, if_neg (not_leaf hU lo ht),
          syncGetBits_eq m.key i (by omega)]
        simp only [Option.bind_eq_bind, Option.bind_some]
        by_cases hlt : i < p
        · have hshort : i < (message lo (.node s p l r)).prefixLen := hlt
          rw [if_pos hshort, syncGetBits_eq _ i (by omega), Option.bind_some,
            message_bit lo (.node s p l r) i hlt (by omega)]
          by_cases hbit : bit (first (.node s p l r)) i = bit m.key i
          · rw [if_neg (by rw [hbit]; simp)]
            exact ih lo (i + 1) (.node s p l r) ht hlt (by omega)
          · left
            rw [if_pos (bool_toNat_ne hbit)]
            exact ⟨rfl, fun hk => hbit (ht.wellFormed.2.1 _ hk i hlt).symm⟩
        · obtain rfl : i = p := by omega
          have hshort : ¬ i < (message lo (.node s i l r)).prefixLen := Nat.lt_irrefl i
          have hchild := embed_child lo i s (bit m.key i) l r
          rw [embed] at hchild
          rw [if_neg hshort, hchild]
          rcases ih (i + 1) (i + 1) _ (ht.side (bit m.key i))
            (position_ge (ht.side _).wellFormed (by omega)) (by omega)
            with ⟨hnull, hnot⟩ | ⟨lo', t', hfound, hbelow, hcmp'⟩
          · exact Or.inl ⟨hnull, fun hk => hnot ((ht.mem_side _ _).mpr ⟨hk, rfl⟩)⟩
          · exact Or.inr ⟨lo', t', hfound, (Below.refl.side _).trans hbelow, hcmp'⟩

/-- The node of our tree that explains a difference is in our tree. -/
theorem testLoop_total (m : KeyMessage) (fuel lo i : ℕ) (t : KeyTrie) (ht : Over U lo t)
    (hpos : i ≤ position t) (hfuel : 65 ≤ fuel + i) :
    testLoop m fuel (embed lo t) i = some .null ∨
      ∃ lo' t', testLoop m fuel (embed lo t) i = some (embed lo' t') ∧ Below lo t lo' t' := by
  induction fuel generalizing lo i t with
  | zero =>
    have := position_le hU ht
    omega
  | succ fuel ih =>
    by_cases hcmp : cmpMessage m (message lo t) = true
    · right
      obtain ⟨c0, c1, hembed⟩ := embed_message lo t
      refine ⟨lo, t, ?_, .refl⟩
      rw [hembed, testLoop, if_pos hcmp]
    · cases t with
      | leaf s k =>
        left
        have hlen : (message lo (.leaf s k)).prefixLen = KEY_LEN_BITS := rfl
        rw [embed, testLoop, if_neg hcmp, if_pos hlen]
      | node s p l r =>
        have hp := ht.position_lt hU
        have hip : i ≤ p := hpos
        rw [embed, testLoop, if_neg hcmp, if_neg (not_leaf hU lo ht),
          syncGetBits_eq m.key i (by omega)]
        simp only [Option.bind_eq_bind, Option.bind_some]
        by_cases hlt : i < p
        · have hshort : i < (message lo (.node s p l r)).prefixLen := hlt
          rw [if_pos hshort, syncGetBits_eq _ i (by omega), Option.bind_some]
          split
          · exact Or.inl rfl
          · exact ih lo (i + 1) (.node s p l r) ht hlt (by omega)
        · obtain rfl : i = p := by omega
          have hshort : ¬ i < (message lo (.node s i l r)).prefixLen := Nat.lt_irrefl i
          have hchild := embed_child lo i s (bit m.key i) l r
          rw [embed] at hchild
          rw [if_neg hshort, hchild]
          rcases ih (i + 1) (i + 1) _ (ht.side (bit m.key i))
            (position_ge (ht.side _).wellFormed (by omega)) (by omega)
              with hnull | ⟨lo', t', hfound, hbelow⟩
          · exact Or.inl hnull
          · exact Or.inr ⟨lo', t', hfound, (Below.refl.side _).trans hbelow⟩

/-- Where remove_differences stops: at a leaf that compares equal to the
message, or at a subtree that has all its prefix bits. -/
theorem differencesLoop_total (m : KeyMessage) (hlen : m.prefixLen ≤ 64)
    (fuel lo i : ℕ) (t : KeyTrie)
    (ht : Over U lo t) (him : i ≤ m.prefixLen) (hpos : i ≤ position t)
    (hagree : Agree bit i (first t) m.key) (hfuel : 66 ≤ fuel + i) :
    differencesLoop m fuel (embed lo t) i = some .null ∨
      ∃ lo' t', differencesLoop m fuel (embed lo t) i = some (embed lo' t') ∧ Below lo t lo' t' ∧
        ((m.prefixLen ≤ position t' ∧ Agree bit m.prefixLen (first t') m.key) ∨
          (position t' = 64 ∧ cmpMessage m (message lo' t') = true)) := by
  induction fuel generalizing lo i t with
  | zero => omega
  | succ fuel ih =>
    obtain ⟨c0, c1, hembed⟩ := embed_message lo t
    by_cases hend : i < m.prefixLen
    · by_cases hcmp : (message lo t).prefixLen = KEY_LEN_BITS ∧ cmpMessage m (message lo t) = true
      · right
        refine ⟨lo, t, ?_, .refl, Or.inr ⟨?_, hcmp.2⟩⟩
        · rw [hembed, differencesLoop, if_pos hend, if_pos hcmp]
        · rw [← message_prefixLen lo t]
          exact hcmp.1
      · by_cases hleaf : (message lo t).prefixLen = KEY_LEN_BITS ∧ m.prefixLen = KEY_LEN_BITS
        · left
          rw [hembed, differencesLoop, if_pos hend, if_neg hcmp, if_pos hleaf]
        · -- a leaf leaves the message to end before its last bit
          have hi : i < 63 := by
            cases t with
            | leaf s k =>
              have hne : ¬ m.prefixLen = 64 := fun h => hleaf ⟨rfl, h⟩
              omega
            | node s p l r =>
              have hp := ht.position_lt hU
              change i ≤ p at hpos
              omega
          rw [hembed, differencesLoop, if_pos hend, if_neg hcmp, if_neg hleaf,
            syncGetBits_eq m.key i hi]
          simp only [Option.bind_eq_bind, Option.bind_some, message_prefixLen]
          by_cases hlt : i < position t
          · rw [if_pos hlt, syncGetBits_eq _ i hi, Option.bind_some,
              message_bit lo t i hlt (by omega)]
            by_cases hbit : bit (first t) i = bit m.key i
            · rw [if_neg (by rw [hbit]; simp), ← hembed]
              apply ih lo (i + 1) t ht hend hlt _ (by omega)
              intro n hn
              by_cases heq : n = i
              · rw [heq, hbit]
              · exact hagree n (by omega)
            · left
              rw [if_pos (bool_toNat_ne hbit)]
          · rw [if_neg hlt, ← hembed]
            cases t with
            | leaf s k =>
              change ¬ i < 64 at hlt
              omega
            | node s p l r =>
              obtain rfl : i = p := by
                change i ≤ p at hpos
                change ¬ i < p at hlt
                omega
              rw [embed_child]
              rcases ih (i + 1) (i + 1) _ (ht.side (bit m.key i)) hend
                (position_ge (ht.side _).wellFormed (by omega)) (ht.agree_side hagree) (by omega)
                with hnull | ⟨lo', t', hfound, hbelow, hends⟩
              · exact Or.inl hnull
              · exact Or.inr ⟨lo', t', hfound, (Below.refl.side _).trans hbelow, hends⟩
    · right
      obtain rfl : i = m.prefixLen := by omega
      refine ⟨lo, t, ?_, .refl, Or.inl ⟨hpos, hagree⟩⟩
      rw [hembed, differencesLoop, if_neg hend]

omit hU in
theorem syncXor_total (src : SyncKey) (dest : KeyMessage) (h : dest.prefixLen < 64) :
    ∃ key, syncXor src dest = some { dest with key := key } :=
  ⟨_, if_pos h⟩

omit hU in
theorem xorChildren_total (node : Node) (dest : KeyMessage) (h : dest.prefixLen < 64) :
    ∃ key, xorChildren node dest = some { dest with key := key } := by
  induction node generalizing dest with
  | null => exact ⟨dest.key, rfl⟩
  | mk m c0 c1 ih0 ih1 =>
    rw [xorChildren]
    split
    · exact syncXor_total _ dest h
    · obtain ⟨key0, h0⟩ := ih0 dest h
      obtain ⟨key1, h1⟩ := ih1 { dest with key := key0 } h
      refine ⟨key1, ?_⟩
      rw [h0, Option.bind_eq_bind, Option.bind_some, h1]

omit hU in
/-- Messages whose sums begin inside their common prefix compare equal only
with the same key. -/
theorem key_of_cmpMessage (a b : KeyMessage)
    (h : max (xorBegin a) (xorBegin b) ≤ min a.prefixLen b.prefixLen)
    (hcmp : cmpMessage a b = true) : a.key = b.key := by
  have hnot : ¬ min a.prefixLen b.prefixLen <
      max (if a.prefixLen = KEY_LEN_BITS then a.minPrefixLen else a.prefixLen)
        (if b.prefixLen = KEY_LEN_BITS then b.minPrefixLen else b.prefixLen) := Nat.not_lt.mpr h
  unfold cmpMessage at hcmp
  simp only [if_neg hnot] at hcmp
  apply key_ext
  intro i hi
  exact sameBytes_bit _ _ 0 KEY_LEN i hcmp hi (Nat.zero_le _) (by change i / 8 < 0 + 8; omega)

/-- What is left of a message when the known differences are removed. One
of 63 bits keeps them. -/
theorem removeDifferences_total (m : KeyMessage) (hlen : m.prefixLen ≤ 64) (D : Option KeyTrie)
    (hD : ∀ t ∈ D, Over U 0 t) :
    ∃ node key, removeDifferences (embedOption 0 D) m = some (node, { m with key := key }) ∧
      (node = .null ∨ ∃ t ∈ D, ∃ lo' t', node = embed lo' t' ∧ Below 0 t lo' t') ∧
      (63 ≤ m.prefixLen → Agree bit 63 key m.key) ∧ (m.prefixLen = 64 → key = m.key) := by
  have hsame : ∀ node, removeDifferences (embedOption 0 D) m = some (node, m) →
      removeDifferences (embedOption 0 D) m = some (node, { m with key := m.key }) := fun _ h => h
  cases D with
  | none =>
    refine ⟨.null, m.key, hsame _ ?_, Or.inl rfl, fun _ _ _ => rfl, fun _ => rfl⟩
    rw [embedOption, removeDifferences, if_pos (Or.inl rfl)]
  | some t =>
    have ht := hD t rfl
    by_cases hstored : m.stored = true
    · obtain ⟨c0, c1, hembed⟩ := embed_message 0 t
      have hcond : ¬ (embed 0 t = .null ∨ (!m.stored) = true) := by
        rw [hembed, hstored]
        simp
      rw [embedOption, removeDifferences, if_neg hcond] at hsame ⊢
      rcases differencesLoop_total hU m hlen (KEY_LEN_BITS + 2) 0 0 t ht
        (Nat.zero_le _) (Nat.zero_le _)
        (fun i hi => absurd hi (Nat.not_lt_zero i)) (by decide)
          with hnull | ⟨lo', t', hfound, hbelow, hends⟩
      · refine ⟨.null, m.key, hsame _ ?_, Or.inl rfl, fun _ _ _ => rfl, fun _ => rfl⟩
        rw [hnull]
        rfl
      · have hover := hbelow.over ht
        obtain ⟨d0, d1, hembed'⟩ := embed_message lo' t'
        have hnode : ∃ t₀ ∈ some t, ∃ lo₁ t₁, embed lo' t' = embed lo₁ t₁ ∧ Below 0 t₀ lo₁ t₁ :=
          ⟨t, rfl, lo', t', rfl, hbelow⟩
        by_cases hshort : m.prefixLen < 64
        · have hcase : m.prefixLen < KEY_LEN_BITS := hshort
          rw [hfound]
          simp only [Option.bind_eq_bind, Option.bind_some, hembed', if_pos hcase]
          rw [message_prefixLen, ← hembed']
          by_cases h63 : m.prefixLen = 63
          · -- the subtree is a leaf, and its key has the bits of the message
            cases t' with
            | node s p l r =>
              have hp := hover.position_lt hU
              rcases hends with ⟨hge, -⟩ | ⟨hpos, -⟩
              · change m.prefixLen ≤ p at hge
                omega
              · change p = 64 at hpos
                omega
            | leaf s k =>
              have hagree : Agree bit 63 k m.key := by
                rcases hends with ⟨-, hagree⟩ | ⟨-, hcmp⟩
                · rwa [h63] at hagree
                · have hlo := hbelow.short hU ht (Nat.zero_le _)
                  have hkey := key_of_cmpMessage m (message lo' (.leaf s k)) (by
                    rw [xorBegin, xorBegin, h63]
                    change max 63 lo' ≤ min 63 64
                    omega) hcmp
                  rw [hkey]
                  exact fun _ _ => rfl
              obtain ⟨key, hxor, hbits⟩ := syncXor_bit k m hshort (by
                intro i hi h
                rw [← h]
                exact hagree i (by omega))
              refine ⟨embed lo' (.leaf s k), key, ?_, Or.inr hnode, ?_, fun h => by omega⟩
              · have hleaf : position (.leaf s k) = m.prefixLen ∨
                  position (.leaf s k) = KEY_LEN_BITS :=
                  Or.inr rfl
                rw [if_pos hleaf]
                change (syncXor k m).bind _ = _
                rw [hxor]
                rfl
              · intro _ i hi
                rw [hbits i (by omega), if_pos (by omega)]
                exact hagree i hi
          · have hkey : ∃ key, (if position t' = m.prefixLen ∨ position t' = KEY_LEN_BITS then
                (syncXor (message lo' t').key m).bind fun message => some (embed lo' t', message)
                else (xorChildren (embed lo' t') m).bind fun message =>
                  some (embed lo' t', message)) =
                  some (embed lo' t', { m with key := key }) := by
              split
              · obtain ⟨key, hxor⟩ := syncXor_total (message lo' t').key m hshort
                exact ⟨key, by rw [hxor, Option.bind_some]⟩
              · obtain ⟨key, hxor⟩ := xorChildren_total (embed lo' t') m hshort
                exact ⟨key, by rw [hxor, Option.bind_some]⟩
            obtain ⟨key, hkey⟩ := hkey
            exact ⟨embed lo' t', key, hkey, Or.inr hnode, fun h => by omega, fun h => by omega⟩
        · have hcase : ¬ m.prefixLen < KEY_LEN_BITS := hshort
          refine ⟨embed lo' t', m.key, hsame _ ?_, Or.inr hnode, fun _ _ _ => rfl, fun _ => rfl⟩
          rw [hfound]
          simp only [Option.bind_eq_bind, Option.bind_some, hembed', if_neg hcase]
    · refine ⟨.null, m.key, hsame _ ?_, Or.inl rfl, fun _ _ _ => rfl, fun _ => rfl⟩
      rw [removeDifferences, if_pos]
      right
      simp [hstored]

/-- A walk along a message stays before the last bit. -/
theorem walk_short {m : KeyMessage} (hlen : m.prefixLen ≤ 64) {lo i : ℕ}
    {t : KeyTrie} (ht : Over U lo t)
    (hfar : 63 ≤ m.prefixLen → position t = 64 → ¬ Agree bit 63 (first t) m.key)
    (him : i ≤ m.prefixLen) (hpos : i ≤ position t)
    (hagree : Agree bit i (first t) m.key) : i < 63 := by
  by_contra hge
  cases t with
  | leaf s k => exact hfar (by omega) rfl (hagree.mono (by omega))
  | node s p l r =>
    have hp := ht.position_lt hU
    change i ≤ p at hpos
    omega

/-- The comparison of prefix bits with one of our nodes, unless it has to
tell a leaf apart by its last bit. -/
theorem compareLoop_total (m : KeyMessage) (hlen : m.prefixLen ≤ 64) (fuel lo i : ℕ) (t : KeyTrie)
    (ht : Over U lo t) (hfar : 63 ≤ m.prefixLen → position t = 64 →
      ¬ Agree bit 63 (first t) m.key)
    (him : i ≤ m.prefixLen) (hpos : i ≤ position t) (hagree : Agree bit i (first t) m.key)
    (hfuel : 65 ≤ fuel + i) :
    (∃ d, compareLoop m (message lo t) fuel i (bit m.key i).toNat = some (.mismatch d)) ∨
      (∃ q, compareLoop m (message lo t) fuel i (bit m.key i).toNat =
          some (.match q (bit m.key q).toNat) ∧
        q = min m.prefixLen (position t) ∧ Agree bit q (first t) m.key) := by
  induction fuel generalizing i with
  | zero =>
    have := position_le hU ht
    omega
  | succ fuel ih =>
    rw [compareLoop, message_prefixLen]
    by_cases hlt : i < position t ∧ i < m.prefixLen
    · have hi : i < 63 := walk_short hU hlen ht hfar him hpos hagree
      rw [if_pos hlt, syncGetBits_eq _ i hi, message_bit lo t i hlt.1 (by omega)]
      simp only [Option.bind_eq_bind, Option.bind_some]
      by_cases hbit : bit m.key i = bit (first t) i
      · have hagree' : Agree bit (i + 1) (first t) m.key := by
          intro n hn
          by_cases heq : n = i
          · rw [heq, hbit]
          · exact hagree n (by omega)
        have hi' : i + 1 < 63 := walk_short hU hlen ht hfar hlt.2 hlt.1 hagree'
        have hnext : syncGetBits (i + PREFIX_STEP_BITS) PREFIX_STEP_BITS m.key =
            some (bit m.key (i + 1)).toNat := syncGetBits_eq m.key (i + 1) hi'
        rw [hbit, if_neg (by simp), hnext, Option.bind_some]
        exact ih (i + 1) hlt.2 hlt.1 hagree' (by omega)
      · left
        rw [if_pos (bool_toNat_ne hbit)]
        exact ⟨i, rfl⟩
    · right
      rw [if_neg hlt]
      exact ⟨i, rfl, by omega, hagree⟩

end Walks

end Succinct.SyncLastBits
