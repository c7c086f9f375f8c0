import Succinct.RangeSpans
import Succinct.FieldEncoding

/-!
What the calls of range_encode return that stand behind the calls of the range
coder. They return 0 throughout where the bits of the symbols fit into the buffer
and every symbol lies in its alphabet.
-/
namespace Succinct.CallCodes

open Arithmetic IntervalCoding RangePhases RangeLossless RangeRoom RangeSpans FieldEncoding

/-- The return codes of range_encode; range_encode_equiprobable drops those of the
halves of a large symbol. -/
def codes : Call → RangeCoder → List ℤ
  | .equiprobable n t, c =>
    if n ≥ 0x400000 then
      let first := encodeEquiprobable c (1 + n / 0x10000) (t.tdiv 0x10000)
      [first.1, (encodeEquiprobable first.2 0x10000 (t % 0x10000)).1]
    else [(encodeEquiprobable c n t).1]
  | .symbol frequencies n t, c => [(rangeEncodeSymbol c frequencies n t).1]

def allCodes : List Call → RangeCoder → List ℤ
  | [], _ => []
  | call :: rest, c => codes call c ++ allCodes rest (call.encode c).2

def encodeAll (calls : List Call) (c : RangeCoder) : RangeCoder := (encodeCalls calls 0 c).2

/-- The symbol lies in its alphabet and has a share there. Nothing is encoded of an
alphabet without symbols. -/
def Legal : Call → Prop
  | .equiprobable n t => n < 1 ∨ 0 ≤ t ∧ t < n ∧ n < 0x80000000
  | .symbol frequencies n t =>
    t < n ∧ Share (symbolLow frequencies t) (symbolHigh frequencies n t)

def equiprobableShares (n t : ℤ) : List (ℕ × ℕ) :=
  if n < 1 then [] else [rangeEquiprobableRange n t]

def callShares : Call → List (ℕ × ℕ)
  | .equiprobable n t =>
    if n ≥ 0x400000 then equiprobableShares (1 + n / 0x10000) (t.tdiv 0x10000) ++
      equiprobableShares 0x10000 (t % 0x10000)
    else equiprobableShares n t
  | .symbol frequencies n t => [(symbolLow frequencies t, symbolHigh frequencies n t)]

def advanceAll (p : Phase) (calls : List Call) : Phase :=
  (calls.flatMap callShares).foldl advance p

section Lists

theorem encodeCalls_snd (calls : List Call) (r : ℤ) (c : RangeCoder) :
    (encodeCalls calls r c).2 = encodeAll calls c := by
  cases calls with
  | nil => rfl
  | cons call rest => rfl

theorem encodeAll_cons (call : Call) (rest : List Call) (c : RangeCoder) :
    encodeAll (call :: rest) c = encodeAll rest (call.encode c).2 := by
  rw [encodeAll, encodeCalls, encodeCalls_snd]

theorem encodeAll_nil (c : RangeCoder) : encodeAll [] c = c := rfl

theorem encodeAll_singleton (call : Call) (c : RangeCoder) :
    encodeAll [call] c = (call.encode c).2 := by
  rw [encodeAll_cons, encodeAll_nil]

theorem encodeAll_append (calls calls' : List Call) (c : RangeCoder) :
    encodeAll (calls ++ calls') c = encodeAll calls' (encodeAll calls c) := by
  induction calls generalizing c with
  | nil => rfl
  | cons call rest ih => rw [List.cons_append, encodeAll_cons, encodeAll_cons, ih]

theorem allCodes_append (calls calls' : List Call) (c : RangeCoder) :
    allCodes (calls ++ calls') c = allCodes calls c ++ allCodes calls' (encodeAll calls c) := by
  induction calls generalizing c with
  | nil => rfl
  | cons call rest ih =>
    rw [List.cons_append, allCodes, allCodes, ih, encodeAll_cons, List.append_assoc]

theorem length_le_foldl (p : Phase) (shares : List (ℕ × ℕ)) :
    p.out.length ≤ (shares.foldl advance p).out.length := by
  induction shares generalizing p with
  | nil => exact le_rfl
  | cons share rest ih => exact (advance_extends p share).length_le.trans (ih _)

theorem advanceAll_cons (p : Phase) (call : Call) (rest : List Call) :
    advanceAll p (call :: rest) = advanceAll ((callShares call).foldl advance p) rest := by
  rw [advanceAll, List.flatMap_cons, List.foldl_append]
  rfl

theorem rangeEncodeEquiprobable_large (c : RangeCoder) {n : ℤ} (hlarge : n ≥ 0x400000) (t : ℤ) :
    rangeEncodeEquiprobable c n t = (0, (encodeEquiprobable
      (encodeEquiprobable c (1 + n / 0x10000) (t.tdiv 0x10000)).2 0x10000 (t % 0x10000)).2) := by
  rw [rangeEncodeEquiprobable, if_pos hlarge]

theorem encode_zero {call : Call} {c : RangeCoder} (h : ∀ code ∈ codes call c, code = 0) :
    (call.encode c).1 = 0 := by
  cases call with
  | equiprobable n t =>
    rw [Call.encode]
    by_cases hlarge : n ≥ 0x400000
    · exact (components_of_eq (rangeEncodeEquiprobable_large c hlarge t)).1
    · rw [codes, if_neg hlarge] at h
      rw [rangeEncodeEquiprobable, if_neg hlarge]
      exact h _ (List.mem_singleton_self _)
  | symbol frequencies n t => exact h _ (List.mem_singleton_self _)

/-- The last call returns 0 where no call of range_encode failed. -/
theorem encodeCalls_zero {calls : List Call} {c : RangeCoder}
    (h : ∀ code ∈ allCodes calls c, code = 0) :
    (encodeCalls calls 0 c).1 = 0 := by
  induction calls generalizing c with
  | nil => rfl
  | cons call rest ih =>
    obtain ⟨hcall, hrest⟩ := List.forall_mem_append.mp h
    rw [encodeCalls, encode_zero hcall]
    exact ih hrest

end Lists

section Advances

/-- The calls of range_encode return 0 if there is room for the bits of the phase, and
the coder stands at the phase then. -/
structure Advances (c : RangeCoder) (codes : List ℤ) (c' : RangeCoder) (p : Phase) : Prop where
  zero_iff : (∀ code ∈ codes, code = 0) ↔ p.out.length ≤ c.bitStreamLength
  settles : (∀ code ∈ codes, code = 0) → Settles c' ∧ phase c' = p ∧
    c'.bitStreamLength = c.bitStreamLength

variable {c : RangeCoder}

theorem Advances.refl (hc : Settles c) : Advances c [] c (phase c) :=
  ⟨iff_of_true (by simp) hc.room, fun _ => ⟨hc, rfl, rfl⟩⟩

/-- Further calls, of which something is known only where the first ones returned 0. -/
theorem Advances.trans {codes codes' : List ℤ} {c' c'' : RangeCoder} {p q : Phase}
    (h : Advances c codes c' p)
    (hmore : p.out.length ≤ q.out.length)
    (h' : Settles c' → phase c' = p → Advances c' codes' c'' q) :
    Advances c (codes ++ codes') c'' q := by
  by_cases hzero : ∀ code ∈ codes, code = 0
  · obtain ⟨hc', hphase, hlength⟩ := h.settles hzero
    obtain ⟨hiff, hnext⟩ := h' hc' hphase
    rw [hlength] at hiff hnext
    constructor
    · rw [List.forall_mem_append, hiff]
      exact ⟨fun hboth => hboth.2, fun hroom => ⟨hzero, hroom⟩⟩
    · exact fun hall => hnext (List.forall_mem_append.mp hall).2
  · have hfull : ¬ q.out.length ≤ c.bitStreamLength := fun hroom =>
      hzero (h.zero_iff.mpr (hmore.trans hroom))
    have hcodes : ¬ ∀ code ∈ codes ++ codes', code = 0 := fun hall =>
      hzero (List.forall_mem_append.mp hall).1
    exact ⟨iff_of_false hcodes hfull, fun hall => absurd hall hcodes⟩

theorem rangeEncode_advances (hc : Settles c) {share : ℕ × ℕ} (hs : Share share.1 share.2) :
    Advances c [(rangeEncode c share.1 share.2).1] (rangeEncode c share.1 share.2).2
      (advance (phase c) share) := by
  have hfills := rangeEncode_fills hc.encoding hc.normal hc.holds hc.room hs
  constructor
  · rw [List.forall_mem_singleton]
    exact hfills.code
  · rw [List.forall_mem_singleton]
    exact hc.encodeShare hs

theorem encodeEquiprobable_advances (hc : Settles c) {n t : ℤ} (hn : n < 0x400000)
    (ht : n < 1 ∨ 0 ≤ t ∧ t < n) :
    Advances c [(encodeEquiprobable c n t).1] (encodeEquiprobable c n t).2
      ((equiprobableShares n t).foldl advance (phase c)) := by
  rw [equiprobableShares]
  by_cases hempty : n < 1
  · rw [encodeEquiprobable, if_pos hempty, if_pos hempty, List.foldl_nil]
    exact ⟨iff_of_true (by simp) hc.room, fun _ => ⟨hc, rfl, rfl⟩⟩
  · obtain ⟨hnonneg, hlt⟩ := ht.resolve_left hempty
    rw [encodeEquiprobable_eq c n t hempty, if_neg hempty, List.foldl_cons, List.foldl_nil]
    refine rangeEncode_advances hc ?_
    lift n to ℕ using by omega
    lift t to ℕ using hnonneg
    exact equiprobable_shares (by omega) (by omega)

theorem equiprobable_advances (hc : Settles c) {n t : ℤ} (h : Legal (.equiprobable n t)) :
    Advances c (codes (.equiprobable n t) c) (rangeEncodeEquiprobable c n t).2
      ((callShares (.equiprobable n t)).foldl advance (phase c)) := by
  rw [callShares]
  by_cases hlarge : n ≥ 0x400000
  · -- the halves one after the other
    obtain ⟨hnonneg, hlt, hmax⟩ := h.resolve_left (by omega)
    have hhalf : 0 ≤ t.tdiv 0x10000 ∧ t.tdiv 0x10000 < 1 + n / 0x10000 := by
      rw [Int.tdiv_eq_ediv_of_nonneg hnonneg]
      omega
    have hfirst :=
      encodeEquiprobable_advances hc (show 1 + n / 0x10000 < 0x400000 by omega) (Or.inr hhalf)
    have hcodes : codes (.equiprobable n t) c =
      [(encodeEquiprobable c (1 + n / 0x10000) (t.tdiv 0x10000)).1] ++
        [(encodeEquiprobable (encodeEquiprobable c (1 + n / 0x10000) (t.tdiv 0x10000)).2 0x10000
          (t % 0x10000)).1] := by
      rw [codes, if_pos hlarge]
      rfl
    rw [hcodes, (components_of_eq (rangeEncodeEquiprobable_large c hlarge t)).2,
      if_pos hlarge, List.foldl_append]
    refine hfirst.trans (length_le_foldl _ _) ?_
    intro hc' hphase
    rw [← hphase]
    exact encodeEquiprobable_advances hc' (by omega) (by omega)
  · rw [codes, rangeEncodeEquiprobable, if_neg hlarge, if_neg hlarge, if_neg hlarge]
    exact encodeEquiprobable_advances hc (by omega) (h.imp_right fun h => ⟨h.1, h.2.1⟩)

theorem symbol_advances (hc : Settles c) {frequencies : List ℕ} {n t : ℕ}
    (h : Legal (.symbol frequencies n t)) :
    Advances c (codes (.symbol frequencies n t) c) (rangeEncodeSymbol c frequencies n t).2
      ((callShares (.symbol frequencies n t)).foldl advance (phase c)) := by
  have hshare : rangeEncodeSymbol c frequencies n t =
      rangeEncode c (symbolLow frequencies t) (symbolHigh frequencies n t) := by
    rw [rangeEncodeSymbol, if_neg (not_not_intro hc.encoding.errorless)]
    rfl
  rw [codes, callShares, hshare, List.foldl_cons, List.foldl_nil]
  exact @rangeEncode_advances c hc (symbolLow frequencies t, symbolHigh frequencies n t) h.2

/-- One call whose symbol lies in its alphabet. -/
theorem codes_advances (hc : Settles c) {call : Call} (h : Legal call) :
    Advances c (codes call c) (call.encode c).2 ((callShares call).foldl advance (phase c)) := by
  cases call with
  | equiprobable n t => exact equiprobable_advances hc h
  | symbol frequencies n t => exact symbol_advances hc h

/-- The run lemma: the codes are 0 where the bits of the symbols fit. -/
theorem allCodes_advances (hc : Settles c) {calls : List Call}
    (hcalls : ∀ call ∈ calls, Legal call) :
    Advances c (allCodes calls c) (encodeAll calls c) (advanceAll (phase c) calls) := by
  induction calls generalizing c with
  | nil => exact Advances.refl hc
  | cons call rest ih =>
    obtain ⟨hcall, hrest⟩ := List.forall_mem_cons.mp hcalls
    rw [allCodes, encodeAll_cons, advanceAll_cons]
    refine (codes_advances hc hcall).trans (length_le_foldl _ _) ?_
    intro hc' hphase
    rw [← hphase]
    exact ih hc' hrest

end Advances

end Succinct.CallCodes
