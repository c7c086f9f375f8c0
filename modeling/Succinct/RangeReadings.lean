import Succinct.RangeConclusions

/-!
What the symbols that a decoder reads say of its stream. A decoder that knows the
models reads the symbols of a message only on the streams in the interval of the
message: each symbol read narrows the interval down to its share.
-/
namespace Succinct.RangeReadings

open Arithmetic BitWords IntervalCoding RangePhases RangeLossless RangeMessages RangeCodecs
  RangeRoom RangeConclusions

/-- A settled bit is the bit of the stream, and so are the deferred ones. -/
theorem denotes_shift (n : ℕ) (p : Phase) (s : ℕ → Bool) (hp : Within n p) (hs : Settled n p)
    (h : Denotes n p s) :
    Denotes n (shift n p) s := by
  have hset := (settled_iff n p hp).mp hs
  obtain ⟨hle, hlt⟩ := hp
  obtain ⟨hstart, hdef, hlow, hhigh⟩ := h
  have htop := register_top s n p.out.length p.pending
  have hreg := register_lt s n p.out.length p.pending
  have hnext : (s (p.out.length + p.pending + n + 2)).toNat ≤ 1 := Bool.toNat_le _
  have hbit : s p.out.length = decide (2 * 2 ^ n ≤ p.low) := by
    rw [Bool.eq_iff_iff, ← htop, decide_eq_true_iff]
    omega
  have hlen : (shift n p).out.length = p.out.length + 1 + p.pending := by
    simp only [shift, List.length_append, List.length_cons, List.length_replicate]
    omega
  refine ⟨(starts_cons_replicate _ _ _ _).mpr
    ⟨hstart, hbit, fun i hi => by rw [hdef i hi, hbit]⟩, ?_, ?_⟩
  · intro i hi
    exact absurd hi (Nat.not_lt_zero i)
  · rw [hlen]
    change 2 * p.low % (4 * 2 ^ n) ≤ register s n (p.out.length + 1 + p.pending) 0 ∧
      register s n (p.out.length + 1 + p.pending) 0 ≤ (2 * p.high + 1) % (4 * 2 ^ n)
    rw [register_shift]
    rcases hset with hc | hc
    · rw [Nat.mod_eq_of_lt (show 2 * p.low < 4 * 2 ^ n by omega),
        Nat.mod_eq_of_lt (show 2 * p.high + 1 < 4 * 2 ^ n by omega), Nat.mod_eq_of_lt (by omega)]
      omega
    · rw [Nat.mod_eq_sub_mod (show 4 * 2 ^ n ≤ 2 * p.low by omega),
        Nat.mod_eq_of_lt (show 2 * p.low - 4 * 2 ^ n < 4 * 2 ^ n by omega),
        Nat.mod_eq_sub_mod (show 4 * 2 ^ n ≤ 2 * p.high + 1 by omega),
        Nat.mod_eq_of_lt (show 2 * p.high + 1 - 4 * 2 ^ n < 4 * 2 ^ n by omega),
        Nat.mod_eq_sub_mod (show 4 * 2 ^ n ≤ 2 * register s n p.out.length p.pending +
          (s (p.out.length + p.pending + n + 2)).toNat by omega), Nat.mod_eq_of_lt (by omega)]
      omega

/-- In the two middle quarters the second bit is the opposite of the first one. -/
theorem denotes_defer (n : ℕ) (p : Phase) (s : ℕ → Bool) (hs : Straddles n p)
    (h : Denotes n p s) :
    Denotes n (defer n p) s := by
  obtain ⟨⟨h1, h2⟩, h3, h4⟩ := (straddles_iff n p).mp hs
  obtain ⟨elow, ehigh⟩ := defer_ends n p hs
  obtain ⟨hstart, hdef, hlow, hhigh⟩ := h
  have hleft := word_succ_left s (p.out.length + p.pending + 1) n
  have hword := word_lt s (p.out.length + p.pending + 1 + 1) n
  have hstep : word s (p.out.length + (p.pending + 1) + 1) (n + 1) =
      2 * word s (p.out.length + p.pending + 1 + 1) n +
        (s (p.out.length + p.pending + n + 2)).toNat := by
    rw [word, show p.out.length + (p.pending + 1) + 1 = p.out.length + p.pending + 1 + 1 by omega]
    congr 3
    omega
  have hnext : (s (p.out.length + p.pending + n + 2)).toNat ≤ 1 := Bool.toNat_le _
  unfold register at hlow hhigh
  rw [hleft, pow_succ] at hlow hhigh
  have hlast : s (p.out.length + p.pending + 1) = !s p.out.length := by
    cases hbit : s p.out.length <;> cases hsecond : s (p.out.length + p.pending + 1) <;>
      simp only [hbit, hsecond, Bool.toNat_true, Bool.toNat_false, Bool.not_true, Bool.not_false]
        at hlow hhigh ⊢ <;>
      omega
  refine ⟨hstart, ?_, ?_⟩
  · change ∀ i, i < p.pending + 1 → s (p.out.length + 1 + i) = !s p.out.length
    intro i hi
    by_cases hold : i < p.pending
    · exact hdef i hold
    · rw [show p.out.length + 1 + i = p.out.length + p.pending + 1 by omega, hlast]
  · change _ ≤ register s n p.out.length (p.pending + 1) ∧
      register s n p.out.length (p.pending + 1) ≤ _
    unfold register
    rw [hstep, pow_succ]
    rw [hlast] at hlow hhigh
    cases hbit : s p.out.length <;>
      simp only [hbit, Bool.not_false, Bool.not_true, Bool.toNat_true, Bool.toNat_false]
        at hlow hhigh ⊢ <;>
      omega

theorem denotes_settle (n fuel : ℕ) (p : Phase) (s : ℕ → Bool) (hp : Within n p)
    (h : Denotes n p s) :
    Denotes n (settle n fuel p) s := by
  induction fuel generalizing p with
  | zero => exact h
  | succ fuel ih =>
    rw [settle]
    split
    · exact ih _ (shift_within n p hp ‹_›).1 (denotes_shift n p s hp ‹_› h)
    · exact h

theorem denotes_deferAll (n fuel : ℕ) (p : Phase) (s : ℕ → Bool) (h : Denotes n p s) :
    Denotes n (deferAll n fuel p) s := by
  induction fuel generalizing p with
  | zero => exact h
  | succ fuel ih =>
    rw [deferAll]
    split
    · exact ih _ (denotes_defer n p s ‹_› h)
    · exact h

/-- Normalising forgets no stream. -/
theorem denotes_normalise (n : ℕ) (p : Phase) (s : ℕ → Bool) (hp : Within n p)
    (h : Denotes n p s) :
    Denotes n (normalise n p) s :=
  denotes_deferAll n (n + 2) _ s (denotes_settle n (n + 2) p s hp h)

structure Follows (s : ℕ → Bool) (p : Phase) (d : RangeCoder) : Prop where
  normal : Normal 30 p
  denotes : Denotes 30 p s
  tracks : Tracks s p d

section Reading

variable {s : ℕ → Bool} {p : Phase} {d : RangeCoder} (h : Follows s p d)

include h

/-- A share is accepted on the streams in it only. -/
theorem Follows.common {share : ℕ × ℕ} (hs : Share share.1 share.2) :
    ((rangeDecodeCommon d share.1 share.2).1 = 0 →
      Follows s (advance p share) (rangeDecodeCommon d share.1 share.2).2) ∧
    ((rangeDecodeCommon d share.1 share.2).1 ≠ 0 →
      Follows s p (rangeDecodeCommon d share.1 share.2).2) := by
  obtain ⟨hp, hden, ht⟩ := h
  have hwithin := narrowed_within p hp share.1 share.2 hs
  by_cases hin : (narrowed p share.1 share.2).low ≤ register s 30 p.out.length p.pending ∧
      register s 30 p.out.length p.pending ≤ (narrowed p share.1 share.2).high
  · obtain ⟨hret, ht'⟩ := rangeDecodeCommon_inside s p d hp ht _ _ hs hin.1 hin.2
    refine ⟨fun _ => ⟨advance_normal hp hs, ?_, ht'⟩, fun hnonzero => absurd hret hnonzero⟩
    exact denotes_normalise 30 _ s hwithin ⟨hden.1, hden.2.1, hin⟩
  · have hout : (narrowed p share.1 share.2).low > register s 30 p.out.length p.pending ∨
        (narrowed p share.1 share.2).high < register s 30 p.out.length p.pending := by omega
    obtain ⟨hret, ht'⟩ := rangeDecodeCommon_outside s p d hp ht _ _ hs hden.2.2.1 hden.2.2.2 hout
    exact ⟨fun hzero => absurd hzero hret, fun _ => ⟨hp, hden, ht'⟩⟩

theorem Follows.tryCandidates {n : ℕ} (hn : n < 0x400000) {list : List ℕ}
    (hlist : ∀ x ∈ list, x < n) {x : ℕ} (hx : (tryCandidates n list d).1 = some x) :
    x < n ∧ Follows s (advance p (rangeEquiprobableRange n x)) (tryCandidates n list d).2 := by
  induction list generalizing d with
  | nil => cases hx
  | cons y rest ih =>
    have hy := hlist y (List.mem_cons_self ..)
    obtain ⟨hin, hout⟩ := h.common (equiprobable_shares hn hy)
    rw [Arithmetic.tryCandidates] at hx ⊢
    by_cases hzero : (rangeDecodeCommon d (rangeEquiprobableRange ↑n ↑y).1
      (rangeEquiprobableRange ↑n ↑y).2).1 = 0
    · rw [if_pos hzero] at hx
      obtain rfl := Option.some.inj hx
      rw [if_pos hzero]
      exact ⟨hy, hin hzero⟩
    · rw [if_neg hzero] at hx
      rw [if_neg hzero]
      exact ih (hout hzero) (fun z hz => hlist z (List.mem_cons_of_mem _ hz)) hx

omit h in
theorem candidates_lt (n e x : ℕ) (hx : x ∈ candidates n e) : x < n := by
  have hkept := (List.mem_filter.mp hx).2
  rw [decide_eq_true_eq] at hkept
  exact_mod_cast hkept

/-- A symbol of an alphabet that is not split, or -1. -/
theorem Follows.decodeEquiprobable {n : ℕ} (hn : n < 0x400000) (hpos : 1 ≤ n) :
    (decodeEquiprobable d n).1 = -1 ∨ ∃ x : ℕ, (decodeEquiprobable d n).1 = x ∧ x < n ∧
      Follows s (advance p (rangeEquiprobableRange n x)) (decodeEquiprobable d n).2 := by
  rw [Arithmetic.decodeEquiprobable, if_neg (by omega)]
  simp only
  generalize u32 (u32 (0x100000000 + d.value - d.low) * (n : ℤ).toNat / rangeSpace d) = e
  have htry := fun x hx => h.tryCandidates hn (candidates_lt n e) (x := x) hx
  generalize Arithmetic.tryCandidates n (candidates n e) d = r at htry ⊢
  obtain ⟨found, d'⟩ := r
  cases found with
  | none => exact Or.inl rfl
  | some x => exact Or.inr ⟨x, rfl, htry x rfl⟩

theorem Follows.rangeDecodeSymbol {frequencies : List ℕ} {n t : ℕ}
    (hf : Cumulative frequencies n) (ht : t < n)
    (hread : (rangeDecodeSymbol d frequencies n).1 = t) :
    Follows s (advance p (symbolLow frequencies t, symbolHigh frequencies n t))
      (rangeDecodeSymbol d frequencies n).2 := by
  have hoff : Follows s p { d with decodingP := false } :=
    ⟨h.normal, h.denotes, h.tracks.decodingP false⟩
  rw [Arithmetic.rangeDecodeSymbol] at hread ⊢
  generalize searchSymbol { d with decodingP := false } frequencies
    (rangeSpace { d with decodingP := false }) (n - 1) 0 = x
    at hread ⊢
  change (andThen (rangeDecodeCommon { d with decodingP := false } (symbolLow frequencies x)
    (symbolHigh frequencies n x)) fun c => (x, c)).1 = t at hread
  change Follows s _ (andThen
    (rangeDecodeCommon { d with decodingP := false } (symbolLow frequencies x)
    (symbolHigh frequencies n x)) fun c => (x, c)).2
  rw [andThen] at hread ⊢
  split at hread
  case isTrue hzero =>
    change (x : ℤ) = t at hread
    have hx : x = t := by omega
    subst hx
    rw [if_pos hzero]
    exact (hoff.common (symbol_share frequencies n x hf ht)).1 hzero
  case isFalse hzero =>
    omega

omit h in
/-- A half that failed sets the sign of a split symbol. -/
theorem toInt_or_neg {a b : ℕ} (ha : a < 0x100000000) (hb : b < 0x100000000)
    (hbig : 0x80000000 ≤ a ∨ 0x80000000 ≤ b) :
    toInt (a ||| b) < 0 := by
  have hor : a ||| b < 2 ^ 32 := Nat.or_lt_two_pow ha hb
  have hleft : a ≤ a ||| b := Nat.left_le_or
  have hright : b ≤ a ||| b := Nat.right_le_or
  rw [toInt, if_neg (by omega)]
  omega

omit h in
theorem halves_fail (low high : ℤ) (hfail : low = -1 ∨ high = -1) :
    toInt (u32 (ull low) ||| u32 (u32 (ull high) * 0x10000)) < 0 := by
  have hbound : ∀ x, u32 x < 0x100000000 := fun x => Nat.mod_lt _ (by omega)
  have hones : u32 (ull (-1)) = 0xffffffff := by decide
  have hshifted : u32 (0xffffffff * 0x10000) = 0xffff0000 := by decide
  refine toInt_or_neg (hbound _) (hbound _) ?_
  rcases hfail with rfl | rfl
  · left
    omega
  · right
    rw [hones, hshifted]
    omega

omit h in
theorem halves_read {x y t : ℕ} (hx : x < 0x8000) (hy : y < 0x10000)
    (ht : toInt (u32 (ull (y : ℕ)) ||| u32 (u32 (ull (x : ℕ)) * 0x10000)) = t) :
    x = t / 0x10000 ∧ y = t % 0x10000 := by
  have hjoin := halves_join (x * 0x10000 + y) (by omega)
  rw [show (x * 0x10000 + y) % 0x10000 =
    y by omega, show (x * 0x10000 + y) / 0x10000 = x by omega, ht] at hjoin
  omega

theorem Follows.rangeDecodeEquiprobable {n t : ℕ} (hn : n < 0x80000000) (ht : t < n)
    (hread : (rangeDecodeEquiprobable d n).1 = t) :
    Follows s ((shares (.equiprobable n t)).foldl advance p) (rangeDecodeEquiprobable d n).2 := by
  rw [shares]
  by_cases hlarge : n ≥ 0x400000
  · have hsize : (1 : ℤ) + (n : ℤ) / 0x10000 = ((1 + n / 0x10000 : ℕ) : ℤ) := by omega
    have hten : (0x10000 : ℤ) = ((0x10000 : ℕ) : ℤ) := rfl
    have hfirst := h.decodeEquiprobable (n := 1 + n / 0x10000) (by omega) (by omega)
    rw [if_pos hlarge, List.foldl_cons, List.foldl_cons, List.foldl_nil]
    rw [Arithmetic.rangeDecodeEquiprobable, if_pos (by omega), hsize, hten] at hread ⊢
    generalize Arithmetic.decodeEquiprobable d (1 + n / 0x10000 : ℕ) = first at hfirst hread ⊢
    rcases hfirst with hfail | ⟨x, hx, hxlt, hfollows⟩
    · have hneg :=
        halves_fail (Arithmetic.decodeEquiprobable first.2 (0x10000 : ℕ)).1 first.1 (Or.inr hfail)
      change toInt _ = (t : ℤ) at hread
      omega
    · have hsecond := hfollows.decodeEquiprobable (n := 0x10000) (by omega) (by omega)
      change toInt (u32 (ull (Arithmetic.decodeEquiprobable first.2 (0x10000 : ℕ)).1) |||
        u32 (u32 (ull first.1) * 0x10000)) = t at hread
      change Follows s _ (Arithmetic.decodeEquiprobable first.2 (0x10000 : ℕ)).2
      rcases hsecond with hfail | ⟨y, hy, hylt, hfollows'⟩
      · have hneg :=
          halves_fail (Arithmetic.decodeEquiprobable first.2 (0x10000 : ℕ)).1
            first.1 (Or.inl hfail)
        omega
      · rw [hx, hy] at hread
        obtain ⟨rfl, rfl⟩ := halves_read (by omega) hylt hread
        exact hfollows'
  · have hsmall : Arithmetic.rangeDecodeEquiprobable d n = Arithmetic.decodeEquiprobable d n := by
      rw [Arithmetic.rangeDecodeEquiprobable, if_neg (by omega)]
    rw [hsmall] at hread ⊢
    rw [if_neg hlarge, List.foldl_cons, List.foldl_nil]
    rcases h.decodeEquiprobable (n := n) (by omega) (by omega) with hfail | ⟨x, hx, hlt, hfollows⟩
    · omega
    · have hxt : x = t := by omega
      rwa [hxt] at hfollows

/-- One symbol that was read. -/
theorem Follows.decode {step : Step} (hstep : step.Valid)
    (hread : (step.decode d).1 = step.value) :
    Follows s ((shares step).foldl advance p) (step.decode d).2 := by
  cases step with
  | equiprobable n t => exact h.rangeDecodeEquiprobable hstep.2 hstep.1 hread
  | symbol frequencies n t => exact h.rangeDecodeSymbol hstep.2 hstep.1 hread

end Reading

/-- The run lemma: the symbols that were read narrow the interval down to theirs. -/
theorem Follows.decodeSteps {s : ℕ → Bool} {p : Phase} {d : RangeCoder} (h : Follows s p d)
    {steps : List Step} (hvalid : ∀ step ∈ steps, step.Valid)
    (hread : decodeSteps steps d = steps.map fun step => (step.value : ℤ)) :
    Denotes 30 (interval p steps) s := by
  induction steps generalizing p d with
  | nil => exact h.denotes
  | cons step rest ih =>
    rw [RangeMessages.decodeSteps, List.map_cons] at hread
    obtain ⟨hfirst, hrest⟩ := List.cons.inj hread
    rw [interval_cons]
    exact ih (h.decode (hvalid step (List.mem_cons_self ..)) hfirst) (fun x hx =>
      hvalid x (List.mem_cons_of_mem _ hx)) hrest

theorem fresh_denotes (s : ℕ → Bool) : Denotes 30 fresh s := by
  have hreg := register_lt s 30 0 0
  refine ⟨?_, ?_, Nat.zero_le _, ?_⟩
  · intro i hi
    exact absurd hi (Nat.not_lt_zero i)
  · intro i hi
    exact absurd hi (Nat.not_lt_zero i)
  · change register s 30 0 0 ≤ 0xffffffff
    omega

theorem decodeAll_eq (steps : List Step) (d : RangeCoder) :
    ((decodeAll steps).run d).1 = RangeMessages.decodeSteps steps d := by
  induction steps generalizing d with
  | nil => rfl
  | cons step rest ih =>
    change (step.decode d).1 :: ((decodeAll rest).run (step.decode d).2).1 = _
    rw [ih, RangeMessages.decodeSteps]

/-- A decoder that knows the models reads the symbols of a message on the streams in its
interval, and on no others. -/
theorem decodeSteps_iff {steps : List Step} (hvalid : ∀ step ∈ steps, step.Valid)
    (stream : List UInt8) (length : ℕ) :
    RangeMessages.decodeSteps steps (rangeDecodePrefetch (decoderOn stream length)) =
        steps.map (fun step => (step.value : ℤ)) ↔
      Denotes 30 (interval fresh steps) (decoderStream stream length) := by
  constructor
  · exact Follows.decodeSteps
      ⟨fresh_normal, fresh_denotes _, rangeDecodePrefetch_tracks stream length⟩ hvalid
  · intro hs
    rw [← decodeAll_eq]
    exact decoded_of_denotes (Codes.all steps hvalid) hvalid stream length hs

end Succinct.RangeReadings
