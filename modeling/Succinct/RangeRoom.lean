import Succinct.RangeLimits

/-!
What an encoder leaves in its buffer, whether there is room or not. The bits of
a share are those that a phase settles, which has no limit: the coder writes
the ones that fit, and has run out of bits where there are more.
-/
namespace Succinct.RangeRoom

open Arithmetic IntervalCoding RangePhases RangeLossless RangeMessages RangeLimits

structure Holds (limit : ℕ) (bits : List Bool) (c : RangeCoder) : Prop where
  length : c.bitStreamLength = limit
  encodes : c.decodingP = false
  stream : StreamOk c
  flag : c.outOfBits = decide (limit < bits.length)
  emitted_eq : emitted c = bits.take limit

/-- The call writes up to the given bits, and returns 0 if they fit. -/
structure Fills (limit : ℕ) (bits : List Bool) (r : ℤ × RangeCoder) : Prop where
  code : r.1 = 0 ↔ bits.length ≤ limit
  holds : Holds limit bits r.2

theorem length_emitted (c : RangeCoder) : (emitted c).length = c.bitsUsed := by
  rw [emitted, List.length_map, List.length_range]

theorem take_of_isPrefix {xs ys : List Bool} (h : xs <+: ys) {limit : ℕ}
    (hfull : limit ≤ xs.length) :
    ys.take limit = xs.take limit := by
  obtain ⟨rest, rfl⟩ := h
  exact List.take_append_of_le_length hfull

section Writing

variable {limit : ℕ} {bits : List Bool} {c : RangeCoder}

theorem Holds.bitsUsed (h : Holds limit bits c) : c.bitsUsed = min limit bits.length := by
  rw [← length_emitted, h.emitted_eq, List.length_take]

theorem Holds.update (h : Holds limit bits c) {c' : RangeCoder}
    (hstream : c'.bitStream = c.bitStream)
    (hlength : c'.bitStreamLength = c.bitStreamLength) (hused : c'.bitsUsed = c.bitsUsed)
    (hflag : c'.outOfBits = c.outOfBits) (hdec : c'.decodingP = c.decodingP) :
    Holds limit bits c' := by
  refine ⟨hlength.trans h.length, hdec.trans h.encodes, h.stream.update hstream hlength hused,
    hflag.trans h.flag, ?_⟩
  rw [← h.emitted_eq, emitted, emitted, hstream, hused]

/-- Past the limit, further bits make no difference. -/
theorem Holds.extend (h : Holds limit bits c) (hfull : limit < bits.length) {more : List Bool}
    (hmore : bits <+: more) :
    Holds limit more c := by
  refine ⟨h.length, h.encodes, h.stream, ?_, ?_⟩
  · have hlen := hmore.length_le
    rw [h.flag, decide_eq_true hfull, decide_eq_true (by omega)]
  · rw [h.emitted_eq, take_of_isPrefix hmore hfull.le]

theorem Fills.andThen {r : ℤ × RangeCoder} {rest : RangeCoder → ℤ × RangeCoder} {more : List Bool}
    (h : Fills limit bits r) (hmore : bits <+: more)
    (hrest : bits.length ≤ limit → Fills limit more (rest r.2)) :
    Fills limit more (andThen r rest) := by
  rw [Arithmetic.andThen]
  by_cases hzero : r.1 = 0
  · rw [if_pos hzero]
    exact hrest (h.code.mp hzero)
  · rw [if_neg hzero]
    have hfull : limit < bits.length := Nat.lt_of_not_le fun hle => hzero (h.code.mpr hle)
    have hlen := hmore.length_le
    exact ⟨iff_of_false (by simp) (by omega), h.holds.extend hfull hmore⟩

theorem rangeEmitbit_fills (h : Holds limit bits c) (hroom : bits.length ≤ limit) (b : Bool) :
    Fills limit (bits ++ [b]) (rangeEmitbit c b) := by
  have hused := h.bitsUsed
  rw [Nat.min_eq_right hroom] at hused
  have hflag := h.flag
  rw [decide_eq_false (by omega)] at hflag
  have hlen : (bits ++ [b]).length = bits.length + 1 := List.length_append
  have hwhole := h.emitted_eq
  rw [List.take_of_length_le hroom] at hwhole
  by_cases hfull : c.bitsUsed ≥ c.bitStreamLength
  · have hlimit := h.length
    rw [rangeEmitbit, if_pos hfull]
    refine ⟨iff_of_false (by simp) (by omega), h.length, h.encodes,
      h.stream.update rfl rfl rfl, ?_, ?_⟩
    · exact (decide_eq_true (by omega)).symm
    · rw [List.take_append_of_le_length (by omega), List.take_of_length_le hroom]
      exact hwhole
  · have hlimit := h.length
    have hzero : (rangeEmitbit c b).2.outOfBits = false := by
      rw [rangeEmitbit, if_neg hfull]
      exact hflag
    have hstays := rangeEmitbit_stays c b
    obtain ⟨hret, happ⟩ := rangeEmitbit_appended c b h.stream hzero
    refine ⟨iff_of_true hret (by omega), hstays.length.trans h.length,
      hstays.decodingP.trans h.encodes, happ.ok, ?_, ?_⟩
    · rw [hzero, decide_eq_false (by omega)]
    · rw [happ.emitted_eq, hwhole, List.take_of_length_le (by omega)]

theorem emitAll_fills (h : Holds limit bits c) (hroom : bits.length ≤ limit) (more : List Bool) :
    Fills limit (bits ++ more) (emitAll more c) := by
  induction more generalizing bits c with
  | nil =>
    rw [List.append_nil]
    exact ⟨iff_of_true rfl hroom, h⟩
  | cons b rest ih =>
    have hsplit : bits ++ b :: rest = bits ++ [b] ++ rest := by simp
    have hbit := rangeEmitbit_fills h hroom b
    rw [hsplit, emitAll]
    exact hbit.andThen (List.prefix_append _ _) fun hroom' => ih hbit.holds hroom'

theorem emitDeferred_fills (h : Holds limit bits c) (hroom : bits.length ≤ limit)
    (b : Bool) (n : ℕ) :
    Fills limit (bits ++ List.replicate n b) (emitDeferred false b n c) := by
  induction n generalizing bits c with
  | zero =>
    rw [List.replicate_zero, List.append_nil]
    exact ⟨iff_of_true rfl hroom, h.update rfl rfl rfl rfl rfl⟩
  | succ n ih =>
    have hsplit : bits ++ List.replicate (n + 1) b = bits ++ [b] ++ List.replicate n b := by
      rw [List.replicate_succ, List.append_assoc, List.singleton_append]
    have hcount : Holds limit bits { c with underflow := c.underflow - 1 } :=
      h.update rfl rfl rfl rfl rfl
    have hbit := rangeEmitbit_fills hcount hroom b
    rw [hsplit, emitDeferred]
    exact hbit.andThen (List.prefix_append _ _) fun hroom' => ih hbit.holds hroom'

end Writing

section Shares

variable {limit : ℕ} {c : RangeCoder}

theorem shiftOut_holds {bits : List Bool} (h : Holds limit bits c) :
    Holds limit bits (shiftOut c).2 := by
  rw [(shiftOut_phase c h.encodes).2]
  exact h.update rfl rfl rfl rfl rfl

/-- The top bit, and the bits that were deferred. -/
theorem emitStableBit_fills (hc : Encoding c) (h : Holds limit (phase c).out c)
    (hroom : (phase c).out.length ≤ limit) :
    Fills limit (shift 30 (phase c)).out (emitStableBit c) := by
  have hbit := rangeEmitbit_fills h hroom (decide (0x80000000 ≤ c.low))
  have hsame : (rangeEmitbit c (decide (0x80000000 ≤ c.low))).2.underflow = c.underflow := by
    rw [rangeEmitbit]
    split <;> rfl
  have hout : (shift 30 (phase c)).out = (phase c).out ++ [decide (0x80000000 ≤ c.low)] ++
      List.replicate c.underflow.toNat (!decide (0x80000000 ≤ c.low)) := by
    rw [List.append_assoc, List.singleton_append]
    rfl
  rw [hout, emitStableBit]
  simp only [hc.encodes, Bool.false_eq_true, if_false]
  generalize rangeEmitbit c (decide (0x80000000 ≤ c.low)) = first at hbit hsame ⊢
  refine hbit.andThen (List.prefix_append _ _) ?_
  intro hroom'
  rw [hbit.holds.encodes, hsame]
  by_cases hzero : c.underflow = 0
  · rw [if_neg (not_not_intro hzero), andThen_zero _ _ rfl, hzero, Int.toNat_zero,
      List.replicate_zero, List.append_nil]
    exact ⟨iff_of_true (shiftOut_phase _ hbit.holds.encodes).1 hroom', shiftOut_holds hbit.holds⟩
  · rw [if_pos hzero]
    have hdeferred :=
      emitDeferred_fills hbit.holds hroom' (!decide (0x80000000 ≤ c.low)) c.underflow.toNat
    refine hdeferred.andThen List.prefix_rfl ?_
    intro hroom''
    exact ⟨iff_of_true (shiftOut_phase _ hdeferred.holds.encodes).1 hroom'',
      shiftOut_holds hdeferred.holds⟩

theorem settle_extends (n fuel : ℕ) (p : Phase) : p.out <+: (settle n fuel p).out := by
  induction fuel generalizing p with
  | zero => exact List.prefix_rfl
  | succ fuel ih =>
    rw [settle]
    split
    · exact (List.prefix_append _ _).trans (ih (shift n p))
    · exact List.prefix_rfl

theorem deferAll_out (n fuel : ℕ) (p : Phase) : (deferAll n fuel p).out = p.out := by
  induction fuel generalizing p with
  | zero => rfl
  | succ fuel ih =>
    rw [deferAll]
    split
    · exact ih (defer n p)
    · rfl

theorem stableLoop_fills (fuel : ℕ) (hc : Encoding c) (h : Holds limit (phase c).out c)
    (hroom : (phase c).out.length ≤ limit) :
    Fills limit (settle 30 fuel (phase c)).out (stableLoop fuel c) := by
  induction fuel generalizing c with
  | zero => exact ⟨iff_of_true rfl hroom, h⟩
  | succ fuel ih =>
    rw [settle, stableLoop]
    by_cases hs : Settled 30 (phase c)
    · have hcond : c.low / 0x80000000 = c.high / 0x80000000 := hs
      have hfirst := emitStableBit_fills hc h hroom
      rw [if_pos hs, if_pos hcond]
      refine hfirst.andThen (settle_extends _ _ _) ?_
      intro hroom'
      have hflag := hfirst.holds.flag
      rw [decide_eq_false (by omega)] at hflag
      obtain ⟨-, hc', hphase⟩ := emitStableBit_phase c hc hflag
      have hholds := hfirst.holds
      rw [← hphase] at hholds hroom' ⊢
      exact ih hc' hholds hroom'
    · have hcond : ¬ c.low / 0x80000000 = c.high / 0x80000000 := hs
      rw [if_neg hs, if_neg hcond]
      exact ⟨iff_of_true rfl hroom, h⟩

structure Untouched (c c' : RangeCoder) : Prop where
  stream : c'.bitStream = c.bitStream
  length : c'.bitStreamLength = c.bitStreamLength
  used : c'.bitsUsed = c.bitsUsed
  flag : c'.outOfBits = c.outOfBits
  decodingP : c'.decodingP = c.decodingP

theorem Untouched.refl (c : RangeCoder) : Untouched c c := ⟨rfl, rfl, rfl, rfl, rfl⟩

theorem Untouched.trans {a b c : RangeCoder} (h1 : Untouched a b)
    (h2 : Untouched b c) : Untouched a c :=
  ⟨h2.stream.trans h1.stream, h2.length.trans h1.length, h2.used.trans h1.used,
    h2.flag.trans h1.flag, h2.decodingP.trans h1.decodingP⟩

theorem Untouched.holds {c' : RangeCoder} (h : Untouched c c') {bits : List Bool}
    (hc : Holds limit bits c) :
    Holds limit bits c' :=
  hc.update h.stream h.length h.used h.flag h.decodingP

theorem rescaleBit_untouched (hdec : c.decodingP = false) {c' : RangeCoder}
    (h : rescaleBit c = some c') :
    Untouched c c' := by
  unfold rescaleBit at h
  simp only [hdec, Bool.false_eq_true, if_false] at h
  split at h
  · cases h
  · rw [← Option.some.inj h]
    exact ⟨rfl, rfl, rfl, rfl, hdec.symm⟩

theorem rescaleLoop_untouched (fuel : ℕ) (hdec : c.decodingP = false) :
    Untouched c (rescaleLoop fuel c) := by
  induction fuel generalizing c with
  | zero => exact Untouched.refl c
  | succ fuel ih =>
    rw [rescaleLoop]
    split
    · cases hbit : rescaleBit c with
      | none => exact ⟨rfl, rfl, rfl, rfl, rfl⟩
      | some c' =>
        have hstep := rescaleBit_untouched hdec hbit
        exact hstep.trans (ih (hstep.decodingP.trans hdec))
    · exact Untouched.refl c

theorem rangeEmitStableBits_fills (hc : Encoding c) (h : Holds limit (phase c).out c)
    (hroom : (phase c).out.length ≤ limit) :
    Fills limit (normalise 30 (phase c)).out (rangeEmitStableBits c) := by
  rw [normalise, deferAll_out, rangeEmitStableBits]
  have hloop := stableLoop_fills 32 hc h hroom
  refine hloop.andThen List.prefix_rfl ?_
  intro hroom'
  refine ⟨iff_of_true rfl hroom', ?_⟩
  dsimp only
  split
  · exact hloop.holds
  · exact (rescaleLoop_untouched 32 hloop.holds.encodes).holds hloop.holds

def Full (c : RangeCoder) : Prop := c.bitStreamLength ≤ c.bitsUsed ∧ c.outOfBits = true

theorem Holds.full {bits : List Bool} (h : Holds limit bits c)
    (hfull : limit < bits.length) : Full c := by
  have hused := h.bitsUsed
  have hlength := h.length
  refine ⟨by omega, ?_⟩
  rw [h.flag, decide_eq_true hfull]

theorem Full.of_untouched (h : Full c) {c' : RangeCoder} (hsame : Untouched c c') : Full c' := by
  obtain ⟨hused, hflag⟩ := h
  refine ⟨?_, hsame.flag.trans hflag⟩
  rw [hsame.length, hsame.used]
  exact hused

theorem rangeEmitbit_full (h : Full c) (b : Bool) : (rangeEmitbit c b).1 = -1 ∧
    Untouched c (rangeEmitbit c b).2 := by
  rw [rangeEmitbit, if_pos h.1]
  exact ⟨rfl, rfl, rfl, rfl, h.2.symm, rfl⟩

theorem andThen_stopped {r : ℤ × RangeCoder} (h : r.1 = -1) (rest : RangeCoder → ℤ × RangeCoder) :
    andThen r rest = (-1, r.2) := by
  rw [andThen, if_neg (by omega)]

theorem stableLoop_full (fuel : ℕ) (h : Full c) (hdec : c.decodingP = false) :
    Untouched c (stableLoop fuel c).2 := by
  cases fuel with
  | zero => exact Untouched.refl c
  | succ fuel =>
    obtain ⟨hcode, hsame⟩ := rangeEmitbit_full h (decide (0x80000000 ≤ c.low))
    rw [stableLoop]
    split
    · rw [emitStableBit]
      simp only [hdec, Bool.false_eq_true, if_false]
      rw [andThen_stopped hcode, andThen_stopped rfl]
      exact hsame
    · exact Untouched.refl c

theorem rangeEmitStableBits_full (h : Full c) (hdec : c.decodingP = false) :
    Untouched c (rangeEmitStableBits c).2 := by
  have hloop := stableLoop_full 32 h hdec
  rw [rangeEmitStableBits, andThen]
  split
  · dsimp only
    split
    · exact hloop
    · exact hloop.trans (rescaleLoop_untouched 32 (hloop.decodingP.trans hdec))
  · exact hloop

theorem rangeCalcNewRange_untouched (c : RangeCoder) (pLow pHigh : ℕ) :
    Untouched c (rangeCalcNewRange c pLow pHigh).2 := by
  unfold rangeCalcNewRange
  simp only
  split
  · exact ⟨rfl, rfl, rfl, rfl, rfl⟩
  · split <;> split <;> exact Untouched.refl c

theorem rangeEncode_full (h : Full c) (hdec : c.decodingP = false) (pLow pHigh : ℕ) :
    Untouched c (rangeEncode c pLow pHigh).2 := by
  have hcalc := rangeCalcNewRange_untouched c pLow pHigh
  unfold rangeEncode
  split
  · exact Untouched.refl c
  · split
    · exact Untouched.refl c
    · generalize rangeCalcNewRange c pLow pHigh = r at hcalc ⊢
      obtain ⟨range, c'⟩ := r
      cases range with
      | none => exact hcalc
      | some range =>
        have hset : Untouched c { c' with low := range.1, high := range.2 } :=
          hcalc.trans ⟨rfl, rfl, rfl, rfl, rfl⟩
        dsimp only
        split
        · exact hset
        · have hemit := rangeEmitStableBits_full (h.of_untouched hset) (hset.decodingP.trans hdec)
          rw [andThen]
          split
          · exact hset.trans hemit
          · exact hset.trans hemit

end Shares

section Symbols

variable {limit : ℕ}

def advance (p : Phase) (share : ℕ × ℕ) : Phase := normalise 30 (narrowed p share.1 share.2)

theorem advance_normal {p : Phase} (hp : Normal 30 p) {share : ℕ × ℕ}
    (hs : Share share.1 share.2) :
    Normal 30 (advance p share) :=
  normalise_normal 30 _ (narrowed_within p hp share.1 share.2 hs)

theorem advance_extends (p : Phase) (share : ℕ × ℕ) : p.out <+: (advance p share).out := by
  rw [advance, normalise, deferAll_out]
  exact settle_extends 30 32 (narrowed p share.1 share.2)

theorem rangeEncode_fills {c : RangeCoder} (hc : Encoding c) (hp : Normal 30 (phase c))
    (h : Holds limit (phase c).out c) (hroom : (phase c).out.length ≤ limit) {share : ℕ × ℕ}
    (hs : Share share.1 share.2) :
    Fills limit (advance (phase c) share).out (rangeEncode c share.1 share.2) := by
  have hnarrow : Holds limit (phase c).out (narrowTo c share.1 share.2) :=
    h.update rfl rfl rfl rfl rfl
  have hstable := rangeEmitStableBits_fills (narrowTo_encoding hc share.1 share.2) hnarrow hroom
  rw [rangeEncode_eq c hc hp share.1 share.2 hs]
  exact hstable.andThen List.prefix_rfl fun hroom' => ⟨iff_of_true rfl hroom', hstable.holds⟩

/-- The coder stands at a phase, or ran out of bits on the way there. -/
structure Reaches (limit : ℕ) (p : Phase) (c : RangeCoder) : Prop where
  holds : Holds limit p.out c
  inside : p.out.length ≤ limit → Encoding c ∧ phase c = p

theorem Reaches.beyond {p q : Phase} {c c' : RangeCoder} (h : Reaches limit p c)
    (hfull : limit < p.out.length)
    (hsame : Untouched c c') (hmore : p.out <+: q.out) : Reaches limit q c' := by
  have hlen := hmore.length_le
  refine ⟨(hsame.holds h.holds).extend hfull hmore, ?_⟩
  intro hroom
  omega

theorem Reaches.rangeEncode {p : Phase} {c : RangeCoder} (h : Reaches limit p c)
    (hp : Normal 30 p) {share : ℕ × ℕ}
    (hs : Share share.1 share.2) :
    Reaches limit (advance p share) (rangeEncode c share.1 share.2).2 := by
  have hlen := (advance_extends p share).length_le
  by_cases hroom : p.out.length ≤ limit
  · obtain ⟨hc, rfl⟩ := h.inside hroom
    have hholds := (rangeEncode_fills hc hp h.holds hroom hs).holds
    refine ⟨hholds, ?_⟩
    intro hroom'
    have hflag := hholds.flag
    rw [decide_eq_false (by omega)] at hflag
    exact (rangeEncode_phase c hc hp share.1 share.2 hs hflag).2
  · have hfull : limit < p.out.length := by omega
    have hsame := rangeEncode_full (h.holds.full hfull) h.holds.encodes share.1 share.2
    exact h.beyond hfull hsame (advance_extends p share)

def shares : Step → List (ℕ × ℕ)
  | .equiprobable n t =>
    if n ≥ 0x400000 then
      [rangeEquiprobableRange (1 + n / 0x10000 : ℕ) (t / 0x10000 : ℕ),
        rangeEquiprobableRange (0x10000 : ℕ) (t % 0x10000 : ℕ)]
    else [rangeEquiprobableRange n t]
  | .symbol frequencies n t => [(symbolLow frequencies t, symbolHigh frequencies n t)]

theorem equiprobable_shares {n t : ℕ} (hn : n < 0x400000) (ht : t < n) :
    Share (rangeEquiprobableRange n t).1 (rangeEquiprobableRange n t).2 := by
  rw [rangeEquiprobableRange_eq n t hn ht]
  exact equiprobable_share n t hn ht

theorem Reaches.encodeEquiprobable {p : Phase} {c : RangeCoder} (h : Reaches limit p c)
    (hp : Normal 30 p) {n t : ℕ} (hn : n < 0x400000) (ht : t < n) :
    Reaches limit (advance p (rangeEquiprobableRange n t)) (encodeEquiprobable c n t).2 ∧
      Normal 30 (advance p (rangeEquiprobableRange n t)) := by
  have hs := equiprobable_shares hn ht
  rw [encodeEquiprobable_eq c n t (by omega)]
  exact ⟨h.rangeEncode hp hs, advance_normal hp hs⟩

theorem Reaches.rangeEncodeEquiprobable {p : Phase} {c : RangeCoder}
    (h : Reaches limit p c) (hp : Normal 30 p) {n t : ℕ} (hn : n < 0x80000000) (ht : t < n) :
    Reaches limit ((shares (.equiprobable n t)).foldl advance p)
      (rangeEncodeEquiprobable c n t).2 ∧
      Normal 30 ((shares (.equiprobable n t)).foldl advance p) := by
  rw [shares]
  by_cases hlarge : n ≥ 0x400000
  · obtain ⟨hfirst, hp'⟩ :=
      h.encodeEquiprobable hp (n := 1 + n / 0x10000) (t := t / 0x10000) (by omega) (by omega)
    rw [if_pos hlarge, (components_of_eq (rangeEncodeEquiprobable_split c n t hlarge)).2,
      List.foldl_cons, List.foldl_cons, List.foldl_nil]
    exact hfirst.encodeEquiprobable hp' (by omega) (by omega)
  · have hsmall : Arithmetic.rangeEncodeEquiprobable c n t =
      Arithmetic.encodeEquiprobable c n t := by
      rw [Arithmetic.rangeEncodeEquiprobable, if_neg (by omega)]
    rw [if_neg hlarge, hsmall, List.foldl_cons, List.foldl_nil]
    exact h.encodeEquiprobable hp (by omega) ht

theorem Reaches.rangeEncodeSymbol {p : Phase} {c : RangeCoder}
    (h : Reaches limit p c) (hp : Normal 30 p)
    {frequencies : List ℕ} {n t : ℕ} (hf : Cumulative frequencies n) (ht : t < n) :
    Reaches limit (advance p (symbolLow frequencies t, symbolHigh frequencies n t))
      (rangeEncodeSymbol c frequencies n t).2 := by
  rw [Arithmetic.rangeEncodeSymbol]
  by_cases herror : c.errors ≠ 0
  · rw [if_pos herror]
    have hfull : limit < p.out.length := Nat.lt_of_not_le fun hroom =>
      herror (h.inside hroom).1.errorless
    exact h.beyond hfull (Untouched.refl c) (advance_extends _ _)
  · rw [if_neg herror]
    exact h.rangeEncode hp (symbol_share frequencies n t hf ht)

/-- One symbol: its shares one after the other. -/
theorem Reaches.encode {p : Phase} {c : RangeCoder} (h : Reaches limit p c)
    (hp : Normal 30 p) {step : Step}
    (hstep : step.Valid) : Reaches limit ((shares step).foldl advance p) (step.encode c).2 ∧
      Normal 30 ((shares step).foldl advance p) := by
  cases step with
  | equiprobable n t => exact h.rangeEncodeEquiprobable hp hstep.2 hstep.1
  | symbol frequencies n t =>
    exact ⟨h.rangeEncodeSymbol hp hstep.2 hstep.1,
      advance_normal hp (symbol_share frequencies n t hstep.2 hstep.1)⟩

def interval (p : Phase) (steps : List Step) : Phase := (steps.flatMap shares).foldl advance p

theorem interval_cons (p : Phase) (step : Step) (rest : List Step) :
    interval p (step :: rest) = interval ((shares step).foldl advance p) rest := by
  rw [interval, List.flatMap_cons, List.foldl_append]
  rfl

/-- The run lemma: a phase for each symbol. -/
theorem Reaches.encodeSteps {steps : List Step} (hvalid : ∀ step ∈ steps, step.Valid)
    {p : Phase} {c : RangeCoder} (h : Reaches limit p c) (hp : Normal 30 p) :
    Reaches limit (interval p steps) (encodeSteps steps c) ∧ Normal 30 (interval p steps) := by
  induction steps generalizing p c with
  | nil => exact ⟨h, hp⟩
  | cons step rest ih =>
    obtain ⟨hfirst, hp'⟩ := h.encode hp (hvalid step (List.mem_cons_self ..))
    rw [interval_cons]
    exact ih (fun x hx => hvalid x (List.mem_cons_of_mem _ hx)) hfirst hp'

def fresh : Phase := ⟨0, 0xffffffff, 0, []⟩

theorem rangeNewCoder_reaches (buffer : List UInt8) :
    Reaches (8 * buffer.length) fresh (rangeNewCoder buffer) := by
  obtain ⟨hc, hphase⟩ := rangeNewCoder_encoding buffer
  exact ⟨⟨rfl, rfl, hc.stream, rfl, List.take_nil.symm⟩, fun _ => ⟨hc, hphase⟩⟩

end Symbols

end Succinct.RangeRoom
