import Succinct.TextModels

/-!
utf8toutf16 and utf16toutf8 of forms/unicode.c on arbitrary bytes. A lead byte says how
many bytes are taken; what stands in the bytes behind it is not tested.
-/
namespace Succinct.UnicodeForms

open TextModels

def utf16toutf8Loop : List ℕ → List UInt8 → ℤ × List UInt8
  | [], out => (0, out)
  | codepoint :: rest, out =>
    if codepoint < 0x80 then
      if out.length > 1023 then (-1, out) else utf16toutf8Loop rest (out ++ [codepoint.toUInt8])
    else if codepoint < 0x0800 then
      if out.length > 1022 then (-1, out)
      else utf16toutf8Loop rest
        (out ++ [(0xc0 + codepoint / 0x40).toUInt8, (0x80 + codepoint % 0x40).toUInt8])
    else if out.length > 1021 then (-1, out)
    else utf16toutf8Loop rest (out ++
      [(0xe0 + codepoint / 0x1000).toUInt8, (0x80 + codepoint / 0x40 % 0x40).toUInt8,
        (0x80 + codepoint % 0x40).toUInt8])

def utf16toutf8 (s : List ℕ) : ℤ × List UInt8 := utf16toutf8Loop s []

theorem utf16toutf8_snd (s : List ℕ) : (utf16toutf8 s).2 = TextModels.utf16toutf8 s := by
  have hloop : ∀ out, (utf16toutf8Loop s out).2 = TextModels.utf16toutf8Loop s out := by
    induction s with
    | nil => intro out; rfl
    | cons codepoint rest ih =>
      intro out
      rw [utf16toutf8Loop, TextModels.utf16toutf8Loop]
      split_ifs
      · rfl
      · exact ih _
      · rfl
      · exact ih _
      · rfl
      · exact ih _
  exact hloop []

def unit₂ (b c : UInt8) : ℕ := b.toNat % 0x20 * 0x40 + c.toNat % 0x40

def unit₃ (b c d : UInt8) : ℕ := b.toNat % 0x10 * 0x1000 + c.toNat % 0x40 * 0x40 + d.toNat % 0x40

def Continuation (b : UInt8) : Prop := b.toNat / 0x40 = 2

/-- Complete sequences of one to three bytes, each of them the shortest form. -/
inductive ShortestForms : List UInt8 → Prop where
  | nil : ShortestForms []
  | one {b : UInt8} {rest : List UInt8} (hb : b.toNat < 0x80) (hrest : ShortestForms rest) :
    ShortestForms (b :: rest)
  | two {b c : UInt8} {rest : List UInt8} (hb : b.toNat / 0x20 = 6) (hc : Continuation c)
    (hshort : 0x80 ≤ unit₂ b c)
      (hrest : ShortestForms rest) : ShortestForms (b :: c :: rest)
  | three {b c d : UInt8} {rest : List UInt8} (hb : b.toNat / 0x10 = 14) (hc : Continuation c)
    (hd : Continuation d)
      (hshort : 0x800 ≤ unit₃ b c d) (hrest : ShortestForms rest) :
        ShortestForms (b :: c :: d :: rest)

/-- In steps of what the lead bytes announce, there comes a byte that is no lead byte, or
the lead byte of three at the very end. -/
inductive Refused : List UInt8 → Prop where
  | continuation {b : UInt8} {rest : List UInt8} (hb : Continuation b) : Refused (b :: rest)
  | large {b : UInt8} {rest : List UInt8} (hb : 0xf8 ≤ b.toNat) : Refused (b :: rest)
  | cut {b : UInt8} (hlow : 0xe0 ≤ b.toNat) (hhigh : b.toNat < 0xf8) : Refused [b]
  | one {b : UInt8} {rest : List UInt8} (hb : b.toNat < 0x80) (hrest : Refused rest) :
    Refused (b :: rest)
  | two {b c : UInt8} {rest : List UInt8} (hlow : 0xc0 ≤ b.toNat) (hhigh : b.toNat < 0xe0)
    (hrest : Refused rest) :
      Refused (b :: c :: rest)
  | three {b c d : UInt8} {rest : List UInt8} (hlow : 0xe0 ≤ b.toNat) (hhigh : b.toNat < 0xf8)
    (hrest : Refused rest) :
      Refused (b :: c :: d :: rest)

section Loop

theorem byteAt_append (before rest : List UInt8) (k : ℕ) :
    byteAt (before ++ rest) (before.length + k) = (rest.getD k 0).toNat := by
  rw [byteAt, List.getD_append_right _ _ _ _ (Nat.le_add_right _ _), Nat.add_sub_cancel_left]

def loopOn (rest after : List UInt8) (fuel : ℕ) : Option (List ℕ) :=
  utf8toutf16Loop (rest ++ after) rest.length fuel 0

theorem utf8toutf16Loop_shift (before rest : List UInt8) (len fuel i : ℕ) :
    utf8toutf16Loop (before ++ rest) (before.length + len) fuel (before.length + i) =
      utf8toutf16Loop rest len fuel i := by
  induction fuel generalizing i with
  | zero => rfl
  | succ fuel ih =>
    have hbyte := fun k => byteAt_append before rest k
    have hself : ∀ k, (rest.getD k 0).toNat = byteAt rest k := fun k => rfl
    have hsub : before.length + len - (before.length + i) = len - i := Nat.add_sub_add_left _ _ _
    have hle : before.length + len ≤ before.length + i ↔ len ≤ i := Nat.add_le_add_iff_left
    have hnext : ∀ k, before.length + i + k = before.length + (i + k) := fun k =>
      Nat.add_assoc _ _ _
    unfold utf8toutf16Loop
    simp only [hle, hsub, hnext, hbyte, hself, ih]

/-- The bytes that were taken are left behind. -/
theorem loop_behind (before rest after : List UInt8) (fuel : ℕ) :
    utf8toutf16Loop (before ++ rest ++ after) (before ++ rest).length fuel before.length =
      loopOn rest after fuel := by
  rw [List.length_append, List.append_assoc]
  exact utf8toutf16Loop_shift before (rest ++ after) rest.length fuel 0

theorem loopOn_nil (after : List UInt8) (fuel : ℕ) : loopOn [] after fuel = some [] := by
  cases fuel with
  | zero => rfl
  | succ fuel => rfl

section Steps

variable {b c d : UInt8} (rest after : List UInt8) (fuel : ℕ)

theorem loopOn_continuation (hb : Continuation b) :
    loopOn (b :: rest) after (fuel + 1) = none := by
  unfold loopOn utf8toutf16Loop
  rw [if_neg (by simp)]
  exact if_pos hb

theorem loopOn_large (hb : 0xf8 ≤ b.toNat) : loopOn (b :: rest) after (fuel + 1) = none := by
  have hlt := b.toNat_lt
  have hbyte : byteAt (b :: rest ++ after) 0 = b.toNat := rfl
  unfold loopOn utf8toutf16Loop
  dsimp only
  rw [hbyte, if_neg (by simp), if_neg (by omega), if_neg (by omega),
    if_neg (by omega), if_neg (by omega)]

theorem loopOn_cut (hlow : 0xe0 ≤ b.toNat) (hhigh : b.toNat < 0xf8) :
    loopOn [b] after (fuel + 1) = none := by
  have hbyte : byteAt ([b] ++ after) 0 = b.toNat := rfl
  unfold loopOn utf8toutf16Loop
  dsimp only
  rw [hbyte, if_neg (by simp), if_neg (by omega), if_neg (by omega),
    if_neg (by omega), if_pos hhigh]
  rfl

theorem loopOn_one (hb : b.toNat < 0x80) :
    loopOn (b :: rest) after (fuel + 1) = (loopOn rest after fuel).map (b.toNat :: ·) := by
  have hbyte : byteAt (b :: rest ++ after) 0 = b.toNat := rfl
  rw [← loop_behind [b] rest after fuel, loopOn, utf8toutf16Loop]
  dsimp only
  rw [hbyte, if_neg (by simp), if_neg (by omega), if_pos (by omega)]
  rfl

theorem loopOn_two (hlow : 0xc0 ≤ b.toNat) (hhigh : b.toNat < 0xe0) :
    loopOn (b :: c :: rest) after (fuel + 1) = (loopOn rest after fuel).map (unit₂ b c :: ·) := by
  have hbyte : byteAt (b :: c :: rest ++ after) 0 = b.toNat := rfl
  rw [← loop_behind [b, c] rest after fuel, loopOn, utf8toutf16Loop]
  dsimp only
  rw [hbyte, if_neg (by simp), if_neg (by omega), if_neg (by omega), if_pos hhigh]
  rfl

theorem loopOn_three (hlow : 0xe0 ≤ b.toNat) (hhigh : b.toNat < 0xf8) :
    loopOn (b :: c :: d :: rest) after (fuel + 1) =
      (loopOn rest after fuel).map (unit₃ b c d :: ·) := by
  have hbyte : byteAt (b :: c :: d :: rest ++ after) 0 = b.toNat := rfl
  rw [← loop_behind [b, c, d] rest after fuel, loopOn, utf8toutf16Loop]
  dsimp only
  rw [hbyte, if_neg (by simp), if_neg (by omega), if_neg (by omega),
    if_neg (by omega), if_pos hhigh, if_neg (by simp)]
  rfl

end Steps

/-- Fuel for a text that is not empty pays for one step. -/
theorem fuel_succ {b : UInt8} {l : List UInt8} {fuel : ℕ} (h : (b :: l).length ≤ fuel) :
    ∃ k, fuel = k + 1 :=
  Nat.exists_eq_add_of_le' (Nat.le_trans (Nat.le_add_left 1 l.length) h)

theorem Refused.loopOn {l : List UInt8} (h : Refused l) (after : List UInt8) (fuel : ℕ)
    (hfuel : l.length ≤ fuel) :
    loopOn l after fuel = none := by
  induction h generalizing fuel with
  | continuation hb =>
    obtain ⟨fuel, rfl⟩ := fuel_succ hfuel
    exact loopOn_continuation _ after fuel hb
  | large hb =>
    obtain ⟨fuel, rfl⟩ := fuel_succ hfuel
    exact loopOn_large _ after fuel hb
  | cut hlow hhigh =>
    obtain ⟨fuel, rfl⟩ := fuel_succ hfuel
    exact loopOn_cut after fuel hlow hhigh
  | one hb _ ih =>
    obtain ⟨fuel, rfl⟩ := fuel_succ hfuel
    rw [List.length_cons] at hfuel
    rw [loopOn_one _ after fuel hb, ih fuel (by omega)]
    rfl
  | two hlow hhigh _ ih =>
    obtain ⟨fuel, rfl⟩ := fuel_succ hfuel
    rw [List.length_cons, List.length_cons] at hfuel
    rw [loopOn_two _ after fuel hlow hhigh, ih fuel (by omega)]
    rfl
  | three hlow hhigh _ ih =>
    obtain ⟨fuel, rfl⟩ := fuel_succ hfuel
    rw [List.length_cons, List.length_cons, List.length_cons] at hfuel
    rw [loopOn_three _ after fuel hlow hhigh, ih fuel (by omega)]
    rfl

/-- A lead byte whose sequence goes on behind the end. -/
theorem loopOn_overrun {b : UInt8} {l : List UInt8} (hlow : 0xc0 ≤ b.toNat)
    (hhigh : b.toNat < 0xf8)
    (hlength : l = [] ∧ b.toNat < 0xe0 ∨ l.length = 1 ∧ 0xe0 ≤ b.toNat)
    (after : List UInt8) (fuel : ℕ) :
    loopOn (b :: l) after (fuel + 1) ≠ none := by
  have hend : ∀ (m : List UInt8) (len i : ℕ), len ≤ i →
    utf8toutf16Loop m len fuel i = some [] := by
    intro m len i hle
    cases fuel with
    | zero => rfl
    | succ fuel => rw [utf8toutf16Loop, if_pos hle]
  have hbyte : byteAt (b :: l ++ after) 0 = b.toNat := rfl
  rw [loopOn, utf8toutf16Loop]
  dsimp only
  rw [hbyte, if_neg (by simp), if_neg (by omega), if_neg (by omega)]
  rcases hlength with ⟨rfl, hshort⟩ | ⟨hlength, hlong⟩
  · rw [if_pos hshort, hend _ _ _ (by simp)]
    exact Option.some_ne_none _
  · rw [if_neg (by omega), if_pos hhigh, List.length_cons, hlength, if_neg (by omega),
      hend _ _ _ (by omega)]
    exact Option.some_ne_none _

/-- What is not refused is taken, whatever stands in memory behind it. -/
theorem loopOn_of_not_refused (l after : List UInt8) (h : ¬ Refused l) (fuel : ℕ)
    (hfuel : l.length ≤ fuel) :
    loopOn l after fuel ≠ none := by
  match l with
  | [] => rw [loopOn_nil]; exact Option.some_ne_none _
  | b :: rest =>
    obtain ⟨fuel, rfl⟩ := fuel_succ hfuel
    rw [List.length_cons] at hfuel
    have hlead : ¬ Continuation b := fun hb => h (.continuation hb)
    have hsmall : b.toNat < 0xf8 := not_le.mp fun hb => h (.large hb)
    rw [Continuation] at hlead
    rcases Nat.lt_or_ge b.toNat 0x80 with hone | hmore
    · rw [loopOn_one rest after fuel hone, ne_eq, Option.map_eq_none_iff]
      exact loopOn_of_not_refused rest after (fun hrest => h (.one hone hrest)) fuel (by omega)
    · rcases Nat.lt_or_ge b.toNat 0xe0 with htwo | hthree
      · match rest with
        | [] => exact loopOn_overrun (by omega) hsmall (Or.inl ⟨rfl, htwo⟩) after fuel
        | c :: rest =>
          rw [List.length_cons] at hfuel
          rw [loopOn_two rest after fuel (by omega) htwo, ne_eq, Option.map_eq_none_iff]
          exact loopOn_of_not_refused rest after (fun hrest =>
            h (.two (by omega) htwo hrest)) fuel (by omega)
      · match rest with
        | [] => exact absurd (Refused.cut hthree hsmall) h
        | [c] => exact loopOn_overrun (by omega) hsmall (Or.inr ⟨rfl, hthree⟩) after fuel
        | c :: d :: rest =>
          rw [List.length_cons, List.length_cons] at hfuel
          rw [loopOn_three rest after fuel hthree hsmall, ne_eq, Option.map_eq_none_iff]
          exact loopOn_of_not_refused rest after (fun hrest =>
            h (.three hthree hsmall hrest)) fuel (by omega)

end Loop

theorem toUInt8_of_eq {n : ℕ} {b : UInt8} (h : n = b.toNat) : n.toUInt8 = b := by
  rw [h]
  exact UInt8.ofNat_toNat

/-- The bytes of a sequence are written again. -/
theorem utf16toutf8Loop_two {b c : UInt8} (hb : b.toNat / 0x20 = 6) (hc : Continuation c)
    (hshort : 0x80 ≤ unit₂ b c) (s : List ℕ) {out : List UInt8} (hout : out.length ≤ 1022) :
    utf16toutf8Loop (unit₂ b c :: s) out = utf16toutf8Loop s (out ++ [b, c]) := by
  have hlt := b.toNat_lt
  rw [Continuation] at hc
  rw [unit₂] at hshort ⊢
  have hfirst : (0xc0 + (b.toNat % 0x20 * 0x40 + c.toNat % 0x40) / 0x40).toUInt8 = b :=
    toUInt8_of_eq (by omega)
  have hsecond : (0x80 + (b.toNat % 0x20 * 0x40 + c.toNat % 0x40) % 0x40).toUInt8 = c :=
    toUInt8_of_eq (by omega)
  rw [utf16toutf8Loop, if_neg (by omega), if_pos (by omega), if_neg (by omega), hfirst, hsecond]

theorem utf16toutf8Loop_three {b c d : UInt8} (hb : b.toNat / 0x10 = 14) (hc : Continuation c)
    (hd : Continuation d)
    (hshort : 0x800 ≤ unit₃ b c d) (s : List ℕ) {out : List UInt8} (hout : out.length ≤ 1021) :
    utf16toutf8Loop (unit₃ b c d :: s) out = utf16toutf8Loop s (out ++ [b, c, d]) := by
  rw [Continuation] at hc hd
  rw [unit₃] at hshort ⊢
  generalize hunit : b.toNat % 0x10 * 0x1000 + c.toNat % 0x40 * 0x40 +
    d.toNat % 0x40 = unit at hshort ⊢
  have hfirst : (0xe0 + unit / 0x1000).toUInt8 = b := toUInt8_of_eq (by omega)
  have hsecond : (0x80 + unit / 0x40 % 0x40).toUInt8 = c := toUInt8_of_eq (by omega)
  have hthird : (0x80 + unit % 0x40).toUInt8 = d := toUInt8_of_eq (by omega)
  rw [utf16toutf8Loop, if_neg (by omega), if_neg (by omega), if_neg (by omega),
    hfirst, hsecond, hthird]

/-- Shortest forms are taken, and given back. -/
theorem ShortestForms.loopOn {l : List UInt8} (h : ShortestForms l) :
    ∃ s, (∀ after fuel, l.length ≤ fuel → loopOn l after fuel = some s) ∧
      ∀ out : List UInt8, out.length + l.length ≤ 1023 →
      utf16toutf8Loop s out = (0, out ++ l) := by
  induction h with
  | nil =>
    exact ⟨[], fun after fuel _ =>
      loopOn_nil after fuel, fun out _ => by rw [utf16toutf8Loop, List.append_nil]⟩
  | @one b rest hb _ ih =>
    obtain ⟨s, hs, hback⟩ := ih
    refine ⟨b.toNat :: s, ?_, ?_⟩
    · intro after fuel hfuel
      obtain ⟨fuel, rfl⟩ := fuel_succ hfuel
      rw [List.length_cons] at hfuel
      rw [loopOn_one rest after fuel hb, hs after fuel (by omega)]
      rfl
    · intro out hout
      rw [List.length_cons] at hout
      rw [utf16toutf8Loop, if_pos hb, if_neg (by omega), toUInt8_of_eq rfl,
        hback _ (by simp; omega), List.append_assoc]
      rfl
  | @two b c rest hb hc hshort _ ih =>
    obtain ⟨s, hs, hback⟩ := ih
    refine ⟨unit₂ b c :: s, ?_, ?_⟩
    · intro after fuel hfuel
      obtain ⟨fuel, rfl⟩ := fuel_succ hfuel
      rw [List.length_cons, List.length_cons] at hfuel
      rw [loopOn_two rest after fuel (by omega) (by omega), hs after fuel (by omega)]
      rfl
    · intro out hout
      rw [List.length_cons, List.length_cons] at hout
      rw [utf16toutf8Loop_two hb hc hshort s (by omega),
        hback _ (by simp; omega), List.append_assoc]
      rfl
  | @three b c d rest hb hc hd hshort _ ih =>
    obtain ⟨s, hs, hback⟩ := ih
    refine ⟨unit₃ b c d :: s, ?_, ?_⟩
    · intro after fuel hfuel
      obtain ⟨fuel, rfl⟩ := fuel_succ hfuel
      rw [List.length_cons, List.length_cons, List.length_cons] at hfuel
      rw [loopOn_three rest after fuel (by omega) (by omega), hs after fuel (by omega)]
      rfl
    · intro out hout
      rw [List.length_cons, List.length_cons, List.length_cons] at hout
      rw [utf16toutf8Loop_three hb hc hd hshort s (by omega),
        hback _ (by simp; omega), List.append_assoc]
      rfl

/-- The conversion of the first bytes in memory: exactly the shortest forms are taken,
the bytes behind make no difference, and the bytes come back. -/
structure Exact (input : List UInt8) : Prop where
  accepts_iff : ∀ after, utf8toutf16 (input ++ after) input.length ≠ none ↔ ShortestForms input
  apart : ∀ after after', utf8toutf16 (input ++ after) input.length =
    utf8toutf16 (input ++ after') input.length
  back : ShortestForms input → ∀ after s, utf8toutf16 (input ++ after) input.length = some s →
    utf16toutf8 s = (0, input)

theorem unicode_exact_iff (input : List UInt8) (hlength : input.length ≤ 1023) :
    Exact input ↔ ShortestForms input ∨ Refused input := by
  have hloop : ∀ after, utf8toutf16 (input ++ after) input.length =
    loopOn input after input.length := fun _ => rfl
  constructor
  · intro h
    by_contra hneither
    obtain ⟨hnot, htaken⟩ := not_or.mp hneither
    refine hnot ((h.accepts_iff []).mp ?_)
    rw [hloop]
    exact loopOn_of_not_refused input [] htaken input.length le_rfl
  · rintro (hforms | hrefused)
    · obtain ⟨s, hs, hback⟩ := hforms.loopOn
      have hsome : ∀ after, utf8toutf16 (input ++ after) input.length = some s :=
        fun after => hs after _ le_rfl
      refine ⟨?_, ?_, ?_⟩
      · intro after
        rw [hsome]
        exact iff_of_true (Option.some_ne_none s) hforms
      · intro after after'
        rw [hsome, hsome]
      · intro _ after s' hs'
        rw [hsome] at hs'
        obtain rfl := Option.some.inj hs'
        exact hback [] (by simpa using hlength)
    · have hnone : ∀ after, utf8toutf16 (input ++ after) input.length = none :=
        fun after => hrefused.loopOn after _ le_rfl
      have hnot : ¬ ShortestForms input := by
        intro hforms
        obtain ⟨s, hs, -⟩ := hforms.loopOn
        have hsome := hs [] input.length le_rfl
        rw [← hloop, hnone] at hsome
        cases hsome
      refine ⟨?_, ?_, fun hforms => absurd hforms hnot⟩
      · intro after
        rw [hnone]
        exact iff_of_false (fun h => h rfl) hnot
      · intro after after'
        rw [hnone, hnone]

theorem unicode_exact_iff_umlaut : Exact [0xc3, 0xa4] ↔ ShortestForms [0xc3, 0xa4] ∨
    Refused [0xc3, 0xa4] :=
  unicode_exact_iff [0xc3, 0xa4] (by decide)

/-- A lead byte of two at the end takes a byte from behind the text. -/
theorem overrun_not_exact : ¬ ∀ input : List UInt8, input.length ≤ 1023 → Exact input := by
  intro h
  have hexact := h [0xc3] (by decide)
  exact absurd (hexact.apart [0x80] [0x81]) (by decide)

end Succinct.UnicodeForms
