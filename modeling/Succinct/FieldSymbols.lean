import Succinct.FieldEncoding
import Mathlib.Algebra.Order.Round
import Mathlib.Data.Rat.Floor

/-!
What the fields of a recipe are encoded as, compared with what a decoder has to
rely on: an integer with its escape, a decimal with its precision, and a choice of
several options.
-/
namespace Succinct.FieldSymbols

open RangeMessages TextModels CStrings Recipes FieldEncoding

def packedBits (h : Stats) (m : CString) (len : ℕ) : ℕ :=
  if (stats3CompressRadixAppend h m len).1 ≠ 0 then 999999
    else trialBits (stats3CompressRadixAppend h m len).2

def ModelWins (h : Stats) (m : CString) (len : ℕ) : Prop :=
  trialBits (stats3CompressModel1Append h m len).2 < packedBits h m len

instance decidableModelWins (h : Stats) (m : CString) (len : ℕ) : Decidable (ModelWins h m len) :=
  inferInstanceAs (Decidable (_ < _))

/-- There are two candidates only. -/
theorem append_eq (h : Stats) (m : CString) (len : ℕ) : stats3CompressAppend h m len =
    if ModelWins h m len then stats3CompressModel1Append h m len
      else stats3CompressRadixAppend h m len := by
  have hsmall := TextRoundTrip.trialBits_le (stats3CompressModel1Append h m len).2
  unfold stats3CompressAppend
  dsimp only
  rw [← packedBits]
  by_cases hwins : ModelWins h m len
  · rw [if_pos hwins, if_pos ⟨hwins, by omega⟩]
  · have hpacked : packedBits h m len ≤ trialBits (stats3CompressModel1Append h m len).2 :=
      not_lt.mp hwins
    rw [if_neg hwins, if_neg (fun hboth => hwins hboth.1), if_pos (Or.inl (by omega))]

theorem radix_of_not_wins {h : Stats} {m : CString} {len : ℕ} (hwins : ¬ModelWins h m len) :
    (encodePackedASCII m).1 = 0 := by
  by_contra hne
  have hsmall := TextRoundTrip.trialBits_le (stats3CompressModel1Append h m len).2
  apply hwins
  rw [ModelWins, packedBits, if_pos (show (stats3CompressRadixAppend h m len).1 ≠ 0 from hne)]
  omega

section Integers

/-- An ordinary value is one symbol; any other value is text behind the symbol that
is left over. -/
def integerCalls (field : Field) (stats : Stats) (value : CString) (v : ℤ) : List Call :=
  if field.minimum ≤ v ∧ v ≤ field.maximum then
    [.equiprobable (field.maximum - field.minimum + 2) (v - field.minimum)]
  else .equiprobable (field.maximum - field.minimum + 2) (field.maximum - field.minimum + 1) ::
    (compressText stats value value.length).2

/-- No model of texts is without symbols on ASCII. -/
theorem compressText_ne_nil (stats : Stats) (value : CString)
    (hascii : TextRoundTrip.Ascii value) :
    (compressText stats value value.length).2 ≠ [] := by
  rw [compressText, append_eq]
  simp only [ne_eq, List.map_eq_nil_iff]
  by_cases hwins : ModelWins stats value value.length
  · rw [if_pos hwins, stats3CompressModel1Append, TextRoundTrip.utf8toutf16_ascii hascii]
    simp
  · rw [if_neg hwins]
    simp [stats3CompressRadixAppend]

theorem ascii_of_all {value : CString}
    (h : (value.all fun b => decide (0 < b.toNat ∧ b.toNat < 0x80)) = true) :
    TextRoundTrip.Ascii value :=
  fun b hb => of_decide_eq_true (List.all_eq_true.mp h b hb)

theorem ascii_of_decimal {value : CString} {v : ℤ} (h : Decimal value v) :
    TextRoundTrip.Ascii value := by
  obtain ⟨-, hdigits, -⟩ := h
  have hdigit : ∀ b : UInt8, isdigit b = true → 0 < b.toNat ∧ b.toNat < 0x80 := by
    intro b hb
    rw [isdigit, decide_eq_true_eq, UInt8.le_iff_toNat_le, UInt8.le_iff_toNat_le] at hb
    have hlow : (48 : UInt8).toNat = 48 := rfl
    have hhigh : (57 : UInt8).toNat = 57 := rfl
    omega
  intro b hb
  unfold takeSign at hdigits
  split at hdigits
  · rcases List.mem_cons.mp hb with rfl | hb
    · decide
    · exact hdigit b (hdigits b hb)
  · rcases List.mem_cons.mp hb with rfl | hb
    · decide
    · exact hdigit b (hdigits b hb)
  · exact hdigit b (hdigits b hb)

/-- An integer is encoded as a decoder expects it, but for the number behind the
maximum: its symbol is the one that announces a text, and no text follows. -/
theorem integer_calls_iff (env : Environment) (field : Field) (htype : field.type = .integer)
    (hrange : field.minimum < field.maximum) (stats : Stats) (value : CString)
    (v : ℤ) (hv : IsInt v) (htext : Decimal value v) (hnormalised : IsInt (v - field.minimum))
    (hsize : IsInt (field.maximum - field.minimum + 2)) :
    (recipeEncodeField env field stats value).calls = integerCalls field stats value v ↔
      v ≠ field.maximum + 1 := by
  have hatoi : atoi value = v := atoi_decimal htext hv
  obtain ⟨hsizeLow, hsizeHigh⟩ := hsize
  have hescape : IsInt (field.maximum - field.minimum + 1) := ⟨by omega, by omega⟩
  simp only [recipeEncodeField, htype, encodeInteger, hatoi]
  rw [int32_eq hnormalised, int32_eq hescape, int32_eq ⟨hsizeLow, hsizeHigh⟩,
    if_neg (by omega), integerCalls]
  by_cases hinside : field.minimum ≤ v ∧ v ≤ field.maximum
  · rw [if_neg (by omega), if_pos hinside]
    simp only [true_iff]
    omega
  · rw [if_neg hinside]
    by_cases hnext : v = field.maximum + 1
    · -- the test of the range lets this number through
      rw [if_neg (by omega)]
      have hnonempty := compressText_ne_nil stats value (ascii_of_decimal htext)
      simp [hnext, hnonempty.symm]
    · rw [if_pos (by omega)]
      simp only [true_iff]
      exact hnext

def digitField : Field := ⟨text "n", .integer, 0, 9, 0, []⟩

def plainEnvironment : Environment := ⟨fun _ => (false, 0, 0), fun _ => none, fun _ => 0, 0⟩

theorem integer_calls_iff_five :
    (recipeEncodeField plainEnvironment digitField TextRoundTrip.evenStats (text "5")).calls =
      integerCalls digitField TextRoundTrip.evenStats (text "5") 5 :=
  (integer_calls_iff plainEnvironment digitField rfl
    (by decide) TextRoundTrip.evenStats (text "5") 5
    ⟨by decide, by decide⟩ ⟨by decide, List.all_eq_true.mp rfl, by decide⟩ ⟨by decide, by decide⟩
    ⟨by decide, by decide⟩).mpr (by decide)

/-- The escape alone, for 10. -/
theorem integer_escape_without_text : ¬ ∀ (env : Environment) (field : Field)
    (stats : Stats) (value : CString)
    (v : ℤ), field.type = .integer → field.minimum < field.maximum → IsInt v → Decimal value v →
      IsInt (v - field.minimum) → IsInt (field.maximum - field.minimum + 2) →
      (recipeEncodeField env field stats value).calls = integerCalls field stats value v := by
  intro h
  have hbad :=
    h plainEnvironment digitField TextRoundTrip.evenStats (text "10") 10 rfl (by decide)
    ⟨by decide, by decide⟩ ⟨by decide, List.all_eq_true.mp rfl, by decide⟩ ⟨by decide, by decide⟩
      ⟨by decide, by decide⟩
  have hcalls : (recipeEncodeField plainEnvironment digitField TextRoundTrip.evenStats
    (text "10")).calls =
      [.equiprobable 11 10] := by decide +kernel
  have hnonempty := compressText_ne_nil TextRoundTrip.evenStats (text "10") (ascii_of_all rfl)
  rw [hbad, integerCalls, if_neg (by decide)] at hcalls
  exact hnonempty (List.cons.inj hcalls).2

end Integers

section Decimals

def decimalValue (s : CString) : Option ℚ :=
  let (negative, rest) := takeSign s
  let whole := rest.takeWhile isdigit
  let behind := rest.dropWhile isdigit
  let fraction := behind.tail
  if whole = [] then none
  else if behind ≠ [] ∧ (behind.head? ≠ some 46 ∨ fraction = [] ∨ ¬ fraction.all isdigit)
    then none
  else
    let q : ℚ := digitsValue whole + digitsValue fraction / 10 ^ fraction.length
    some (if negative then -q else q)

def scaled (field : Field) (x : ℚ) : ℤ := round (x * 10 ^ field.precision)

/-- Values within the bounds that differ to the precision of the field are encoded
differently. -/
def KeepsValues (env : Environment) (field : Field) (stats : Stats) : Prop :=
  ∀ a b x y, decimalValue a = some x → decimalValue b = some y →
    field.minimum ≤ x ∧ x ≤ field.maximum → field.minimum ≤ y ∧ y ≤ field.maximum →
    scaled field x ≠ scaled field y →
    (recipeEncodeField env field stats a).calls ≠ (recipeEncodeField env field stats b).calls

theorem scaled_mono (field : Field) {x y : ℚ} (h : x ≤ y) : scaled field x ≤ scaled field y := by
  have hpos : (0 : ℚ) ≤ 10 ^ field.precision := zpow_nonneg (by norm_num) _
  have hle : x * 10 ^ field.precision ≤ y * 10 ^ field.precision :=
    mul_le_mul_of_nonneg_right h hpos
  rw [scaled, scaled, round_eq, round_eq]
  exact Int.floor_le_floor (by linarith)

theorem exists_digits (n : ℕ) : ∃ digits : CString, (∀ b ∈ digits, isdigit b) ∧
    digitsValue digits = n := by
  induction n using Nat.strong_induction_on with
  | h n ih =>
    by_cases hsmall : n = 0
    · exact ⟨[], by simp, hsmall.symm⟩
    · obtain ⟨front, hfront, hvalue⟩ := ih (n / 10) (by omega)
      have hlast : (UInt8.ofNat (48 + n % 10)).toNat = 48 + n % 10 := UInt8.toNat_ofNat_of_lt' (by
        change 48 + n % 10 < 256
        omega)
      refine ⟨front ++ [UInt8.ofNat (48 + n % 10)], ?_, ?_⟩
      · intro b hb
        rcases List.mem_append.mp hb with hb | hb
        · exact hfront b hb
        · obtain rfl := List.mem_singleton.mp hb
          rw [isdigit, decide_eq_true_eq, UInt8.le_iff_toNat_le, UInt8.le_iff_toNat_le, hlast]
          change 48 ≤ _ ∧ _ ≤ 57
          omega
      · rw [digitsValue, List.foldl_append]
        change 10 * digitsValue front + ((UInt8.ofNat (48 + n % 10)).toNat - 48) = n
        rw [hvalue, hlast]
        omega

/-- Every integer has a text that begins with a sign or with 0. -/
theorem exists_text (n : ℤ) : ∃ s, decimalValue s = some (n : ℚ) ∧ recipeParseBoolean s = 0 := by
  obtain ⟨digits, hdigits, hvalue⟩ := exists_digits n.natAbs
  have hall : ∀ b ∈ (48 :: digits : CString), isdigit b = true := by
    intro b hb
    rcases List.mem_cons.mp hb with rfl | hb
    · rfl
    · exact hdigits b hb
  have hzero : digitsValue (48 :: digits) = n.natAbs := hvalue
  have hparts : ∀ negative : Bool,
    takeSign (if negative then 45 :: 48 :: digits else 48 :: digits) =
      (negative, 48 :: digits) := by
    intro negative
    cases negative <;> rfl
  have hdecimal : ∀ negative : Bool,
    decimalValue (if negative then 45 :: 48 :: digits else 48 :: digits) =
      some (if negative then -(n.natAbs : ℚ) else n.natAbs) := by
    intro negative
    rw [decimalValue, hparts]
    simp only
    rw [List.takeWhile_eq_self_iff.mpr hall, List.dropWhile_eq_nil_iff.mpr hall,
      if_neg (List.cons_ne_nil _ _), if_neg (by simp), hzero]
    simp [digitsValue]
  rcases le_or_gt 0 n with hn | hn
  · refine ⟨48 :: digits, (hdecimal false).trans ?_, rfl⟩
    have hcast : (n.natAbs : ℚ) = n := by rw [← Int.cast_natCast, Int.natAbs_of_nonneg hn]
    exact congrArg some hcast
  · refine ⟨45 :: 48 :: digits, (hdecimal true).trans ?_, rfl⟩
    have habs : (n.natAbs : ℤ) = -n := by omega
    have hcast : -(n.natAbs : ℚ) = n := by
      rw [← Int.cast_natCast, habs, Int.cast_neg, neg_neg]
    exact congrArg some hcast

/-- A decimal is encoded as one yes or no, so that it keeps its values only where
there is but one of them to the precision of the field. -/
theorem fixedpoint_keeps_iff (env : Environment) (field : Field)
    (htype : field.type = .fixedpoint) (stats : Stats) :
    KeepsValues env field stats ↔ field.maximum < field.minimum ∨
      scaled field field.minimum = scaled field field.maximum := by
  have hcalls : ∀ s, (recipeEncodeField env field stats s).calls =
    [.equiprobable 2 (recipeParseBoolean s)] := by
    intro s
    rw [recipeEncodeField, htype]
    rfl
  constructor
  · intro hkeeps
    by_contra hne
    obtain ⟨hbounds, hdiffer⟩ := not_or.mp hne
    have hle : (field.minimum : ℚ) ≤ field.maximum := by exact_mod_cast not_lt.mp hbounds
    obtain ⟨a, ha, hfalseA⟩ := exists_text field.minimum
    obtain ⟨b, hb, hfalseB⟩ := exists_text field.maximum
    apply hkeeps a b _ _ ha hb ⟨le_refl _, hle⟩ ⟨hle, le_refl _⟩ hdiffer
    rw [hcalls, hcalls, hfalseA, hfalseB]
  · rintro hholds a b x y - - ⟨hminX, hmaxX⟩ ⟨hminY, hmaxY⟩ hdiffer
    exfalso
    rcases hholds with hempty | hsame
    · have hlt : (field.maximum : ℚ) < field.minimum := by exact_mod_cast hempty
      linarith
    · have hlowX := scaled_mono field hminX
      have hhighX := scaled_mono field hmaxX
      have hlowY := scaled_mono field hminY
      have hhighY := scaled_mono field hmaxY
      apply hdiffer
      omega

theorem fixedpoint_keeps_iff_one :
    KeepsValues plainEnvironment ⟨text "x", .fixedpoint, 3, 3, 2, []⟩
    TextRoundTrip.evenStats :=
  (fixedpoint_keeps_iff plainEnvironment ⟨text "x", .fixedpoint, 3, 3, 2, []⟩ rfl
    TextRoundTrip.evenStats).mpr
    (Or.inr rfl)

/-- 2 and 3 become the same symbol. -/
theorem fixedpoint_loses_values : ¬ ∀ (env : Environment) (name typeName : CString)
    (minimum maximum precision : ℤ)
    (stats : Stats), recipeParseFieldtype typeName = some .fixedpoint →
      KeepsValues env ⟨name, .fixedpoint, minimum, maximum, precision, []⟩ stats := by
  intro h
  have hkeeps :=
    h plainEnvironment (text "x") (text "decimal") 0 999 0 TextRoundTrip.evenStats (by decide)
  have htwo : decimalValue (text "2") = some 2 := by decide +kernel
  have hthree : decimalValue (text "3") = some 3 := by decide +kernel
  refine hkeeps (text "2") (text "3") 2 3 htwo hthree ⟨by norm_num, by norm_num⟩
    ⟨by norm_num, by norm_num⟩ ?_ rfl
  norm_num [scaled]

end Decimals

section Texts

variable {m : CString}

/-- The model of English reads the bytes of the length that it is given. -/
theorem utf8toutf16Loop_take (hascii : TextRoundTrip.Ascii m) (len fuel i : ℕ)
    (hlen : len ≤ m.length)
    (hi : fuel + i = len) : utf8toutf16Loop m len fuel i =
      some (((m.take len).drop i).map UInt8.toNat) := by
  induction fuel generalizing i with
  | zero =>
    rw [utf8toutf16Loop, List.drop_eq_nil_of_le (by rw [List.length_take]; omega)]
    rfl
  | succ fuel ih =>
    have hlt : i < m.length := by omega
    have htake : i < (m.take len).length := by
      rw [List.length_take]
      omega
    have hbyte : byteAt m i = m[i].toNat := by
      rw [byteAt, List.getD_eq_getElem?_getD, List.getElem?_eq_getElem hlt]; rfl
    have hsmall := (hascii _ (List.getElem_mem hlt)).2
    rw [utf8toutf16Loop, if_neg (by omega)]
    simp only
    rw [hbyte, if_neg (by omega), if_pos (by omega), ih (i + 1) (by omega),
      List.drop_eq_getElem_cons htake]
    simp

theorem ascii_take (hascii : TextRoundTrip.Ascii m) (len : ℕ) :
    TextRoundTrip.Ascii (m.take len) :=
  fun b hb => hascii b (List.mem_of_mem_take hb)

theorem model1_take (hascii : TextRoundTrip.Ascii m) (h : Stats) {len : ℕ}
    (hlen : len ≤ m.length) :
    stats3CompressModel1Append h m len = stats3CompressModel1Append h (m.take len) len := by
  have hlength : (m.take len).length = len := by
    rw [List.length_take]
    omega
  have hwhole := utf8toutf16Loop_take hascii len len 0 hlen (Nat.add_zero _)
  have htake := utf8toutf16Loop_take (ascii_take hascii len) len len 0 hlength.ge (Nat.add_zero _)
  rw [List.take_take, Nat.min_self] at htake
  rw [stats3CompressModel1Append, stats3CompressModel1Append, utf8toutf16,
    utf8toutf16, hwhole, htake]

theorem length_encodePackedASCII (h : (encodePackedASCII m).1 = 0) :
    (encodePackedASCII m).2.length = m.length := by
  induction m with
  | nil => rfl
  | cons b rest ih =>
    rw [encodePackedASCII] at h ⊢
    dsimp only at h ⊢
    by_cases hv : Charset.printableCharIdx b.toNat < 0
    · rw [if_pos hv] at h
      cases h
    · rw [if_neg hv] at h
      rw [if_neg hv, List.length_cons, List.length_cons, ih h]

theorem ofStep_injective : Function.Injective Call.ofStep := by
  intro a b h
  cases a <;> cases b <;> simp [Call.ofStep] at h ⊢
  · exact h
  · exact h

/-- The third symbol tells the two models apart. -/
theorem model1_ne_radix (hascii : TextRoundTrip.Ascii m) (h : Stats) (m' : CString) {len : ℕ}
    (hlen : len ≤ m.length) (len' : ℕ) :
    (stats3CompressModel1Append h m len).2 ≠ (stats3CompressRadixAppend h m' len').2 := by
  have hwhole := utf8toutf16Loop_take hascii len len 0 hlen (Nat.add_zero _)
  rw [stats3CompressModel1Append, utf8toutf16, hwhole, stats3CompressRadixAppend]
  simp

/-- Packed ASCII takes no notice of the length: a text that is longer than the field
allows is sent as its beginning is only where packed ASCII loses both times. -/
theorem text_truncation_iff (env : Environment) (field : Field) (htype : field.type = .text)
    (hprecision : 0 < field.precision) (stats : Stats) (value : CString)
    (hascii : TextRoundTrip.Ascii value) :
    (recipeEncodeField env field stats value).calls =
        (recipeEncodeField env { field with precision := 0 } stats
          (value.take field.precision.toNat)).calls ↔
      value.length ≤ field.precision.toNat ∨ (ModelWins stats value field.precision.toNat ∧
        ModelWins stats (value.take field.precision.toNat) field.precision.toNat) := by
  have hlong : (recipeEncodeField env field stats value).calls =
      (stats3CompressAppend stats value (min value.length field.precision.toNat)).2.map
        Call.ofStep := by
    rw [recipeEncodeField, htype]
    simp only [encodeText]
    rw [if_pos hprecision]
    rfl
  have hshort : (recipeEncodeField env { field with precision := 0 } stats
    (value.take field.precision.toNat)).calls =
      (stats3CompressAppend stats (value.take field.precision.toNat)
        (value.take field.precision.toNat).length).2.map Call.ofStep := by
    rw [recipeEncodeField]
    simp only [htype, encodeText]
    rw [if_neg (lt_irrefl 0)]
    rfl
  rw [hlong, hshort, (List.map_injective_iff.mpr ofStep_injective).eq_iff]
  rcases le_or_gt value.length field.precision.toNat with hfits | hcut
  · rw [List.take_of_length_le hfits, min_eq_left hfits]
    simp [hfits]
  · have hlength : (value.take field.precision.toNat).length = field.precision.toNat := by
      rw [List.length_take]
      omega
    rw [min_eq_right hcut.le, hlength, append_eq, append_eq]
    have hascii' := ascii_take hascii field.precision.toNat
    have hnot : ¬value.length ≤ field.precision.toNat := not_le.mpr hcut
    simp only [hnot, false_or]
    by_cases hvalue : ModelWins stats value field.precision.toNat
    · rw [if_pos hvalue]
      by_cases htake : ModelWins stats (value.take field.precision.toNat) field.precision.toNat
      · rw [if_pos htake, model1_take hascii stats hcut.le]
        simp [hvalue, htake]
      · rw [if_neg htake]
        simp only [htake, and_false, iff_false]
        exact model1_ne_radix hascii stats _ hcut.le _
    · rw [if_neg hvalue]
      simp only [hvalue, false_and, iff_false]
      by_cases htake : ModelWins stats (value.take field.precision.toNat) field.precision.toNat
      · rw [if_pos htake]
        exact (model1_ne_radix hascii' stats _ hlength.ge _).symm
      · -- the packed texts have different lengths
        rw [if_neg htake]
        intro heq
        have hlengths := congrArg List.length heq
        simp only [stats3CompressRadixAppend, List.length_append,
          length_encodePackedASCII (radix_of_not_wins hvalue),
            length_encodePackedASCII (radix_of_not_wins htake),
          hlength] at hlengths
        omega

def shortTextField : Field := ⟨text "t", .text, 0, 0, 6, []⟩

theorem text_truncation_iff_word :
    (recipeEncodeField plainEnvironment shortTextField TextRoundTrip.evenStats
      (text "abc")).calls =
      (recipeEncodeField plainEnvironment { shortTextField with precision := 0 }
        TextRoundTrip.evenStats
        ((text "abc").take 6)).calls :=
  (text_truncation_iff plainEnvironment shortTextField rfl
    (by decide) TextRoundTrip.evenStats (text "abc") (ascii_of_all rfl)).mpr (Or.inl (by decide))

/-- Seven digits are sent behind the length 6. -/
theorem text_sent_untruncated : ¬ ∀ (env : Environment) (field : Field)
    (stats : Stats) (value : CString),
    field.type = .text → 0 < field.precision → TextRoundTrip.Stats.Valid stats →
    TextRoundTrip.Ascii value →
      value.length ≤ 1023 → (recipeEncodeField env field stats value).calls =
        (recipeEncodeField env { field with precision := 0 } stats
          (value.take field.precision.toNat)).calls := by
  intro h
  have hbad :=
    h plainEnvironment shortTextField TextRoundTrip.evenStats (text "1234567") rfl (by decide)
    TextRoundTrip.evenStats_valid (ascii_of_all rfl) (by decide)
  exact absurd hbad (by decide +kernel)

end Texts

section Choices

/-- The pieces of a value of several options. A separator ends a piece: behind the
last one there is none unless it has characters. -/
def pieces (value : CString) : List CString :=
  if (value.splitOn 124).getLast? = some [] then (value.splitOn 124).dropLast
    else value.splitOn 124

theorem pieces_of_ne_nil {value : CString} (h : value ≠ []) :
    pieces value = value.takeWhile (· ≠ 124) :: pieces ((value.dropWhile (· ≠ 124)).drop 1) := by
  have hpiece : (124 : UInt8) ∉ value.takeWhile (· ≠ 124) := by
    intro hmem
    exact absurd (List.mem_takeWhile_imp hmem) (by decide)
  have hsplit : value.takeWhile (· ≠ 124) ++ value.dropWhile (· ≠ 124) = value :=
    List.takeWhile_append_dropWhile
  cases hrest : value.dropWhile (· ≠ 124) with
  | nil =>
    rw [hrest, List.append_nil] at hsplit
    rw [hsplit] at hpiece ⊢
    have hone := List.splitOn_eq_singleton hpiece
    rw [pieces, hone, if_neg (by simpa using h)]
    rfl
  | cons b rest =>
    have hbar : b = 124 := by
      have hne : value.dropWhile (· ≠ 124) ≠ [] := by
        rw [hrest]
        exact List.cons_ne_nil b rest
      have hhead := List.head_dropWhile_not (fun x : UInt8 => decide (x ≠ 124)) hne
      simp only [hrest, List.head_cons, decide_eq_false_iff_not, not_not] at hhead
      exact hhead
    subst hbar
    have hone := List.splitOn_append_cons_self_of_not_mem hpiece rest
    rw [hrest] at hsplit
    rw [hsplit] at hone
    obtain ⟨c, more, hmore⟩ := List.exists_cons_of_ne_nil (List.splitOn_ne_nil (124 : UInt8) rest)
    rw [pieces, hone, List.drop_one, List.tail_cons, pieces, hmore, List.getLast?_cons_cons,
      List.dropLast_cons_cons]
    split <;> rfl

theorem testBit_shiftedBit : ∀ v < 32, ∀ o < 32, (shiftedBit v).testBit o = decide (v = o) := by
  decide +kernel

variable {options : List CString}

theorem testBit_selectPiece (hcount : options.length ≤ 32) (bits : ℕ) (piece : CString) {o : ℕ}
    (ho : o < options.length) : (selectPiece options bits piece).testBit o =
      (bits.testBit o || decide (enumIndex options (piece.take 1000) = o)) := by
  rw [selectPiece]
  by_cases hfound : enumIndex options (List.take 1000 piece) < options.length
  · rw [if_pos hfound]
    rw [Nat.testBit_or, testBit_shiftedBit _ (lt_of_lt_of_le hfound hcount) o
      (lt_of_lt_of_le ho hcount)]
  · rw [if_neg hfound]
    have hother : enumIndex options (piece.take 1000) ≠ o := by omega
    rw [decide_eq_false hother, Bool.or_false]

/-- The bit of an option is set by the pieces that find it. -/
theorem testBit_selectedBits (hcount : options.length ≤ 32) (value : CString) (bits : ℕ) {o : ℕ}
    (ho : o < options.length) : (selectedBits options value bits).testBit o =
      (bits.testBit o || (pieces value).any fun piece =>
        decide (enumIndex options (piece.take 1000) = o)) := by
  induction value, bits using selectedBits.induct options with
  | case1 bits => simp [selectedBits, pieces]
  | case2 bits b rest piece ih =>
    rw [selectedBits, ih, pieces_of_ne_nil (List.cons_ne_nil b rest), List.any_cons,
      testBit_selectPiece hcount bits _ ho, Bool.or_assoc]

/-- Options that differ are found by their own texts only; what is cut off from a
long piece could not be one of them. -/
theorem enumIndex_eq_iff (hdistinct : options.Pairwise fun a b => strcasecmp a b = false)
    (hshort : ∀ option ∈ options, option.length < 1000) (piece : CString) {o : ℕ}
    (ho : o < options.length) :
    enumIndex options (piece.take 1000) = o ↔ strcasecmp piece options[o] = true := by
  have htake : ∀ option ∈ options, strcasecmp (piece.take 1000) option =
    strcasecmp piece option := by
    intro option hmem
    by_cases hlong : piece.length ≤ 1000
    · rw [List.take_of_length_le hlong]
    · have hlength := hshort option hmem
      have hcut : (piece.take 1000).length = 1000 := by
        rw [List.length_take]
        omega
      rw [Bool.eq_false_iff.mpr fun h => absurd (length_of_strcasecmp h) (by omega),
        Bool.eq_false_iff.mpr fun h => absurd (length_of_strcasecmp h) (by omega)]
  constructor
  · rintro rfl
    rw [← htake _ (List.getElem_mem ho)]
    exact List.findIdx_getElem (w := ho)
  · intro hfound
    rw [← htake _ (List.getElem_mem ho)] at hfound
    rw [enumIndex, List.findIdx_eq ho]
    refine ⟨hfound, ?_⟩
    intro j hj
    rw [Bool.eq_false_iff]
    intro hfirst
    have hdiffer := List.pairwise_iff_getElem.mp hdistinct j o (by omega) ho hj
    have hsame := (strcasecmp_iff.mp hfirst).symm.trans (strcasecmp_iff.mp hfound)
    rw [strcasecmp_iff.mpr hsame] at hdiffer
    cases hdiffer

def choiceCalls (options : List CString) (pieces : List CString) : List Call :=
  options.map fun option =>
    .equiprobable 2 (if pieces.any fun piece => strcasecmp piece option then 1 else 0)

/-- A choice of several options is one symbol for each option, in their order: 1 for
those that some piece of the value names. -/
theorem multiselect_calls (formHash : CString → List UInt8)
    (formname buffer : CString) (recipe : Recipe)
    (hread : recipeRead formHash formname buffer = some recipe) (field : Field)
    (hfield : field ∈ recipe.fieldList) (htype : field.type = .multiselect)
    (hdistinct : field.enumValue.Pairwise fun a b => strcasecmp a b = false)
    (hshort : ∀ option ∈ field.enumValue, option.length < 1000) (env : Environment)
    (stats : Stats) (value : CString) :
    recipeEncodeField env field stats value =
      ⟨choiceCalls field.enumValue (pieces value), .code 0⟩ := by
  have hsound := recipeRead_sound hread field hfield
  rw [Field.Sound, if_pos (Or.inr htype)] at hsound
  have hcalls : recipeEncodeField env field stats value = encodeMultiselect field value := by
    rw [recipeEncodeField, htype]
  rw [hcalls, encodeMultiselect]
  congr 1
  rw [choiceCalls]
  refine List.ext_getElem (by simp [Field.enumCount]) ?_
  intro o ho ho'
  have hlt : o < field.enumValue.length := by simpa using ho'
  have hbit := testBit_selectedBits hsound.2 value 0 hlt
  rw [Nat.zero_testBit, Bool.false_or] at hbit
  rw [List.getElem_map, List.getElem_map, List.getElem_range, Nat.shiftRight_eq_div_pow,
    Nat.and_one_is_mod, ← Nat.toNat_testBit, hbit]
  have hany : ((pieces value).any fun piece =>
    decide (enumIndex field.enumValue (piece.take 1000) = o)) =
      (pieces value).any fun piece => strcasecmp piece field.enumValue[o] := by
    rw [Bool.eq_iff_iff, List.any_eq_true, List.any_eq_true]
    simp only [decide_eq_true_eq, enumIndex_eq_iff hdistinct hshort _ hlt]
  rw [hany]
  cases (pieces value).any fun piece => strcasecmp piece field.enumValue[o] <;> rfl

def twoOptions : CString := text "x:multi:0:0:0:a,"

def anyHash : CString → List UInt8 := fun _ => []

theorem multiselect_calls_two :
    ∃ recipe field, recipeRead anyHash (text "f") twoOptions = some recipe ∧
    field ∈ recipe.fieldList ∧
    recipeEncodeField plainEnvironment field TextRoundTrip.evenStats (text "A|b|a") =
      ⟨[.equiprobable 2 1, .equiprobable 2 0], .code 0⟩ := by
  refine ⟨⟨text "f", [], [⟨text "x", .multiselect, 0, 0, 0, [text "a", []]⟩]⟩,
    _, by decide +kernel, List.mem_singleton_self _, ?_⟩
  rw [multiselect_calls anyHash (text "f") twoOptions
    ⟨text "f", [], [⟨text "x", .multiselect, 0, 0, 0, [text "a", []]⟩]⟩ (by decide +kernel) _
    (List.mem_singleton_self _) rfl (by decide) (by decide)]
  decide +kernel

/-- With the piece behind the last separator, which is empty, the option that is
empty would be chosen. -/
theorem multiselect_last_piece : ¬ ∀ (formHash : CString → List UInt8)
    (formname buffer : CString) (recipe : Recipe)
    (field : Field) (env : Environment) (stats : Stats) (value : CString),
    recipeRead formHash formname buffer = some recipe → field ∈ recipe.fieldList →
    field.type = .multiselect →
      (field.enumValue.Pairwise fun a b => strcasecmp a b = false) →
      (∀ option ∈ field.enumValue, option.length < 1000) →
      (recipeEncodeField env field stats value).calls =
        choiceCalls field.enumValue (value.splitOn 124) := by
  intro h
  have hbad :=
    h anyHash (text "f") twoOptions
      ⟨text "f", [], [⟨text "x", .multiselect, 0, 0, 0, [text "a", []]⟩]⟩ _
    plainEnvironment TextRoundTrip.evenStats (text "a|") (by decide +kernel)
      (List.mem_singleton_self _) rfl (by decide)
    (by decide)
  exact absurd hbad (by decide +kernel)

end Choices

end Succinct.FieldSymbols
