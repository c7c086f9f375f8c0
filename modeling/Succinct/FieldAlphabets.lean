import Succinct.CallCodes
import Succinct.FieldSymbols
import Succinct.TextSymbols

/-!
Which symbols of a field lie in their alphabets. All of them do but for times that
do not fit into 31 bits, places off the globe, and characters that the tables of the
text models leave without a share.
-/
namespace Succinct.FieldAlphabets

open RangeMessages RangeLossless Interpolative TextModels TextRoundTrip TextSymbols CStrings
  Recipes FieldEncoding CallCodes
open Charset (charIdx indexIn chars length_chars indexIn_spec unicodeMark CHARCOUNT
  isDigit tolower_lt)

section Texts

def Placed : Step → Prop
  | .equiprobable n t => t < n ∧ n < 0x80000000
  | .symbol _ n t => t < n

def AllPlaced (steps : List Step) : Prop := ∀ step ∈ steps, Placed step

theorem AllPlaced.cons {step : Step} {rest : List Step} (h : Placed step)
    (hrest : AllPlaced rest) :
    AllPlaced (step :: rest) :=
  List.forall_mem_cons.mpr ⟨h, hrest⟩

theorem AllPlaced.append {xs ys : List Step} (hx : AllPlaced xs) (hy : AllPlaced ys) :
    AllPlaced (xs ++ ys) :=
  List.forall_mem_append.mpr ⟨hx, hy⟩

theorem AllPlaced.of_valid {steps : List Step} (h : AllValid steps) : AllPlaced steps := by
  intro step hstep
  have hvalid := h step hstep
  cases step with
  | equiprobable n t => exact hvalid
  | symbol frequencies n t => exact hvalid.1

theorem charIdx_lt (t : ℕ) : (charIdx t).toNat < CHARCOUNT := by
  rw [charIdx, ← length_chars]
  generalize (if t > 0x7f then unicodeMark else t) = c
  by_cases hfound : 0 ≤ indexIn chars (if 49 ≤ c ∧ c ≤ 57 then 48 else c)
  · exact (indexIn_spec chars _ hfound).1
  · rw [Int.toNat_of_nonpos (by omega)]
    decide

/-- The code units of a text. -/
theorem utf8toutf16Loop_units (m : List UInt8) (len fuel i : ℕ) {units : List ℕ}
    (h : utf8toutf16Loop m len fuel i = some units) : units.length ≤ fuel ∧
    ∀ u ∈ units, u < 0x10000 := by
  induction fuel generalizing i units with
  | zero =>
    obtain rfl := Option.some.inj h
    simp
  | succ fuel ih =>
    have hcons : ∀ u j : ℕ, u < 0x10000 →
      (utf8toutf16Loop m len fuel j).map (u :: ·) = some units →
        units.length ≤ fuel + 1 ∧ ∀ x ∈ units, x < 0x10000 := by
      intro u j hu hmap
      obtain ⟨rest, hrest, rfl⟩ := Option.map_eq_some_iff.mp hmap
      obtain ⟨hlength, hunits⟩ := ih j hrest
      exact ⟨Nat.succ_le_succ hlength, List.forall_mem_cons.mpr ⟨hu, hunits⟩⟩
    rw [utf8toutf16Loop] at h
    dsimp only at h
    generalize byteAt m i = b at h
    split at h
    · obtain rfl := Option.some.inj h
      simp
    split at h
    · cases h
    split at h
    · exact hcons _ _ (by omega) h
    split at h
    · exact hcons _ _ (by omega) h
    split at h
    · split at h
      · cases h
      · exact hcons _ _ (by omega) h
    · cases h

section Models

variable (h : Stats)

theorem caseModel1_placed (line : List ℕ) (i : ℕ) (st : CaseState) :
    AllPlaced (encodeCaseModel1 h i st line) := by
  induction line generalizing i st with
  | nil => simp [encodeCaseModel1, AllPlaced]
  | cons c rest ih =>
    rw [encodeCaseModel1]
    split
    · exact ih _ _
    · split
      · exact AllPlaced.cons (Bool.toNat_lt _) (ih _ _)
      · exact ih _ _

theorem encodePage_placed (lastCodePage : ℕ) (firstUnicode : Bool) {t : ℕ} (ht : t < 0x10000) :
    AllPlaced (encodePage h lastCodePage firstUnicode t).1 := by
  have hpage : t / 0x80 ≤ 511 := by omega
  unfold encodePage
  split
  · exact AllPlaced.cons ⟨by omega, by omega⟩ (by simp [AllPlaced])
  · split
    · exact AllPlaced.cons (show 128 + t / 0x80 < 128 + 512 by omega) (by simp [AllPlaced])
    · simp [AllPlaced]

theorem lcAlphaSpace_placed (s context : List ℕ) (hs : ∀ t ∈ s, t < 0x10000)
    (page : ℕ) (first : Bool) :
    AllPlaced (encodeLCAlphaSpace h context s page first) := by
  induction s generalizing context page first with
  | nil => simp [encodeLCAlphaSpace, AllPlaced]
  | cons t rest ih =>
    obtain ⟨ht, hrest⟩ := List.forall_mem_cons.mp hs
    rw [encodeLCAlphaSpace]
    refine AllPlaced.cons (charIdx_lt t) ?_
    by_cases hdigit : isDigit t = true
    · rw [if_pos hdigit]
      have hbounds : 48 ≤ t ∧ t ≤ 57 := by simpa [isDigit] using hdigit
      exact AllPlaced.cons ⟨by omega, by omega⟩ (ih _ hrest _ _)
    rw [if_neg hdigit]
    split
    · refine (encodePage_placed h page first ht).append (AllPlaced.cons ?_ (ih _ hrest _ _))
      have hsmall : t % 0x80 < 128 := Nat.mod_lt _ (by decide)
      change t % 0x80 < if (encodePage h page first t).2 = true then 128 else 128 + 512
      split
      · exact hsmall
      · omega
    · exact ih _ hrest _ _

theorem stripCase_units {units : List ℕ} (hunits : ∀ u ∈ units, u < 0x10000) :
    ∀ u ∈ stripCase (stripNonAlpha units), u < 0x10000 := by
  intro u hu
  obtain ⟨c, hc, rfl⟩ := List.mem_map.mp hu
  by_cases hascii : c < 128
  · rw [if_pos hascii]
    exact (tolower_lt c hascii).trans (by decide)
  · rw [if_neg hascii]
    exact hunits c (List.mem_filter.mp hc).1

variable (m : List UInt8) {len : ℕ} (hlen : len < 1024)

include hlen

theorem radix_placed : AllPlaced (stats3CompressRadixAppend h m len).2 := by
  refine AllPlaced.append ?_ (AllPlaced.of_valid (packed_valid m))
  refine AllPlaced.cons ⟨by omega, by omega⟩ (AllPlaced.cons ⟨by omega, by omega⟩ ?_)
  exact AllPlaced.cons (show 0 < 2 by omega) (AllPlaced.cons hlen (by simp [AllPlaced]))

theorem model1_placed : AllPlaced (stats3CompressModel1Append h m len).2 := by
  unfold stats3CompressModel1Append
  cases hunits : utf8toutf16 m len with
  | none => simp [AllPlaced]
  | some utf16 =>
    obtain ⟨hlength, hsmall⟩ := utf8toutf16Loop_units m len len 0 hunits
    refine AllPlaced.append (AllPlaced.append (AllPlaced.append ?_ ?_) ?_) ?_
    · refine AllPlaced.cons ⟨by omega, by omega⟩ (AllPlaced.cons ⟨by omega, by omega⟩ ?_)
      refine AllPlaced.cons (show 1 < 2 by omega) (AllPlaced.cons ?_ (by simp [AllPlaced]))
      exact hlength.trans_lt hlen
    · exact AllPlaced.of_valid (nonAlpha_valid utf16 (hlength.trans_lt hlen))
    · exact lcAlphaSpace_placed h _ [] (stripCase_units hsmall) 1 true
    · exact caseModel1_placed h _ 0 {}

/-- Both candidates place their symbols, for any bytes. -/
theorem append_placed : AllPlaced (stats3CompressAppend h m len).2 := by
  rw [FieldSymbols.append_eq]
  split
  · exact model1_placed h m hlen
  · exact radix_placed h m hlen

end Models

def Shared (calls : List Call) : Prop :=
  ∀ frequencies n t, Call.symbol frequencies n t ∈ calls →
    Share (symbolLow frequencies t) (symbolHigh frequencies n t)

theorem compressText_legal (stats : Stats) (value : CString) {len : ℕ} (hlen : len < 1024)
    (hshared : Shared (compressText stats value len).2) :
    ∀ call ∈ (compressText stats value len).2, Legal call := by
  intro call hcall
  obtain ⟨step, hstep, rfl⟩ := List.mem_map.mp hcall
  have hplaced := append_placed stats value hlen step hstep
  cases step with
  | equiprobable n t =>
    refine Or.inr ⟨Int.natCast_nonneg t, Int.ofNat_lt.mpr hplaced.1, ?_⟩
    have hsize := hplaced.2
    omega
  | symbol frequencies n t => exact ⟨hplaced, hshared frequencies n t hcall⟩

end Texts

section Numbers

theorem within_iff (n low high : ℤ) : within n low high = true ↔
    low ≤ n ∧ n ≤ high := decide_eq_true_iff

theorem legal_byte {b : ℤ} (h : 0 ≤ b ∧ b < 256) : Legal (.equiprobable 256 b) :=
  Or.inr ⟨h.1, h.2, by decide⟩

theorem int32_succ (z : ℤ) : int32 (z + 1) = int32 z + 1 ∨ int32 (z + 1) < 1 := by
  unfold int32 Int.bmod
  dsimp only
  omega

/-- The symbol of an int in an alphabet of one more; where that overflows, the
alphabet is empty. -/
theorem legal_int {z t : ℤ} (ht : 0 ≤ t) (hle : t ≤ int32 z) :
    Legal (.equiprobable (int32 (z + 1)) t) := by
  have hhigh : int32 (z + 1) < 0x80000000 := Int.bmod_lt (by decide)
  rcases int32_succ z with hnext | hempty
  · exact Or.inr ⟨ht, by omega, hhigh⟩
  · exact Or.inl hempty

theorem legal_last (z : ℤ) : Legal (.equiprobable (int32 (z + 1)) (int32 z)) := by
  by_cases hneg : int32 z < 0
  · have hnext := int32_succ z
    exact Or.inl (by omega)
  · exact legal_int (not_lt.mp hneg) le_rfl

theorem precision_legal {v maximum : ℤ} (hv : 0 ≤ v) (hle : v ≤ maximum)
    (hmax : maximum < 0x40000000)
    (precision bits : ℤ) : Legal (encodePrecision v maximum precision bits) := by
  have hscaled : ∀ k : ℕ, 0 ≤ v / 2 ^ k ∧ v / 2 ^ k ≤ maximum / 2 ^ k ∧
    maximum / 2 ^ k ≤ maximum := by
    intro k
    have hpos : (0 : ℤ) < 2 ^ k := by positivity
    exact ⟨Int.ediv_nonneg hv hpos.le, Int.ediv_le_ediv hpos hle,
      Int.ediv_le_self _ (hv.trans hle)⟩
  rw [encodePrecision]
  generalize (if precision = 0 then bits else precision) = p
  split
  · obtain ⟨h0, h1, h2⟩ := hscaled (bits - p).toNat
    exact Or.inr ⟨h0, by omega, by omega⟩
  · exact Or.inr ⟨hv, by omega, by omega⟩

theorem parseHexDigit_lt (c : UInt8) : parseHexDigit c < 16 := by
  unfold parseHexDigit
  by_cases h : 48 ≤ c ∧ c ≤ 57
  · rw [if_pos h]
    rw [UInt8.le_iff_toNat_le, UInt8.le_iff_toNat_le] at h
    have hhigh : (57 : UInt8).toNat = 57 := rfl
    omega
  rw [if_neg h]
  by_cases h : 65 ≤ c ∧ c ≤ 70
  · rw [if_pos h]
    rw [UInt8.le_iff_toNat_le, UInt8.le_iff_toNat_le] at h
    have hhigh : (70 : UInt8).toNat = 70 := rfl
    omega
  rw [if_neg h]
  by_cases h : 97 ≤ c ∧ c ≤ 102
  · rw [if_pos h]
    rw [UInt8.le_iff_toNat_le, UInt8.le_iff_toNat_le] at h
    have hhigh : (102 : UInt8).toNat = 102 := rfl
    omega
  · rw [if_neg h]
    omega

theorem parseHexByte_bounds (hex : CString) : 0 ≤ parseHexByte hex ∧ parseHexByte hex < 256 := by
  have hfirst := parseHexDigit_lt (hex.getD 0 0)
  have hsecond := parseHexDigit_lt (hex.getD 1 0)
  rw [parseHexByte]
  omega

theorem append_bounds {bytes : List ℤ} (hbytes : ∀ b ∈ bytes, 0 ≤ b ∧ b < 256) (hex : CString) :
    ∀ b ∈ bytes ++ [parseHexByte hex], 0 ≤ b ∧ b < 256 :=
  List.forall_mem_append.mpr ⟨hbytes, List.forall_mem_singleton.mpr (parseHexByte_bounds hex)⟩

theorem uuidBytes_bounds (value : CString) (bytes : List ℤ)
    (hbytes : ∀ b ∈ bytes, 0 ≤ b ∧ b < 256) {uuid : List ℤ}
    (h : uuidBytes value bytes = some uuid) : ∀ b ∈ uuid, 0 ≤ b ∧ b < 256 := by
  fun_induction uuidBytes value bytes with
  | case1 bytes =>
    obtain rfl := Option.some.inj h
    exact hbytes
  | case2 => cases h
  | case3 b bytes hroom hdigit =>
    obtain rfl := Option.some.inj h
    exact append_bounds hbytes _
  | case4 b bytes hroom hdigit b' rest ih => exact ih (append_bounds hbytes _) h
  | case5 b rest bytes hroom hdash ih => exact ih hbytes h

end Numbers

section Fields

def acceptedTm (env : Environment) (value : CString) : Option Tm :=
  let read :=
    intItems (sscanf [.int, .char 45, .int, .char 45, .int, .char 84, .int,
      .char 58, .int, .char 58,
    .int, .char 46, .int, .int, .char 58, .int] value)
  let tm : Tm :=
    ⟨read.getD 0 0, read.getD 1 0, read.getD 2 0, read.getD 3 0, read.getD 4 0, read.getD 5 0⟩
  if read.length < 6 then none
  else if !(within tm.year 0 2299 && within tm.mon 1 12 && within tm.mday 1 31 &&
    within tm.hour 0 24 &&
      within tm.min 0 59 && within tm.sec 0 61) then none
  else if read.getD 6 env.unwritten > 99 ∨ !within (read.getD 7 0) (-15) 15 ∨
    !within (read.getD 8 0) 0 59 then none
  else some { tm with year := tm.year - 1900, mon := tm.mon - 1 }

def timeCalls (t : ℤ) : List Call :=
  [.equiprobable 0x8000 (int32 (t / 65536)), .equiprobable 0x10000 (t % 65536)]

theorem encodeTimedate_eq (env : Environment) (value : CString) :
    encodeTimedate env value = (acceptedTm env value).elim fail fun tm =>
      ⟨timeCalls (env.mktime tm), .lastCall⟩ := by
  unfold encodeTimedate acceptedTm
  dsimp only
  split
  · rfl
  split
  · rfl
  split
  · rfl
  · rfl

def InEpoch (t : ℤ) : Prop := 0 ≤ int32 (t / 65536) ∧ int32 (t / 65536) < 0x8000

/-- The times from 1970 to 2038, in so many seconds. -/
theorem inEpoch_iff {t : ℤ} (ht : IsInt (t / 65536)) : InEpoch t ↔ 0 ≤ t ∧ t < 0x80000000 := by
  rw [InEpoch, int32_eq ht]
  omega

theorem timeCalls_legal_iff (t : ℤ) : (∀ call ∈ timeCalls t, Legal call) ↔ InEpoch t := by
  have hsecond : Legal (.equiprobable 0x10000 (t % 65536)) :=
    Or.inr ⟨by omega, by omega, by decide⟩
  rw [timeCalls, List.forall_mem_cons, List.forall_mem_singleton, InEpoch]
  constructor
  · rintro ⟨hfirst, -⟩
    obtain ⟨hlow, hhigh, -⟩ := hfirst.resolve_left (by decide)
    exact ⟨hlow, hhigh⟩
  · rintro ⟨hlow, hhigh⟩
    exact ⟨Or.inr ⟨hlow, hhigh, by decide⟩, hsecond⟩

def placeCalls (parts lat lon : ℤ) : List Call :=
  [.equiprobable (182 * parts) (lat + 90 * parts),
    .equiprobable (361 * parts) (lon + 180 * parts)]

def OnGlobe (parts lat lon : ℤ) : Prop :=
  (-90 * parts ≤ lat ∧ lat < 92 * parts) ∧ -180 * parts ≤ lon ∧ lon < 181 * parts

theorem placeCalls_legal_iff {parts : ℤ} (hpos : 0 < parts)
    (hsmall : parts ≤ 112000) (lat lon : ℤ) :
    (∀ call ∈ placeCalls parts lat lon, Legal call) ↔ OnGlobe parts lat lon := by
  rw [placeCalls, List.forall_mem_cons, List.forall_mem_singleton, OnGlobe]
  constructor
  · rintro ⟨hlat, hlon⟩
    obtain ⟨h1, h2, -⟩ := hlat.resolve_left (by omega)
    obtain ⟨h3, h4, -⟩ := hlon.resolve_left (by omega)
    omega
  · rintro ⟨⟨h1, h2⟩, h3, h4⟩
    exact ⟨Or.inr ⟨by omega, by omega, by omega⟩, Or.inr ⟨by omega, by omega, by omega⟩⟩

theorem integer_legal (field : Field) (stats : Stats) {value : CString}
    (hvalue : value.length < 1024) (hshared : Shared (encodeInteger field stats value).calls) :
    ∀ call ∈ (encodeInteger field stats value).calls, Legal call := by
  have hsize : field.maximum - field.minimum + 2 =
    field.maximum - field.minimum + 1 + 1 := by omega
  unfold encodeInteger at hshared ⊢
  dsimp only at hshared ⊢
  rw [hsize] at hshared ⊢
  generalize int32 (atoi value - field.minimum) = v at hshared ⊢
  by_cases hrange : field.maximum ≤ field.minimum
  · rw [if_pos hrange]
    simp [fail]
  rw [if_neg hrange]
  rw [if_neg hrange] at hshared
  by_cases hescape : v < 0 ∨ v > int32 (field.maximum - field.minimum + 1)
  · rw [if_pos hescape]
    rw [if_pos hescape] at hshared
    refine List.forall_mem_cons.mpr ⟨?_, ?_⟩
    · exact legal_last _
    · exact compressText_legal stats value hvalue fun frequencies n t hmem =>
        hshared frequencies n t (List.mem_cons_of_mem _ hmem)
  · rw [if_neg hescape]
    obtain ⟨hlow, hhigh⟩ := not_or.mp hescape
    exact List.forall_mem_singleton.mpr (legal_int (not_lt.mp hlow) (not_lt.mp hhigh))

theorem float_legal (env : Environment) (value : CString) :
    ∀ call ∈ (encodeFloat env value).calls, Legal call := by
  unfold encodeFloat
  dsimp only
  simp only [List.forall_mem_cons, List.not_mem_nil, false_imp_iff, implies_true, and_true]
  refine ⟨?_, legal_byte (by omega), legal_byte (by omega), legal_byte (by omega),
    legal_byte (by omega)⟩
  split
  · exact Or.inr ⟨by omega, by omega, by omega⟩
  · exact Or.inr ⟨by omega, by omega, by omega⟩

theorem boolean_legal (value : CString) : ∀ call ∈ (encodeBoolean value).calls, Legal call := by
  refine List.forall_mem_singleton.mpr ?_
  rw [recipeParseBoolean]
  split
  · exact Or.inr ⟨by omega, by omega, by omega⟩
  · exact Or.inr ⟨by omega, by omega, by omega⟩

theorem timeofday_legal (env : Environment) (field : Field) (value : CString) :
    ∀ call ∈ (encodeTimeofday env field value).calls, Legal call := by
  unfold encodeTimeofday
  split
  case h_1 read h m s _ =>
    split
    · simp [fail]
    by_cases hinside : (!(within h 0 23 && within m 0 59 && within s 0 59)) = true
    · rw [if_pos hinside]
      simp [fail]
    · rw [if_neg hinside]
      simp only [Bool.not_eq_true', Bool.not_eq_false, Bool.and_eq_true, within_iff] at hinside
      exact List.forall_mem_singleton.mpr (precision_legal (by omega) (by omega) (by omega) _ _)

theorem magpitimedate_legal (value : CString) :
    ∀ call ∈ (encodeMagpitimedate value).calls, Legal call := by
  unfold encodeMagpitimedate
  dsimp only
  split
  · simp [fail]
  split
  · simp [fail]
  case isFalse hinside =>
    simp only [Bool.not_eq_true', Bool.not_eq_false, Bool.and_eq_true, within_iff] at hinside
    simp only [List.forall_mem_cons, List.not_mem_nil, false_imp_iff, implies_true, and_true]
    refine ⟨?_, ?_, ?_, ?_, ?_, ?_⟩ <;> exact Or.inr ⟨by omega, by omega, by omega⟩

theorem date_legal (field : Field) (value : CString) :
    ∀ call ∈ (encodeDate field value).calls, Legal call := by
  unfold encodeDate
  split
  case h_1 =>
    simp [fail]
  case h_2 slash y m d _ =>
    by_cases hinside : (!(within y 1 9999 && within m 1 31 && within d 1 31)) = true
    · rw [if_pos hinside]
      simp [fail]
    · rw [if_neg hinside]
      simp only [Bool.not_eq_true', Bool.not_eq_false, Bool.and_eq_true, within_iff] at hinside
      refine List.forall_mem_cons.mpr ⟨?_, List.forall_mem_singleton.mpr ?_⟩
      · split
        · exact Or.inr ⟨by omega, by omega, by omega⟩
        · exact Or.inr ⟨by omega, by omega, by omega⟩
      · exact precision_legal (by omega) (by omega) (by omega) _ _

theorem multiselect_legal (field : Field) (value : CString) :
    ∀ call ∈ (encodeMultiselect field value).calls, Legal call := by
  refine List.forall_mem_map.mpr ?_
  intro o _
  rw [Nat.and_one_is_mod]
  exact Or.inr ⟨by omega, by omega, by omega⟩

theorem enum_legal {field : Field} (hfield : field.Sound) (htype : field.type = .enum)
    (value : CString) :
    ∀ call ∈ (encodeEnum field value).calls, Legal call := by
  rw [Field.Sound, if_pos (Or.inl htype), MAX_ENUM_VALUES] at hfield
  unfold encodeEnum
  dsimp only
  split
  · simp [fail]
  · exact List.forall_mem_singleton.mpr (Or.inr ⟨by omega, by omega, by omega⟩)

theorem text_legal (field : Field) (stats : Stats) {value : CString}
    (hvalue : value.length < 1024)
    (hshared : Shared (encodeText field stats value).calls) :
    ∀ call ∈ (encodeText field stats value).calls, Legal call := by
  refine compressText_legal stats value ?_ hshared
  split
  · omega
  · exact hvalue

theorem magpiuuid_legal (value : CString) :
    ∀ call ∈ (encodeMagpiuuid value).calls, Legal call := by
  refine List.forall_mem_append.mpr ⟨List.forall_mem_map.mpr ?_, List.forall_mem_map.mpr ?_⟩
  · exact fun i _ => legal_byte (parseHexByte_bounds _)
  · exact fun i _ => legal_byte (by omega)

theorem uuid_legal (field : Field) (value : CString) :
    ∀ call ∈ (encodeUuid field value).calls, Legal call := by
  unfold encodeUuid
  dsimp only
  cases huuid : uuidBytes (if strncasecmp value (text "uuid:") 5 = true then List.drop 5 value
    else value) [] with
  | none =>
    simp [fail]
  | some uuid =>
    dsimp only
    split
    · simp [fail]
    · refine List.forall_mem_map.mpr ?_
      intro b hb
      exact legal_byte (uuidBytes_bounds _ [] (by simp) huuid b (List.mem_of_mem_take hb))

/-- What a value must be for its symbols to lie in their alphabets. -/
structure Encodable (env : Environment) (field : Field) (stats : Stats)
    (value : CString) : Prop where
  time : field.type = .timedate → ∀ tm, acceptedTm env value = some tm → InEpoch (env.mktime tm)
  place : field.type = .latlong → ∀ degrees parts, env.latlong value = some (degrees, parts) →
    (field.precision = 16 → OnGlobe 1 degrees.1 degrees.2) ∧
    (field.precision = 0 ∨ field.precision = 34 → OnGlobe 112000 parts.1 parts.2)
  shared : Shared (recipeEncodeField env field stats value).calls

theorem timedate_legal_iff (env : Environment) (value : CString) :
    (∀ call ∈ (encodeTimedate env value).calls, Legal call) ↔
      ∀ tm, acceptedTm env value = some tm → InEpoch (env.mktime tm) := by
  rw [encodeTimedate_eq]
  cases acceptedTm env value with
  | none => simp [fail]
  | some tm =>
    simp only [Option.elim_some, Option.some.injEq, forall_eq']
    exact timeCalls_legal_iff _

theorem latlong_legal_iff (env : Environment) (field : Field) (value : CString) :
    (∀ call ∈ (encodeLatlong env field value).calls, Legal call) ↔
      ∀ degrees parts, env.latlong value = some (degrees, parts) →
        (field.precision = 16 → OnGlobe 1 degrees.1 degrees.2) ∧
        (field.precision = 0 ∨ field.precision = 34 → OnGlobe 112000 parts.1 parts.2) := by
  unfold encodeLatlong
  split
  case h_1 hnone =>
    simp [fail, hnone]
  case h_2 ilat ilon fineLat fineLon hsome =>
    have hall : ∀ P : ℤ × ℤ → ℤ × ℤ → Prop,
        (∀ degrees parts, env.latlong value = some (degrees, parts) → P degrees parts) ↔
          P (ilat, ilon) (fineLat, fineLon) := by
      intro P
      rw [hsome]
      constructor
      · exact fun h => h _ _ rfl
      · rintro h degrees parts heq
        obtain ⟨rfl, rfl⟩ := Prod.mk.inj (Option.some.inj heq)
        exact h
    rw [hall]
    by_cases hcoarse : field.precision = 16
    · rw [if_pos hcoarse]
      have hcalls := placeCalls_legal_iff (show (0 : ℤ) < 1 by decide) (by decide) ilat ilon
      refine hcalls.trans ⟨fun h => ⟨fun _ => h, fun hfine => ?_⟩, fun h => h.1 hcoarse⟩
      omega
    rw [if_neg hcoarse]
    split
    case isTrue hcoarse hfine =>
      have hcalls :=
        placeCalls_legal_iff (show (0 : ℤ) < 112000 by decide) (by decide) fineLat fineLon
      exact hcalls.trans ⟨fun h => ⟨fun h16 => absurd h16 hcoarse, fun _ => h⟩,
        fun h => h.2 hfine⟩
    case isFalse hcoarse hfine =>
      exact iff_of_true (by simp [fail]) ⟨fun h => absurd h hcoarse, fun h => absurd h hfine⟩

theorem shared_of_legal {calls : List Call} (h : ∀ call ∈ calls, Legal call) : Shared calls :=
  fun _ _ _ hmem => (h _ hmem).2

/-- A field, type by type. -/
theorem legal_iff (env : Environment) {field : Field} (hfield : field.Sound)
    (stats : Stats) {value : CString}
    (hvalue : value.length < 1024) :
    (∀ call ∈ (recipeEncodeField env field stats value).calls, Legal call) ↔
      Encodable env field stats value := by
  constructor
  · intro h
    refine ⟨?_, ?_, shared_of_legal h⟩
    · intro htype
      rw [recipeEncodeField, htype] at h
      exact (timedate_legal_iff env value).mp h
    · intro htype
      rw [recipeEncodeField, htype] at h
      exact (latlong_legal_iff env field value).mp h
  · rintro ⟨htime, hplace, hshared⟩
    rw [recipeEncodeField] at hshared ⊢
    cases htype : field.type with
    | integer =>
      rw [htype] at hshared
      exact integer_legal field stats hvalue hshared
    | text =>
      rw [htype] at hshared
      exact text_legal field stats hvalue hshared
    | timedate => exact (timedate_legal_iff env value).mpr (htime htype)
    | latlong => exact (latlong_legal_iff env field value).mpr (hplace htype)
    | float => exact float_legal env value
    | fixedpoint => exact boolean_legal value
    | boolean => exact boolean_legal value
    | timeofday => exact timeofday_legal env field value
    | magpitimedate => exact magpitimedate_legal value
    | date => exact date_legal field value
    | multiselect => exact multiselect_legal field value
    | enum => exact enum_legal hfield htype value
    | magpiuuid => exact magpiuuid_legal value
    | uuid => exact uuid_legal field value
    | subform => simp [fail]

end Fields

end Succinct.FieldAlphabets
