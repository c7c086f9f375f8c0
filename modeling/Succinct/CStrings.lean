import Mathlib.Data.Nat.Digits.Defs
import Mathlib.Data.List.TakeWhile
import Mathlib.Data.Int.DivMod
import Mathlib.Tactic.Linarith

/-!
C strings and the functions of the C library that scan them, in the C locale. A
string is the list of its bytes before the terminating 0. An int is an integer; a
result that does not fit is wrapped, as the processor does it.
-/
namespace Succinct.CStrings

abbrev CString := List UInt8

def text (s : String) : CString := s.toList.map fun c => UInt8.ofNat c.toNat

def int32 (z : ℤ) : ℤ := Int.bmod z 4294967296

def IsInt (z : ℤ) : Prop := -2147483648 ≤ z ∧ z < 2147483648

theorem int32_eq {z : ℤ} (h : IsInt z) : int32 z = z := by
  rw [int32, Int.bmod_eq_iff (by decide)]
  obtain ⟨hlow, hhigh⟩ := h
  exact ⟨by omega, by omega, by simp⟩

def tolower (b : UInt8) : UInt8 := if 65 ≤ b ∧ b ≤ 90 then b + 32 else b

def isspace (b : UInt8) : Bool := decide (b = 32 ∨ 9 ≤ b ∧ b ≤ 13)

def isdigit (b : UInt8) : Bool := decide (48 ≤ b ∧ b ≤ 57)

def strcasecmp (a b : CString) : Bool := decide (a.map tolower = b.map tolower)

def strncasecmp (a b : CString) (n : ℕ) : Bool := strcasecmp (a.take n) (b.take n)

theorem strcasecmp_iff {a b : CString} : strcasecmp a b = true ↔
    a.map tolower = b.map tolower := by
  rw [strcasecmp, decide_eq_true_eq]

theorem length_of_strcasecmp {a b : CString} (h : strcasecmp a b = true) :
    a.length = b.length := by
  have heq := congrArg List.length (strcasecmp_iff.mp h)
  rwa [List.length_map, List.length_map] at heq

def digitsValue (digits : CString) : ℕ := digits.foldl (fun n b => 10 * n + (b.toNat - 48)) 0

def saturate (z : ℤ) : ℤ := max (-9223372036854775808) (min 9223372036854775807 z)

theorem saturate_eq {z : ℤ} (h : IsInt z) : saturate z = z := by
  obtain ⟨hlow, hhigh⟩ := h
  rw [saturate]
  omega

def takeSign : CString → Bool × CString
  | 45 :: rest => (true, rest)
  | 43 :: rest => (false, rest)
  | s => (false, s)

def withSign (negative : Bool) (n : ℕ) : ℤ := if negative then -n else n

/-- strtol and strtoll for base 10; 0 where there are no digits. -/
def strtol (s : CString) : ℤ :=
  let (negative, digits) := takeSign (s.dropWhile isspace)
  saturate (withSign negative (digitsValue (digits.takeWhile isdigit)))

def atoi (s : CString) : ℤ := int32 (strtol s)

def scanInt (s : CString) : Option (ℤ × CString) :=
  let (negative, rest) := takeSign (s.dropWhile isspace)
  let digits := rest.takeWhile isdigit
  if digits = [] then none
  else some (int32 (saturate (withSign negative (digitsValue digits))), rest.dropWhile isdigit)

/-- Of the format of sscanf: white space, another character, %d, %s, and %[^c]. -/
inductive Directive where
  | space
  | char (b : UInt8)
  | int
  | word
  | upTo (stop : UInt8)

inductive Item where
  | int (n : ℤ)
  | string (s : CString)
  deriving DecidableEq

def sscanf : List Directive → CString → List Item
  | [], _ => []
  | .space :: format, s => sscanf format (s.dropWhile isspace)
  | .char b :: format, s => if s.head? = some b then sscanf format s.tail else []
  | .int :: format, s =>
    match scanInt s with
    | none => []
    | some (n, rest) => .int n :: sscanf format rest
  | .word :: format, s =>
    let rest := s.dropWhile isspace
    if rest = [] then []
    else .string (rest.takeWhile fun b => !isspace b) :: sscanf format
      (rest.dropWhile fun b => !isspace b)
  | .upTo stop :: format, s =>
    if s.takeWhile (· ≠ stop) = [] then []
    else .string (s.takeWhile (· ≠ stop)) :: sscanf format (s.dropWhile (· ≠ stop))

/-- A piece has the bytes of the text, but none at which it is split. -/
theorem of_mem_splitOnP (input : CString) (p : UInt8 → Bool) :
    ∀ piece ∈ input.splitOnP p, ∀ b ∈ piece, b ∈ input ∧ p b = false := by
  induction input with
  | nil => simp
  | cons b rest ih =>
    have hrest : ∀ piece ∈ rest.splitOnP p, ∀ c ∈ piece, c ∈ b :: rest ∧ p c = false :=
      fun piece hpiece c hc =>
      ⟨List.mem_cons_of_mem b (ih piece hpiece c hc).1, (ih piece hpiece c hc).2⟩
    rw [List.splitOnP_cons_eq_if_modifyHead]
    by_cases hend : p b = true
    · rw [if_pos hend]
      rintro piece hpiece c hc
      rcases List.mem_cons.mp hpiece with rfl | hpiece
      · cases hc
      · exact hrest piece hpiece c hc
    · rw [if_neg hend]
      obtain ⟨first, more, hmore⟩ := List.exists_cons_of_ne_nil (List.splitOnP_ne_nil p rest)
      rw [hmore] at hrest ⊢
      rintro piece hpiece c hc
      rw [List.modifyHead_cons] at hpiece
      rcases List.mem_cons.mp hpiece with rfl | hpiece
      · rcases List.mem_cons.mp hc with rfl | hc
        · exact ⟨List.mem_cons_self, Bool.eq_false_iff.mpr hend⟩
        · exact hrest first List.mem_cons_self c hc
      · exact hrest piece (List.mem_cons_of_mem first hpiece) c hc

theorem takeSign_suffix (s : CString) : (takeSign s).2 <:+ s := by
  unfold takeSign
  split
  · exact List.suffix_cons _ _
  · exact List.suffix_cons _ _
  · exact List.suffix_rfl

theorem scanInt_suffix {s rest : CString} {n : ℤ}
    (h : scanInt s = some (n, rest)) : rest <:+ s := by
  have hsign := takeSign_suffix (s.dropWhile isspace)
  rw [scanInt] at h
  simp only [Option.ite_none_left_eq_some, Option.some.injEq, Prod.mk.injEq] at h
  obtain ⟨-, -, rfl⟩ := h
  exact (List.dropWhile_suffix _).trans (hsign.trans (List.dropWhile_suffix _))

/-- The strings that are scanned are parts of the text. -/
theorem mem_of_sscanf {format : List Directive} {s t : CString}
    (h : .string t ∈ sscanf format s) :
    ∀ b ∈ t, b ∈ s := by
  induction format generalizing s with
  | nil => cases h
  | cons directive format ih =>
    have hsuffix : ∀ rest : CString, rest <:+ s →
      .string t ∈ sscanf format rest → ∀ b ∈ t, b ∈ s :=
      fun rest hrest hmem b hb => hrest.subset (ih hmem b hb)
    cases directive with
    | space => exact hsuffix _ (List.dropWhile_suffix _) h
    | char c =>
      rw [sscanf] at h
      split at h
      · exact hsuffix _ (List.tail_suffix _) h
      · cases h
    | int =>
      rw [sscanf] at h
      split at h
      case h_1 =>
        cases h
      case h_2 n rest hscan =>
        rcases List.mem_cons.mp h with h | h
        · cases h
        · exact hsuffix rest (scanInt_suffix hscan) h
    | word =>
      rw [sscanf] at h
      split at h
      · cases h
      · rcases List.mem_cons.mp h with h | h
        · obtain rfl := Item.string.inj h
          exact fun b hb => (List.dropWhile_suffix _).subset ((List.takeWhile_prefix _).subset hb)
        · exact hsuffix _ ((List.dropWhile_suffix _).trans (List.dropWhile_suffix _)) h
    | upTo stop =>
      rw [sscanf] at h
      split at h
      · cases h
      · rcases List.mem_cons.mp h with h | h
        · obtain rfl := Item.string.inj h
          exact fun b hb => (List.takeWhile_prefix _).subset hb
        · exact hsuffix _ (List.dropWhile_suffix _) h

def Decimal (s : CString) (n : ℤ) : Prop :=
  (takeSign s).2 ≠ [] ∧ (∀ b ∈ (takeSign s).2, isdigit b) ∧
    n = withSign (takeSign s).1 (digitsValue (takeSign s).2)

theorem not_isspace_of_isdigit {b : UInt8} (h : isdigit b = true) : isspace b = false := by
  rw [isdigit, decide_eq_true_eq] at h
  rw [isspace, decide_eq_false_iff_not]
  rintro (rfl | ⟨-, hle⟩)
  · exact absurd h.1 (by decide)
  · have hbad : (48 : UInt8) ≤ 13 := UInt8.le_trans h.1 hle
    exact absurd hbad (by decide)

/-- Neither a sign nor a digit is white space. -/
theorem dropWhile_decimal {s : CString} {n : ℤ} (h : Decimal s n) : s.dropWhile isspace = s := by
  obtain ⟨hne, hdigits, -⟩ := h
  match s with
  | [] => rfl
  | 45 :: rest => rfl
  | 43 :: rest => rfl
  | b :: rest =>
    unfold takeSign at hdigits
    split at hdigits
    case h_1 heq =>
      obtain ⟨rfl, -⟩ := List.cons.inj heq
      rfl
    case h_2 heq =>
      obtain ⟨rfl, -⟩ := List.cons.inj heq
      rfl
    case h_3 =>
      have hdigit := hdigits b List.mem_cons_self
      rw [List.dropWhile_cons, not_isspace_of_isdigit hdigit]
      rfl

theorem strtol_decimal {s : CString} {n : ℤ} (h : Decimal s n) : strtol s = saturate n := by
  have hdrop := dropWhile_decimal h
  obtain ⟨-, hdigits, rfl⟩ := h
  rw [strtol, hdrop]
  simp only
  rw [List.takeWhile_eq_self_iff.mpr hdigits]

theorem atoi_decimal {s : CString} {n : ℤ} (h : Decimal s n) (hn : IsInt n) : atoi s = n := by
  rw [atoi, strtol_decimal h, saturate_eq hn, int32_eq hn]

end Succinct.CStrings
