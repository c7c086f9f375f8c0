import Mathlib.Data.List.GetD
import Mathlib.Tactic.Linarith

/-!
The character sets of forms/charset.c, and the classes of ctype.h in the C
locale. A character is its code; the arrays chars and printableChars end with
the 0 of their string literal, wordChars does not.
-/
namespace Succinct.Charset

def tolower (c : ℕ) : ℕ := if 65 ≤ c ∧ c ≤ 90 then c + 32 else c

def toupper (c : ℕ) : ℕ := if 97 ≤ c ∧ c ≤ 122 then c - 32 else c

def isupper (c : ℕ) : Bool := decide (65 ≤ c ∧ c ≤ 90)

def isalpha (c : ℕ) : Bool := decide (65 ≤ c ∧ c ≤ 90 ∨ 97 ≤ c ∧ c ≤ 122)

def isDigit (c : ℕ) : Bool := decide (48 ≤ c ∧ c ≤ 57)

def lowerLetters : List ℕ := (List.range 26).map (97 + ·)

def upperLetters : List ℕ := (List.range 26).map (65 + ·)

def digits : List ℕ := (List.range 10).map (48 + ·)

def punctuation : List ℕ :=
  [32, 33, 64, 35, 36, 37, 94, 38, 42, 40, 41, 95, 43, 45, 61, 126, 96, 91, 123, 93, 125, 92, 124,
    59, 58, 39, 34, 60, 44, 62, 46, 63, 47, 13, 10, 9]

def CHARCOUNT : ℕ := 65

def PRINTABLECHARCOUNT : ℕ := CHARCOUNT - 2 + 26 + 10

/-- The place holder of the characters above 0x7f. -/
def unicodeMark : ℕ := 85

/-- 48 is the place holder of the ten digits. -/
def chars : List ℕ := lowerLetters ++ punctuation ++ [48, unicodeMark, 0]

def printableChars : List ℕ := lowerLetters ++ upperLetters ++ punctuation ++ digits ++ [0]

def wordChars : List ℕ := lowerLetters ++ digits

def indexIn (table : List ℕ) (c : ℕ) : ℤ := if c ∈ table then table.idxOf c else -1

def charIdx (c : ℕ) : ℤ :=
  let c := if c > 0x7f then unicodeMark else c
  indexIn chars (if 49 ≤ c ∧ c ≤ 57 then 48 else c)

def printableCharIdx (c : ℕ) : ℤ := indexIn printableChars c

def charInWord (c : ℕ) : Bool := decide (c < 0x80 ∧ tolower c ∈ wordChars)

theorem length_chars : chars.length = CHARCOUNT := by decide

theorem length_printableChars : printableChars.length = PRINTABLECHARCOUNT := by decide

theorem indexIn_nonneg (table : List ℕ) (c : ℕ) (h : 0 ≤ indexIn table c) : c ∈ table := by
  by_contra hnot
  rw [indexIn, if_neg hnot] at h
  omega

theorem indexIn_spec (table : List ℕ) (c : ℕ) (h : 0 ≤ indexIn table c) :
    (indexIn table c).toNat < table.length ∧ table.getD (indexIn table c).toNat 0 = c := by
  have hmem := indexIn_nonneg table c h
  have hlt := List.idxOf_lt_length_of_mem hmem
  rw [indexIn, if_pos hmem, Int.toNat_natCast]
  refine ⟨hlt, ?_⟩
  rw [List.getD_eq_getElem _ _ hlt]
  exact List.getElem_idxOf hlt

def folded (c : ℕ) : ℕ := if 49 ≤ c ∧ c ≤ 57 then 48 else c

theorem charIdx_ascii (c : ℕ) (hc : c < 0x80) : charIdx c = indexIn chars (folded c) := by
  unfold charIdx folded
  simp only
  rw [if_neg (show ¬ c > 0x7f by omega)]

theorem charIdx_spec (c : ℕ) (hc : c < 0x80) (h : 0 ≤ charIdx c) :
    (charIdx c).toNat < CHARCOUNT ∧ chars.getD (charIdx c).toNat 0 = folded c := by
  rw [charIdx_ascii c hc] at h ⊢
  rw [← length_chars]
  exact indexIn_spec chars (folded c) h

theorem printableCharIdx_spec (c : ℕ) (h : 0 ≤ printableCharIdx c) :
    (printableCharIdx c).toNat < PRINTABLECHARCOUNT ∧
      printableChars.getD (printableCharIdx c).toNat 0 = c := by
  rw [← length_printableChars]
  exact indexIn_spec printableChars c h

theorem tolower_lt (c : ℕ) (hc : c < 0x80) : tolower c < 0x80 := by
  unfold tolower
  split <;> omega

theorem tolower_tolower (c : ℕ) : tolower (tolower c) = tolower c := by
  unfold tolower
  split
  · rw [if_neg (by omega)]
  · rfl

theorem tolower_ne_mark (c : ℕ) : tolower c ≠ unicodeMark := by
  unfold tolower unicodeMark
  split <;> omega

theorem isalpha_tolower (c : ℕ) : isalpha (tolower c) = isalpha c := by
  unfold isalpha tolower
  congr 1
  split
  · apply propext
    omega
  · rfl

theorem charInWord_tolower (c : ℕ) : charInWord (tolower c) = charInWord c := by
  unfold charInWord
  rw [tolower_tolower]
  congr 2
  unfold tolower
  apply propext
  split <;> omega

theorem tolower_of_not_alpha (c : ℕ) (h : isalpha c = false) : tolower c = c := by
  unfold isalpha at h
  rw [decide_eq_false_iff_not] at h
  exact if_neg (by omega)

theorem charInWord_of_alpha (c : ℕ) (h : isalpha c = true) : charInWord c = true := by
  unfold isalpha at h
  rw [decide_eq_true_eq] at h
  have hbounds : 97 ≤ tolower c ∧ tolower c ≤ 122 := by
    unfold tolower
    split <;> omega
  have hmem : tolower c ∈ wordChars := by
    apply List.mem_append_left
    exact List.mem_map.mpr ⟨tolower c - 97, List.mem_range.mpr (by omega), by omega⟩
  exact decide_eq_true ⟨by omega, hmem⟩

/-- The case of a letter and its lower-case form give the letter back. -/
theorem recase (c : ℕ) :
    (if isupper c = true then toupper (tolower c) else tolower c) = c := by
  unfold isupper toupper tolower
  simp only [decide_eq_true_eq]
  split
  · rw [if_pos (by omega)]
    omega
  · rfl

end Succinct.Charset
