import Succinct.CStrings

/-!
xml2stripped of forms/dexml.c. A scanner over the bytes of the document finds lines
of the stripped form, and snprintf puts each of them into the buffer, at an offset
that grows by the length of the whole line. The buffer holds an empty string at first.
-/
namespace Succinct.StrippedForms

open CStrings

def cstr (bytes : List UInt8) : CString := bytes.takeWhile (· ≠ 0)

/-- name is the tag that is being read, and tag the one that was read last. -/
structure Scanner where
  inSubform : ℤ := 0
  inInstance : ℤ := 0
  name : List UInt8 := []
  tag : List UInt8 := []
  value : List UInt8 := []
  interestingTag : Bool := false
  inTag : Bool := false
  exitTag : CString := []

def opens (start : CString) (tag : List UInt8) : Bool := strncasecmp start (cstr tag) start.length

def closes (start : CString) (tag : List UInt8) : Bool :=
  opens start tag.tail && tag.head? = some 47

/-- "%s id=\"%[^\"]\" version=\"%[^\"]\"" -/
def formFormat : List Directive :=
  [.word, .space, .char 105, .char 100, .char 61, .char 34, .upTo 34, .char 34, .space] ++
    (text "version=").map .char ++ [.char 34, .upTo 34]

def openingBrace : CString := [123, 10]

def closingBrace : CString := [125, 10]

def valueLines (s : Scanner) : List CString :=
  if !s.interestingTag || s.value = [] then []
  else if s.value = [126] then []
  else if opens (text "dd:subform") s.tag then []
  else [cstr s.tag ++ 61 :: cstr s.value ++ [10]]

def openTag (s : Scanner) : List CString × Scanner :=
  (valueLines s, { s with inTag := true, interestingTag := false, value := if s.interestingTag
    then [] else s.value })

def formTag (s : Scanner) (tag : List UInt8) : Scanner :=
  let s := if opens (text "form") tag then { s with inInstance := s.inInstance + 1 } else s
  if closes (text "form") tag then { s with inInstance := s.inInstance - 1 } else s

def subformTag (s : Scanner) (tag : List UInt8) : List CString × Scanner :=
  let start := opens (text "dd:subform") tag
  let s := if start then { s with inSubform := s.inSubform + 1 } else s
  let stop := closes (text "dd:subform") tag
  let s := if stop then { s with inSubform := s.inSubform - 1 } else s
  ((if start then [openingBrace] else []) ++ (if stop then [closingBrace] else []) ++
    (if opens (text "data") tag && s.inSubform ≠ 0 then [openingBrace] else []) ++
    (if closes (text "data") tag && s.inSubform ≠ 0 then [closingBrace] else []), s)

/-- Outside of an instance a tag may have the name of an ODK form in its attributes. -/
def odkTag (s : Scanner) (tag : List UInt8) : List CString × Scanner :=
  if s.inInstance ≠ 0 then ([], s)
  else
    match sscanf formFormat (cstr tag) with
    | [.string exitTag, .string namePart, .string versionPart] =>
      ([text "formid=" ++ namePart ++ 46 :: versionPart ++ [10]],
        { s with exitTag := exitTag, inInstance := s.inInstance + 1 })
    | .string exitTag :: _ => ([], { s with exitTag := exitTag })
    | _ => ([], s)

def exitInstance (s : Scanner) (tag : List UInt8) : Scanner :=
  if s.inInstance ≠ 0 ∧ s.exitTag ≠ [] ∧ tag.head? = some 47 ∧
    strcasecmp (cstr tag.tail) s.exitTag then
    { s with inInstance := s.inInstance - 1 }
  else s

/-- With the name of a form, only its tags are looked for. -/
def namedTag (formName : CString) (s : Scanner) (tag : List UInt8) : Scanner :=
  let s := if opens formName tag then { s with inInstance := s.inInstance + 1 } else s
  if closes formName tag then { s with inInstance := s.inInstance - 1 } else s

def closeTag (formName : Option CString) (s : Scanner) : List CString × Scanner :=
  let tag := s.name
  if tag = [] then ([], { s with inTag := false })
  else
    let s := { s with
      inTag := false
      name := []
      tag := tag
      interestingTag := decide (tag.head? ≠ some 47 ∧ s.inInstance ≠ 0 ∧ tag.getLast? ≠ some 47) }
    match formName with
    | some formName => ([], namedTag formName s tag)
    | none =>
      let (braces, s) := subformTag (formTag s tag) tag
      let (forms, s) := odkTag s tag
      (braces ++ forms, exitInstance s tag)

def scanByte (formName : Option CString) (s : Scanner) (c : UInt8) : List CString × Scanner :=
  if c = 10 ∨ c = 13 then ([], s)
  else if c = 60 then openTag s
  else if c = 62 then closeTag formName s
  else ([], { s with
    name := if s.inTag ∧ s.name.length < 1000 then s.name ++ [c] else s.name
    value := if s.interestingTag ∧ (s.value ≠ [] ∨ c ≠ 32) ∧ s.value.length < 1000
      then s.value ++ [c] else s.value })

structure Stripped where
  ofs : ℕ
  text : CString
  calls : List ℕ

/-- snprintf stores what there is room for, and returns the length of all of it.
Without room nothing is stored; where the size has become negative, it is outside
of the buffer. -/
def snprintf (strippedSize : ℕ) (out : Stripped) (line : CString) : Stripped where
  ofs := out.ofs + line.length
  text := if out.ofs < strippedSize
    then out.text.take out.ofs ++ line.take (strippedSize - out.ofs - 1) else out.text
  calls := out.calls ++ [out.ofs]

def stripLoop (formName : Option CString) (strippedSize : ℕ) : List UInt8 → Scanner →
    Stripped → Stripped
  | [], _, out => out
  | c :: rest, s, out =>
    let (lines, s) := scanByte formName s c
    stripLoop formName strippedSize rest s (lines.foldl (snprintf strippedSize) out)

/-- The bytes that the loop sees: all but the last, and where char is signed none
from a negative one on that is not -1. -/
def seenBytes (signedChar : Bool) (xml : List UInt8) : List UInt8 :=
  xml.dropLast.takeWhile fun c => !signedChar || decide (c < 0x80) || decide (c = 0xff)

def xml2stripped (signedChar : Bool) (formName : Option CString) (xml : List UInt8)
    (strippedSize : ℕ) : Stripped :=
  stripLoop formName strippedSize (seenBytes signedChar xml) {} ⟨0, [], []⟩

def scanLines (formName : Option CString) : List UInt8 → Scanner → List CString
  | [], _ => []
  | c :: rest, s => (scanByte formName s c).1 ++ scanLines formName rest (scanByte formName s c).2

def strippedText (signedChar : Bool) (formName : Option CString) (xml : List UInt8) : CString :=
  (scanLines formName (seenBytes signedChar xml) {}).flatten

theorem stripLoop_eq (formName : Option CString) (strippedSize : ℕ) (bytes : List UInt8)
    (s : Scanner) (out : Stripped) :
    stripLoop formName strippedSize bytes s out =
      (scanLines formName bytes s).foldl (snprintf strippedSize) out := by
  induction bytes generalizing s out with
  | nil => rfl
  | cons c rest ih =>
    rw [stripLoop, scanLines, List.foldl_append]
    exact ih _ _

/-- Every offset of a call lies before the end of the text that is printed, and the
buffer has the whole of it as long as there is room. -/
theorem snprintf_lines (strippedSize : ℕ) (lines : List CString) (out : Stripped)
    (htext : out.ofs < strippedSize → out.text.length = out.ofs) :
    (lines.foldl (snprintf strippedSize) out).ofs = out.ofs + lines.flatten.length ∧
    (∀ ofs ∈ (lines.foldl (snprintf strippedSize) out).calls,
      ofs ∈ out.calls ∨ ofs ≤ out.ofs + lines.flatten.length) ∧
    (out.ofs + lines.flatten.length < strippedSize →
      (lines.foldl (snprintf strippedSize) out).text = out.text ++ lines.flatten) := by
  induction lines generalizing out with
  | nil => exact ⟨rfl, fun ofs h => Or.inl h, fun _ => (List.append_nil _).symm⟩
  | cons line lines ih =>
    rw [List.foldl_cons, List.flatten_cons, List.length_append]
    have htext' : (snprintf strippedSize out line).ofs < strippedSize →
        (snprintf strippedSize out line).text = out.text ++ line := by
      intro hroom
      change out.ofs + line.length < strippedSize at hroom
      have hlength := htext (by omega)
      rw [snprintf, if_pos (by omega), List.take_of_length_le hlength.le,
        List.take_of_length_le (by omega)]
    obtain ⟨hofs, hcalls, hwhole⟩ := ih (snprintf strippedSize out line) (fun hroom => by
      rw [htext' hroom, List.length_append]
      change out.ofs + line.length < strippedSize at hroom
      rw [htext (by omega)]
      rfl)
    have hnext : (snprintf strippedSize out line).ofs = out.ofs + line.length := rfl
    refine ⟨by rw [hofs, hnext, Nat.add_assoc], ?_, ?_⟩
    · intro ofs h
      rcases hcalls ofs h with hbefore | hle
      · rcases List.mem_append.mp hbefore with hbefore | hhere
        · exact Or.inl hbefore
        · obtain rfl := List.mem_singleton.mp hhere
          exact Or.inr (Nat.le_add_right _ _)
      · exact Or.inr (by omega)
    · intro hroom
      rw [hwhole (by omega), htext' (by omega), List.append_assoc]

/-- Stripping stays in its buffer exactly where the whole text of the stripped form,
with its terminating 0, fits in. -/
theorem stripped_within_iff (signedChar : Bool) (formName : Option CString) (xml : List UInt8)
    (strippedSize : ℕ) :
    ((∀ ofs ∈ (xml2stripped signedChar formName xml strippedSize).calls, ofs < strippedSize) ∧
      (xml2stripped signedChar formName xml strippedSize).ofs + 1 ≤ strippedSize ∧
      (xml2stripped signedChar formName xml strippedSize).ofs =
        (xml2stripped signedChar formName xml strippedSize).text.length) ↔
      (strippedText signedChar formName xml).length < strippedSize := by
  obtain ⟨hofs, hcalls, hwhole⟩ := snprintf_lines strippedSize
    (scanLines formName (seenBytes signedChar xml) {}) ⟨0, [], []⟩ (fun _ => rfl)
  rw [← stripLoop_eq] at hofs hcalls hwhole
  simp only [Nat.zero_add, List.nil_append] at hofs hcalls hwhole
  rw [xml2stripped, strippedText]
  constructor
  · rintro ⟨-, hle, -⟩
    rw [hofs] at hle
    exact hle
  · intro hfits
    refine ⟨?_, ?_, ?_⟩
    · intro ofs h
      rcases hcalls ofs h with hnone | hle
      · cases hnone
      · exact lt_of_le_of_lt hle hfits
    · rw [hofs]
      exact hfits
    · rw [hofs, hwhole hfits]

/-- A buffer of four bytes, and a line of eight. -/
theorem stripped_beyond : ¬ ∀ (signedChar : Bool) (formName : Option CString) (xml : List UInt8)
    (strippedSize : ℕ), 0 < strippedSize →
      (∀ ofs ∈ (xml2stripped signedChar formName xml strippedSize).calls, ofs < strippedSize) ∧
      (xml2stripped signedChar formName xml strippedSize).ofs + 1 ≤ strippedSize ∧
      (xml2stripped signedChar formName xml strippedSize).ofs =
        (xml2stripped signedChar formName xml strippedSize).text.length := by
  intro h
  have hbad := (h true none (text "<form><a>hello</a></form>") 4 (by decide)).2.1
  exact absurd hbad (by decide +kernel)

end Succinct.StrippedForms
