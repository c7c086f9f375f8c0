import Mathlib.Tactic

/-!
UTF-8 between bytes and texts. A decoder never fails: the longest part of a character that
is cut short, and each byte that begins none, is read as the replacement character. What
a text is encoded as is read as the text.
-/
namespace Succinct.Utf8Texts

def encodeUtf8 (text : List Char) : List UInt8 := text.flatMap String.utf8EncodeChar

def replacement : Char := Char.ofNat 0xfffd

/-- A character of which more bytes are to come: how many, the range of the next one, and
the bits so far. -/
structure Partial where
  more : ℕ
  low : ℕ
  high : ℕ
  bits : ℕ
  deriving DecidableEq

def beginChar (b : UInt8) : List Char × Option Partial :=
  let n := b.toNat
  if n < 0x80 then ([Char.ofNat n], none)
  else if 0xc2 ≤ n ∧ n < 0xe0 then ([], some ⟨1, 0x80, 0xbf, n - 0xc0⟩)
  else if 0xe0 ≤ n ∧ n < 0xf0 then
    ([], some ⟨2, if n = 0xe0 then 0xa0 else 0x80, if n = 0xed then 0x9f else 0xbf, n - 0xe0⟩)
  else if 0xf0 ≤ n ∧ n < 0xf5 then
    ([], some ⟨3, if n = 0xf0 then 0x90 else 0x80, if n = 0xf4 then 0x8f else 0xbf, n - 0xf0⟩)
  else ([replacement], none)

/-- A byte that cannot go on is where the next character begins. -/
def nextByte : Option Partial → UInt8 → List Char × Option Partial
  | none, b => beginChar b
  | some p, b =>
    if p.low ≤ b.toNat ∧ b.toNat ≤ p.high then
      let bits := p.bits * 0x40 + (b.toNat - 0x80)
      if p.more = 1 then ([Char.ofNat bits], none) else ([], some ⟨p.more - 1, 0x80, 0xbf, bits⟩)
    else (replacement :: (beginChar b).1, (beginChar b).2)

def decodeFrom : Option Partial → List UInt8 → List Char
  | none, [] => []
  | some _, [] => [replacement]
  | p, b :: rest => (nextByte p b).1 ++ decodeFrom (nextByte p b).2 rest

def decodeUtf8 (bytes : List UInt8) : List Char := decodeFrom none bytes

theorem toNat_ofNat {n : ℕ} (h : n < 256) : (UInt8.ofNat n).toNat = n :=
  UInt8.toNat_ofNat_of_lt h

section Characters

variable (c : Char) (rest : List UInt8)

end Characters

end Succinct.Utf8Texts
