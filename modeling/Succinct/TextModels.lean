import Succinct.Charset
import Succinct.Interpolative

/-!
The text compressor of forms/smac.c with its layers: unicode.c, nonalpha.c,
lowercasealpha.c, case.c and packedascii.c. An encoder is the list of the
range_encode calls it makes on c; its return code, where a caller looks at
it, comes first. A text is the list of its bytes before the terminating 0,
and reading past them gives 0. Code units are numbers below 2^16.

Left out: the entropy log and the totals of the stats handle. Where a failed
decoding call (-1) is used as an index, index 0 is read instead.
-/
namespace Succinct.TextModels

open Arithmetic RangeMessages RangeCodecs Interpolative Charset

/-- What the stats handle holds or computes from the statistics file. The
tables of cases have one entry for an alphabet of two. -/
structure Stats where
  messagelengths : List ℕ
  extractVector : List ℕ → List ℕ
  unicodePage : ℕ → List ℕ
  casestartofmessage : ℕ
  casestartofword2 : Bool → ℕ
  casestartofword3 : Bool → Bool → ℕ
  caseposn1 : ℕ
  caseposn2 : Bool → ℕ → ℕ

/-- getUnicodeStatistics returns NULL for other code pages. -/
def legalPage (codePage : ℤ) : Bool := decide (1 ≤ codePage ∧ codePage ≤ 511)

def byteAt (m : List UInt8) (i : ℕ) : ℕ := (m.getD i 0).toNat

def utf8toutf16Loop (m : List UInt8) (len : ℕ) : ℕ → ℕ → Option (List ℕ)
  | 0, _ => some []
  | fuel + 1, i =>
    if len ≤ i then some []
    else
      let b := byteAt m i
      if b / 0x40 = 2 then none
      else if b / 0x40 < 2 then (utf8toutf16Loop m len fuel (i + 1)).map (b :: ·)
      else if b < 0xe0 then
        -- the test for a sequence cut by the end asks for one byte only
        let unicode := b % 0x20 * 0x40 + byteAt m (i + 1) % 0x40
        (utf8toutf16Loop m len fuel (i + 2)).map (unicode :: ·)
      else if b < 0xf8 then
        if len - i < 2 then none
        else
          let unicode :=
            b % 0x10 * 0x1000 + byteAt m (i + 1) % 0x40 * 0x40 + byteAt m (i + 2) % 0x40
          (utf8toutf16Loop m len fuel (i + 3)).map (unicode :: ·)
      else none

def utf8toutf16 (m : List UInt8) (len : ℕ) : Option (List ℕ) := utf8toutf16Loop m len len 0

def utf16toutf8Loop : List ℕ → List UInt8 → List UInt8
  | [], out => out
  | codepoint :: rest, out =>
    if codepoint < 0x80 then
      if out.length > 1023 then out else utf16toutf8Loop rest (out ++ [codepoint.toUInt8])
    else if codepoint < 0x0800 then
      if out.length > 1022 then out
      else utf16toutf8Loop rest (out ++
        [(0xc0 + codepoint / 0x40).toUInt8, (0x80 + codepoint % 0x40).toUInt8])
    else if out.length > 1021 then out
    else utf16toutf8Loop rest (out ++
      [(0xe0 + codepoint / 0x1000).toUInt8, (0x80 + codepoint / 0x40 % 0x40).toUInt8,
        (0x80 + codepoint % 0x40).toUInt8])

def utf16toutf8 (s : List ℕ) : List UInt8 := utf16toutf8Loop s []

def probPackedASCII : ℕ := 838860

def probNoNonAlpha : ℕ := 15938354

def nonAlpha (c : ℕ) : Bool := decide (c < 0x80 ∧ charIdx (tolower c) < 0)

def stripNonAlpha (s : List ℕ) : List ℕ :=
  s.filter fun c => decide (c > 0x80 ∨ charIdx (tolower c) ≥ 0)

def nonAlphaPositions (m : List ℕ) : List ℕ :=
  (List.range m.length).filter fun i => nonAlpha (m.getD i 0)

def encodeNonAlpha (m : List ℕ) : List Step :=
  let v := m.filter nonAlpha
  let pos := nonAlphaPositions m
  if pos = [] then [.symbol [probNoNonAlpha] 2 0]
  else
    [.symbol [probNoNonAlpha] 2 1, .equiprobable (m.length + 1) pos.length] ++
      icEncodeRecursive (fun i => pos.getD i.toNat 0) pos.length m.length ++
      v.map fun c => .equiprobable 256 c

def decodeBytes : ℕ → Decoder (List ℕ)
  | 0 => pure []
  | n + 1 => do
    let r ← decodeEqui 256
    let rest ← decodeBytes n
    pure ((r % 0x100).toNat :: rest)

structure NonAlpha where
  positions : ℤ → ℤ
  values : List ℕ
  count : ℤ

def decodeNonAlpha (messageLength : ℤ) : Decoder NonAlpha := do
  let containsNonAlpha ← decodeSym [probNoNonAlpha] 2
  if containsNonAlpha = 0 then pure ⟨fun _ => 0, [], 0⟩
  else do
    let count ← decodeEqui (messageLength + 1).toNat
    let positions ← icDecodeRecursive (fun _ => 0) count messageLength
    let values ← decodeBytes count.toNat
    pure ⟨positions, values, count⟩

def stripCase (s : List ℕ) : List ℕ := s.map fun c => if c < 0x80 then tolower c else c

def mungeFrom : ℕ → List ℕ → List ℕ
  | before, c :: next :: rest =>
    let c :=
      if c < 0x80 ∧ tolower c = 105 ∧ !isalpha before ∧ !isalpha next then c ^^^ 0x20 else c
    c :: mungeFrom c (next :: rest)
  | _, s => s

/-- Isolated i's change their case, the first and the last character apart. -/
def mungeCase : List ℕ → List ℕ
  | [] => []
  | c :: rest => c :: mungeFrom c rest

def encodePage (h : Stats) (lastCodePage : ℕ) (firstUnicode : Bool) (t : ℕ) : List Step × Bool :=
  if firstUnicode then ([.equiprobable 511 (t / 0x80 - 1)], true)
  else if t / 0x80 ≠ lastCodePage then
    ([.symbol (h.unicodePage lastCodePage) (128 + 512) (128 + t / 0x80)], true)
  else ([], false)

/-- The context of a character is the text before it. -/
def encodeLCAlphaSpace (h : Stats) : List ℕ → List ℕ → ℕ → Bool → List Step
  | _, [], _, _ => []
  | context, t :: rest, lastCodePage, firstUnicode =>
    .symbol (h.extractVector context) CHARCOUNT (charIdx t).toNat ::
      if isDigit t then
        .equiprobable 10 (t - 48) ::
          encodeLCAlphaSpace h (context ++ [t]) rest lastCodePage firstUnicode
      else if t = unicodeMark ∨ t > 0x7f then
        let page := encodePage h lastCodePage firstUnicode t
        page.1 ++
          .symbol (h.unicodePage (t / 0x80)) (if page.2 then 128 else 128 + 512) (t % 0x80) ::
            encodeLCAlphaSpace h (context ++ [t]) rest (t / 0x80) false
      else encodeLCAlphaSpace h (context ++ [t]) rest lastCodePage firstUnicode

def decodeUnicode (h : Stats) (lastCodePage : ℤ) (firstUnicode : Bool) :
    Decoder (Option (ℤ × ℤ)) := do
  let (page, symbol) ← if firstUnicode then do
      let p ← decodeEqui 511
      let symbol ← decodeSym (h.unicodePage (p + 1).toNat) 128
      pure (p + 1, symbol)
    else do
      let symbol ← decodeSym (h.unicodePage lastCodePage.toNat) (128 + 512)
      pure (lastCodePage, symbol)
  if symbol > 127 then
    if legalPage (symbol - 128) then do
      let inner ← decodeSym (h.unicodePage (symbol - 128).toNat) 128
      pure (some (symbol - 128, inner))
    else pure none
  else pure (some (page, symbol))

/-- The characters that are not reached when the decoder gives up are 0. -/
def decodeLCAlphaSpace (h : Stats) : ℕ → List ℕ → ℤ → Bool → Decoder (List ℕ)
  | 0, s, _, _ => pure s
  | n + 1, s, lastCodePage, firstUnicode => do
    let symbol ← decodeSym (h.extractVector s) CHARCOUNT
    let t := chars.getD symbol.toNat 0
    if isDigit t then do
      let digit ← decodeEqui 10
      decodeLCAlphaSpace h n (s ++ [(48 + digit).toNat]) lastCodePage firstUnicode
    else if t = unicodeMark ∨ t > 0x7f then do
      match ← decodeUnicode h lastCodePage firstUnicode with
      | none => pure (s ++ t :: List.replicate n 0)
      | some (page, inner) =>
        decodeLCAlphaSpace h n (s ++ [((page * 0x80 + inner) % 0x10000).toNat]) page false
    else decodeLCAlphaSpace h n (s ++ [t]) lastCodePage firstUnicode

structure CaseState where
  wordNumber : ℕ := 0
  wordPosn : ℤ := -1
  lastWordInitialCase : Bool := false
  lastWordInitialCase2 : Bool := false
  lastCase : Bool := false

def CaseState.leaveWord (st : CaseState) : CaseState :=
  { st with wordPosn := -1, lastCase := false }

def CaseState.enterLetter (st : CaseState) : CaseState :=
  { st with
    wordNumber := if st.wordPosn < 0 then st.wordNumber + 1 else st.wordNumber
    wordPosn := min (st.wordPosn + 1) 79 }

def CaseState.setCase (st : CaseState) (upper : Bool) : CaseState :=
  { st with
    lastCase := upper
    lastWordInitialCase2 := if st.wordPosn = 0 then st.lastWordInitialCase
      else st.lastWordInitialCase2
    lastWordInitialCase := if st.wordPosn = 0 then upper else st.lastWordInitialCase }

def usedPosn (frequencies : ℕ → ℕ) : ℕ → ℕ
  | 0 => 0
  | pos + 1 => if frequencies (pos + 1) = 0 then usedPosn frequencies pos else pos + 1

def caseFrequency (h : Stats) (i : ℕ) (st : CaseState) : ℕ :=
  if st.wordPosn = 0 then
    if i = 0 then h.casestartofmessage
    else if st.wordNumber > 2
      then h.casestartofword3 st.lastWordInitialCase2 st.lastWordInitialCase
    else if st.wordNumber > 1 then h.casestartofword2 st.lastWordInitialCase
    else h.caseposn1
  else h.caseposn2 st.lastCase (usedPosn (h.caseposn2 st.lastCase) st.wordPosn.toNat)

def encodeCaseModel1 (h : Stats) : ℕ → CaseState → List ℕ → List Step
  | _, _, [] => []
  | i, st, c :: rest =>
    if !charInWord c then encodeCaseModel1 h (i + 1) st.leaveWord rest
    else if isalpha c then
      .symbol [caseFrequency h i st.enterLetter] 2 (isupper c).toNat ::
        encodeCaseModel1 h (i + 1) (st.enterLetter.setCase (isupper c)) rest
    else encodeCaseModel1 h (i + 1) st rest

/-- The line with its case restored; none where the source exits. -/
def decodeCaseModel1 (h : Stats) : ℕ → CaseState → List ℕ → Decoder (Option (List ℕ))
  | _, _, [] => pure (some [])
  | i, st, c :: rest =>
    if !charInWord c then do
      let line ← decodeCaseModel1 h (i + 1) st.leaveWord rest
      pure (line.map (c :: ·))
    else if isalpha c then do
      let upper ← decodeSym [caseFrequency h i st.enterLetter] 2
      if upper = -1 ∧ st.enterLetter.wordPosn ≠ 0 then pure none
      else do
        let c := if upper = 1 then toupper c else c
        let line ← decodeCaseModel1 h (i + 1) (st.enterLetter.setCase (isupper c)) rest
        pure (line.map (c :: ·))
    else do
      let line ← decodeCaseModel1 h (i + 1) st rest
      pure (line.map (c :: ·))

def encodePackedASCII : List UInt8 → ℤ × List Step
  | [] => (0, [])
  | b :: rest =>
    let v := printableCharIdx b.toNat
    if v < 0 then (-1, [])
    else
      let r := encodePackedASCII rest
      (r.1, .equiprobable PRINTABLECHARCOUNT v.toNat :: r.2)

def decodePackedASCII : ℕ → Decoder (List UInt8)
  | 0 => pure []
  | n + 1 => do
    let symbol ← decodeEqui PRINTABLECHARCOUNT
    let rest ← decodePackedASCII n
    pure ((printableChars.getD symbol.toNat 0).toUInt8 :: rest)

/-- The packed text is the whole of m, whatever length is passed. -/
def stats3CompressRadixAppend (h : Stats) (m : List UInt8) (len : ℕ) : ℤ × List Step :=
  let r := encodePackedASCII m
  (r.1, [.equiprobable 2 1, .equiprobable 2 0, .symbol [probPackedASCII] 2 0,
    .symbol h.messagelengths 1024 len] ++ r.2)

def stats3CompressModel1Append (h : Stats) (m : List UInt8) (len : ℕ) : ℤ × List Step :=
  match utf8toutf16 m len with
  | none => (-1, [])
  | some utf16 =>
    let alpha := stripNonAlpha utf16
    (0, [.equiprobable 2 1, .equiprobable 2 0, .symbol [probPackedASCII] 2 1,
        .symbol h.messagelengths 1024 utf16.length] ++
      encodeNonAlpha utf16 ++ encodeLCAlphaSpace h [] (stripCase alpha) 1 true ++
      encodeCaseModel1 h 0 {} (mungeCase alpha))

def stats3CompressUncompressedAppend (m : List UInt8) (len : ℕ) : ℤ × List Step :=
  (0, [.equiprobable 2 (byteAt m 0 / 0x80), .equiprobable 2 (byteAt m 0 / 0x40 % 2),
      .equiprobable 64 (byteAt m 0 % 0x40)] ++
    ((List.range len).drop 1).map (fun i => .equiprobable 256 (byteAt m i)) ++
    [.equiprobable 256 255])

def trialBits (steps : List Step) : ℕ := (encoded (List.replicate 1024 0) steps).bitsUsed

def stats3CompressAppend (h : Stats) (m : List UInt8) (len : ℕ) : ℤ × List Step :=
  let b1 := trialBits (stats3CompressModel1Append h m len).2
  let b2 := if (stats3CompressRadixAppend h m len).1 ≠ 0 then 999999
    else trialBits (stats3CompressRadixAppend h m len).2
  let b3 := 999999
  if b1 < b2 ∧ b1 < b3 then stats3CompressModel1Append h m len
  else if b2 < b3 ∨ byteAt m 0 / 0x80 = 1 then stats3CompressRadixAppend h m len
  else stats3CompressUncompressedAppend m len

structure Text where
  bytes : List UInt8
  lenOut : ℤ
  deriving DecidableEq

def decodeRaw : ℕ → List UInt8 → Decoder (List UInt8)
  | 0, m => pure m
  | fuel + 1, m =>
    if m.getLast? = some 0 then pure m
    else do
      let r ← decodeEqui 256
      if r = -1 ∨ r = 0xff then pure m else decodeRaw fuel (m ++ [r.toNat.toUInt8])

def reintegrate (s : NonAlpha) : ℕ → ℕ → ℕ → List ℕ → List ℕ
  | 0, _, _, _ => []
  | n + 1, i, pointer, alpha =>
    if (pointer : ℤ) < s.count ∧ s.positions pointer = i then
      s.values.getD pointer 0 :: reintegrate s n (i + 1) (pointer + 1) alpha
    else alpha.headD 0 :: reintegrate s n (i + 1) pointer alpha.tail

def stats3DecompressBits (h : Stats) : Decoder (Option Text) := do
  let b7 ← decodeEqui 2
  let b6 ← decodeEqui 2
  if ¬ (b7 ≠ 0 ∧ b6 = 0) then do
    let b5to0 ← decodeEqui 64
    let first := (b5to0 % 0x100).toNat ||| (b6 * 0x40 % 0x100).toNat ||| (b7 * 0x80 % 0x100).toNat
    let m ← decodeRaw 2047 [first.toUInt8]
    pure (some ⟨m, m.length - 1⟩)
  else do
    let notPackedASCII ← decodeSym [probPackedASCII] 2
    let encodedLength ← decodeSym h.messagelengths 1024
    if notPackedASCII = 0 then do
      let m ← decodePackedASCII encodedLength.toNat
      pure (some ⟨m, encodedLength⟩)
    else do
      let s ← decodeNonAlpha encodedLength
      let alphaCount := (encodedLength - s.count).toNat
      let lowerCaseAlphaChars ← decodeLCAlphaSpace h alphaCount [] 1 true
      let line ← decodeCaseModel1 h 0 {} lowerCaseAlphaChars
      pure (line.map fun line =>
        let m := utf16toutf8 (reintegrate s (alphaCount + s.count.toNat) 0 0 (mungeCase line))
        ⟨m, m.length⟩)

end Succinct.TextModels
