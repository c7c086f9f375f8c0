import Succinct.RecipeRecords
import Succinct.StrippedForms

/-!
A form is stripped to lines, and the lines are parsed to a record. The writer
takes tags and values of up to a thousand bytes each, and the reader passes
over a line of a thousand bytes without a word: a long answer is written and
then not read. All other pairs of a form without sub-forms are read in order.
-/
namespace Succinct.StrippedRecords

open CStrings StrippedForms RecipeRecords

abbrev Pair := CString × CString

def pairLine (p : Pair) : CString := p.1 ++ 61 :: p.2

def valuePairs (s : Scanner) : List Pair :=
  if !s.interestingTag || s.value = [] then []
  else if s.value = [126] then []
  else if opens (text "dd:subform") s.tag then []
  else [(cstr s.tag, cstr s.value)]

def writtenPairs (formName : Option CString) : List UInt8 → Scanner → List Pair
  | [], _ => []
  | c :: rest, s =>
    (if c = 60 then valuePairs s else []) ++ writtenPairs formName rest (scanByte formName s c).2

def elementNames (formName : Option CString) : List UInt8 → Scanner → List (List UInt8)
  | [], _ => []
  | c :: rest, s =>
    (if c = 62 ∧ s.name ≠ [] then [s.name] else []) ++
      elementNames formName rest (scanByte formName s c).2

/-- A name without attributes that opens no sub-form and begins no brace or
comment. -/
structure PlainName (name : List UInt8) : Prop where
  equals : 61 ∉ name
  start : name.head? ≠ some 123 ∧ name.head? ≠ some 125 ∧ name.head? ≠ some 35
  subform : opens (text "dd:subform") name = false ∧ closes (text "dd:subform") name = false

def short (p : Pair) : Bool := decide ((pairLine p).length < 1000)

/-- The parser rejects the text for its number of fields, or returns the pairs. -/
def Parsed (input : CString) (pairs : List Pair) : Prop :=
  (MAX_FIELDS < pairs.length ∧ parseStrippedWithSubforms input = none) ∨
    parseStrippedWithSubforms input = some (pairs.map fun p => .pair p.1 p.2)

section Writing

variable (formName : Option CString)

theorem valueLines_eq (s : Scanner) :
    valueLines s = (valuePairs s).map fun p => pairLine p ++ [10] := by
  unfold valueLines valuePairs
  split
  · rfl
  · split
    · rfl
    · split
      · rfl
      · simp [pairLine]

def Clean (bytes : List UInt8) : Prop := ∀ b ∈ bytes, b ≠ 0 ∧ lineEnd b = false

structure Reading (s : Scanner) : Prop where
  name : Clean s.name
  value : Clean s.value
  tag : s.interestingTag = true → s.tag ≠ [] ∧ Clean s.tag ∧ PlainName s.tag
  subform : s.inSubform = 0

theorem Clean.snoc {bytes : List UInt8} {c : UInt8} (h : Clean bytes) (hc : c ≠ 0)
    (hline : ¬ (c = 10 ∨ c = 13)) : Clean (bytes ++ [c]) := by
  intro b hb
  rcases List.mem_append.mp hb with hb | hb
  · exact h b hb
  · rw [List.mem_singleton.mp hb]
    refine ⟨hc, ?_⟩
    rw [not_or] at hline
    simp [lineEnd, hline.1, hline.2]

theorem clean_nil : Clean [] := fun _ hb => absurd hb List.not_mem_nil

/-- Without an equals sign there is no attribute for the name of a form. -/
theorem sscanf_formFormat (s : CString) (h : 61 ∉ s) : (sscanf formFormat s).length ≤ 1 := by
  have hblocked : ∀ r : CString, 61 ∉ r → sscanf formFormat.tail r = [] := by
    intro r hr
    have hspace : 61 ∉ (r.dropWhile isspace).tail.tail := by
      intro hmem
      exact hr ((r.dropWhile_suffix isspace).subset
        (List.mem_of_mem_tail (List.mem_of_mem_tail hmem)))
    change sscanf (.space :: .char 105 :: .char 100 :: .char 61 :: _) r = []
    rw [sscanf, sscanf]
    split
    · rw [sscanf]
      split
      · rw [sscanf, if_neg]
        intro hhead
        exact hspace (List.mem_of_head? hhead)
      · rfl
    · rfl
  change (sscanf (.word :: formFormat.tail) s).length ≤ 1
  rw [sscanf]
  split
  · simp
  · rw [hblocked _ (fun hmem => h ((s.dropWhile_suffix isspace).subset
      ((List.dropWhile_suffix _).subset hmem)))]
    simp

/-- Only the places in instances may differ. -/
structure SameText (s s' : Scanner) : Prop where
  name : s'.name = s.name
  tag : s'.tag = s.tag
  value : s'.value = s.value
  interestingTag : s'.interestingTag = s.interestingTag
  inSubform : s'.inSubform = s.inSubform

theorem SameText.trans {s s' s'' : Scanner} (h : SameText s s') (h' : SameText s' s'') :
    SameText s s'' :=
  ⟨h'.name.trans h.name, h'.tag.trans h.tag, h'.value.trans h.value,
    h'.interestingTag.trans h.interestingTag, h'.inSubform.trans h.inSubform⟩

theorem sameText_inInstance (s : Scanner) (p : Prop) [Decidable p] (n : ℤ) :
    SameText s (if p then { s with inInstance := n } else s) := by
  split
  · exact ⟨rfl, rfl, rfl, rfl, rfl⟩
  · exact ⟨rfl, rfl, rfl, rfl, rfl⟩

theorem formTag_sameText (s : Scanner) (tag : List UInt8) : SameText s (formTag s tag) :=
  (sameText_inInstance s _ _).trans (sameText_inInstance _ _ _)

theorem namedTag_sameText (name : CString) (s : Scanner) (tag : List UInt8) :
    SameText s (namedTag name s tag) :=
  (sameText_inInstance s _ _).trans (sameText_inInstance _ _ _)

theorem exitInstance_sameText (s : Scanner) (tag : List UInt8) :
    SameText s (exitInstance s tag) :=
  sameText_inInstance s _ _

theorem subformTag_plain {s : Scanner} {tag : List UInt8} (hplain : PlainName tag)
    (hsubform : s.inSubform = 0) : subformTag s tag = ([], s) := by
  obtain ⟨hopens, hcloses⟩ := hplain.subform
  unfold subformTag
  simp [hopens, hcloses, hsubform]

theorem cstr_eq {bytes : List UInt8} (h : Clean bytes) : cstr bytes = bytes := by
  rw [cstr, List.takeWhile_eq_self_iff]
  intro b hb
  exact decide_eq_true (h b hb).1

theorem odkTag_plain {s : Scanner} {tag : List UInt8} (hplain : PlainName tag)
    (hclean : Clean tag) :
    (odkTag s tag).1 = [] ∧ SameText s (odkTag s tag).2 := by
  have hshort := sscanf_formFormat tag hplain.equals
  unfold odkTag
  rw [cstr_eq hclean]
  split
  · exact ⟨rfl, rfl, rfl, rfl, rfl, rfl⟩
  · split
    case h_1 heq =>
      rw [heq] at hshort
      simp at hshort
    case h_2 =>
      exact ⟨rfl, rfl, rfl, rfl, rfl, rfl⟩
    case h_3 =>
      exact ⟨rfl, rfl, rfl, rfl, rfl, rfl⟩

/-- A tag is closed: nothing is written, and the tag is the name that was read. -/
theorem closeTag_plain {s : Scanner} (h : Reading s) (hplain : s.name ≠ [] → PlainName s.name) :
    (closeTag formName s).1 = [] ∧ Reading (closeTag formName s).2 := by
  unfold closeTag
  by_cases hname : s.name = []
  · dsimp only
    rw [if_pos hname]
    exact ⟨rfl, h.name, h.value, h.tag, h.subform⟩
  · simp only [if_neg hname]
    have hp := hplain hname
    generalize hnext : ({ s with
      inTag := false
      name := []
      tag := s.name
      interestingTag := decide (s.name.head? ≠ some 47 ∧ s.inInstance ≠ 0 ∧
        s.name.getLast? ≠ some 47) } : Scanner) = next
    have hnextName : next.name = [] := by rw [← hnext]
    have hnextTag : next.tag = s.name := by rw [← hnext]
    have hnextValue : next.value = s.value := by rw [← hnext]
    have hnextSubform : next.inSubform = 0 := by
      rw [← hnext]
      exact h.subform
    have hreading : ∀ last, SameText next last → Reading last := by
      intro last hsame
      refine ⟨?_, ?_, ?_, hsame.inSubform.trans hnextSubform⟩
      · rw [hsame.name, hnextName]
        exact clean_nil
      · rw [hsame.value, hnextValue]
        exact h.value
      · intro _
        rw [hsame.tag, hnextTag]
        exact ⟨hname, h.name, hp⟩
    cases formName with
    | some name => exact ⟨rfl, hreading _ (namedTag_sameText name next s.name)⟩
    | none =>
      have hform := formTag_sameText next s.name
      have hsub := subformTag_plain hp (hform.inSubform.trans hnextSubform)
      obtain ⟨hlines, hodk⟩ := odkTag_plain (s := formTag next s.name) hp h.name
      simp only [hsub, List.nil_append]
      exact ⟨hlines, hreading _ ((hform.trans hodk).trans (exitInstance_sameText _ _))⟩

theorem reading_scanByte {s : Scanner} {c : UInt8} (h : Reading s) (hc : c ≠ 0)
    (hplain : c = 62 → s.name ≠ [] → PlainName s.name) :
    (scanByte formName s c).1 = (if c = 60 then valuePairs s else []).map
      (fun p => pairLine p ++ [10]) ∧ Reading (scanByte formName s c).2 := by
  unfold scanByte
  by_cases hline : c = 10 ∨ c = 13
  · have hopen : c ≠ 60 := by
      rintro rfl
      exact absurd hline (by decide)
    rw [if_pos hline, if_neg hopen]
    exact ⟨rfl, h⟩
  · rw [if_neg hline]
    by_cases hopen : c = 60
    · rw [if_pos hopen, if_pos hopen]
      refine ⟨valueLines_eq s, h.name, ?_, (fun hno => by cases hno), h.subform⟩
      change Clean (if s.interestingTag then [] else s.value)
      split
      · exact clean_nil
      · exact h.value
    · rw [if_neg hopen, if_neg hopen]
      by_cases hclose : c = 62
      · rw [if_pos hclose]
        exact closeTag_plain formName h (hplain hclose)
      · rw [if_neg hclose]
        refine ⟨rfl, ?_, ?_, h.tag, h.subform⟩
        · change Clean (if s.inTag ∧ s.name.length < 1000 then s.name ++ [c] else s.name)
          split
          · exact h.name.snoc hc hline
          · exact h.name
        · change Clean (if s.interestingTag ∧ (s.value ≠ [] ∨ c ≠ 32) ∧ s.value.length < 1000
            then s.value ++ [c] else s.value)
          split
          · exact h.value.snoc hc hline
          · exact h.value

structure Written (p : Pair) : Prop where
  key : p.1 ≠ [] ∧ Clean p.1 ∧ PlainName p.1
  value : p.2 ≠ [] ∧ Clean p.2

theorem written_valuePairs {s : Scanner} (h : Reading s) : ∀ p ∈ valuePairs s, Written p := by
  intro p hp
  unfold valuePairs at hp
  by_cases hvalue : (!s.interestingTag || decide (s.value = [])) = true
  · rw [if_pos hvalue] at hp
    cases hp
  · rw [if_neg hvalue] at hp
    split at hp
    · cases hp
    · split at hp
      · cases hp
      · rw [List.mem_singleton] at hp
        subst hp
        simp only [Bool.or_eq_true, Bool.not_eq_true', decide_eq_true_eq, not_or,
          Bool.not_eq_false] at hvalue
        obtain ⟨htag, hclean, hplain⟩ := h.tag hvalue.1
        refine ⟨?_, ?_⟩
        · rw [cstr_eq hclean]
          exact ⟨htag, hclean, hplain⟩
        · rw [cstr_eq h.value]
          exact ⟨hvalue.2, h.value⟩

/-- The lines of the document are those of its pairs. -/
theorem scanLines_pairs (bytes : List UInt8) (s : Scanner) (h : Reading s) (hnul : 0 ∉ bytes)
    (hplain : ∀ name ∈ elementNames formName bytes s, PlainName name) :
    scanLines formName bytes s = (writtenPairs formName bytes s).map
      (fun p => pairLine p ++ [10]) ∧ ∀ p ∈ writtenPairs formName bytes s, Written p := by
  induction bytes generalizing s with
  | nil => exact ⟨rfl, fun p hp => absurd hp List.not_mem_nil⟩
  | cons c rest ih =>
    obtain ⟨hc, hrest⟩ := not_or.mp (fun hno => hnul (List.mem_cons.mpr hno))
    rw [elementNames] at hplain
    obtain ⟨hlines, hnext⟩ := reading_scanByte formName h (Ne.symm hc) (fun hclose hname =>
      hplain s.name (List.mem_append_left
        _ (by rw [if_pos ⟨hclose, hname⟩]; exact List.mem_cons_self)))
    obtain ⟨hmore, hwritten⟩ := ih _ hnext hrest
      (fun name hname => hplain name (List.mem_append_right _ hname))
    rw [scanLines, writtenPairs, List.map_append, ← hlines, hmore]
    refine ⟨rfl, ?_⟩
    intro p hp
    rcases List.mem_append.mp hp with hp | hp
    · split at hp
      · exact written_valuePairs h p hp
      · cases hp
    · exact hwritten p hp

end Writing

section Parsing

theorem Written.clean_line {p : Pair} (h : Written p) : ∀ b ∈ pairLine p, lineEnd b = false := by
  intro b hb
  rcases List.mem_append.mp hb with hb | hb
  · exact (h.key.2.1 b hb).2
  · rcases List.mem_cons.mp hb with rfl | hb
    · rfl
    · exact (h.value.2 b hb).2

theorem Written.head {p : Pair} (h : Written p) : (pairLine p).head? = p.1.head? := by
  obtain ⟨key, value⟩ := p
  cases key with
  | nil => exact absurd rfl h.key.1
  | cons b key => rfl

theorem splitOnP_lines (pairs : List Pair) (h : ∀ p ∈ pairs, Written p) :
    ((pairs.map fun p => pairLine p ++ [10]).flatten).splitOnP lineEnd =
      pairs.map pairLine ++ [[]] := by
  induction pairs with
  | nil => rfl
  | cons p rest ih =>
    have hline := (h p List.mem_cons_self).clean_line
    rw [List.map_cons, List.flatten_cons, List.append_assoc, List.singleton_append,
      List.splitOnP_append_cons_of_forall_mem hline 10 (by rfl),
      ih (fun q hq => h q (List.mem_cons_of_mem _ hq)), List.map_cons, List.cons_append]

theorem Written.counts_eq {p : Pair} (h : Written p) : counts (pairLine p) = short p := by
  have hne : pairLine p ≠ [] := by simp [pairLine]
  have hhash : (pairLine p).head? ≠ some 35 := by
    rw [h.head]
    exact h.key.2.2.start.2.2
  unfold counts short
  simp only [hne, hhash, ne_eq, not_false_eq_true, and_true]

theorem countedLines_pairs (pairs : List Pair) (h : ∀ p ∈ pairs, Written p) :
    countedLines ((pairs.map fun p => pairLine p ++ [10]).flatten) =
      (pairs.filter short).map pairLine := by
  rw [countedLines, splitOnP_lines pairs h, List.filter_append, List.filter_map]
  have hshort : pairs.filter (counts ∘ pairLine) = pairs.filter short :=
    List.filter_congr fun p hp => (h p hp).counts_eq
  have hempty : [([] : CString)].filter counts = [] := rfl
  rw [hshort, hempty, List.append_nil]

theorem recordLine_written (st : Parser) {p : Pair} (h : Written p) :
    recordLine st (pairLine p) = if st.current.length ≥ MAX_FIELDS then none
      else some { st with current := st.current ++ [.pair p.1 p.2] } := by
  obtain ⟨hopen, hclose, hhash⟩ := h.key.2.2.start
  have hscan : sscanf pairFormat (pairLine p) = [.string p.1, .string p.2] :=
    (scan_pair_iff h.clean_line p.1 p.2).mpr ⟨rfl, h.key.2.2.equals, h.key.1, h.value.1⟩
  rw [recordLine, h.head, if_neg hopen, if_neg hclose, if_pos ⟨by simp [pairLine], hhash⟩,
    recordPair, hscan]

/-- The induction is on the pairs: each adds one field while there is room. -/
theorem runLines_written (st : Parser) (pairs : List Pair)
    (h : ∀ p ∈ pairs, Written p ∧ short p = true) (hroom : st.current.length ≤ MAX_FIELDS) :
    runLines st (pairs.map pairLine) = if MAX_FIELDS < st.current.length + pairs.length then none
      else some { st with current := st.current ++ pairs.map fun p => .pair p.1 p.2 } := by
  induction pairs generalizing st with
  | nil =>
    rw [List.length_nil, Nat.add_zero, if_neg (by omega), List.map_nil,
      List.map_nil, List.append_nil]
    rfl
  | cons p rest ih =>
    obtain ⟨hwritten, hshort⟩ := h p List.mem_cons_self
    have hkept : keptLine (pairLine p) (pairLine p).length = pairLine p :=
      keptLine_of_counts (hwritten.counts_eq.trans hshort)
    rw [List.map_cons, runLines, hkept, recordLine_written st hwritten, List.length_cons]
    by_cases hfull : st.current.length ≥ MAX_FIELDS
    · rw [if_pos hfull, if_pos (by omega)]
      rfl
    · rw [if_neg hfull, Option.bind_some, ih _ (fun q hq => h q (List.mem_cons_of_mem _ hq))
        (by rw [List.length_append, List.length_singleton]; omega)]
      simp only [List.length_append, List.length_singleton, List.append_assoc,
        List.singleton_append, List.map_cons, Nat.add_assoc, Nat.add_comm 1]

/-- The parser returns the pairs whose lines are short, if they are not too many. -/
theorem parse_written (pairs : List Pair) (h : ∀ p ∈ pairs, Written p) :
    parseStrippedWithSubforms ((pairs.map fun p => pairLine p ++ [10]).flatten) =
      if MAX_FIELDS < (pairs.filter short).length then none
      else some ((pairs.filter short).map fun p => .pair p.1 p.2) := by
  have hrun := (recordLoop_eq ((pairs.map fun p => pairLine p ++ [10]).flatten) [] (by simp)
    ⟨[], []⟩).trans (runLines_filter _ _)
  rw [List.nil_append] at hrun
  change recordLoop _ [] 0 _ = runLines _ (countedLines _) at hrun
  have hlines := runLines_written ⟨[], []⟩ (pairs.filter short)
    (fun p hp => ⟨h p (List.mem_filter.mp hp).1, (List.mem_filter.mp hp).2⟩) (Nat.zero_le _)
  rw [parseStrippedWithSubforms, hrun, countedLines_pairs pairs h, hlines]
  simp only [List.length_nil, Nat.zero_add, List.nil_append]
  split
  · rfl
  · rfl

theorem parsed_iff (pairs : List Pair) (h : ∀ p ∈ pairs, Written p) :
    Parsed ((pairs.map fun p => pairLine p ++ [10]).flatten) pairs ↔
      (∀ p ∈ pairs, short p = true) ∨ MAX_FIELDS < (pairs.filter short).length := by
  have hle := List.length_filter_le short pairs
  rw [Parsed, parse_written pairs h]
  by_cases hall : ∀ p ∈ pairs, short p = true
  · rw [List.filter_eq_self.mpr hall]
    refine iff_of_true ?_ (Or.inl hall)
    split
    · exact Or.inl ⟨‹_›, rfl⟩
    · exact Or.inr rfl
  · have hlost : (pairs.filter short).length ≠ pairs.length := by
      intro hlength
      exact hall (List.length_filter_eq_length_iff.mp hlength)
    rw [or_iff_right hall]
    split
    · exact iff_of_true (Or.inl ⟨by omega, rfl⟩) ‹_›
    · refine iff_of_false ?_ ‹_›
      rintro (⟨-, hno⟩ | hsame)
      · cases hno
      · have hlength := congrArg List.length (Option.some.inj hsame)
        rw [List.length_map, List.length_map] at hlength
        exact hlost hlength

end Parsing

section OneAnswer

def oneAnswer (value : CString) : List UInt8 :=
  text "<form><a>" ++ (value ++ text "</a></form>") ++ [10]

/-- A value of this many bytes is kept whole. -/
theorem scan_value (formName : Option CString) (value rest : List UInt8) (s : Scanner)
    (hvalue : ∀ b ∈ value, 62 < b) (htag : s.interestingTag = true) (hout : s.inTag = false)
    (hroom : s.value.length + value.length ≤ 1000) :
    writtenPairs formName (value ++ rest) s =
        writtenPairs formName rest { s with value := s.value ++ value } ∧
      elementNames formName (value ++ rest) s =
        elementNames formName rest { s with value := s.value ++ value } := by
  induction value generalizing s with
  | nil =>
    rw [List.append_nil]
    exact ⟨rfl, rfl⟩
  | cons c value ih =>
    have hc := hvalue c List.mem_cons_self
    rw [List.length_cons] at hroom
    have hne : ∀ b : UInt8, b ≤ 62 → c ≠ b := by
      rintro b hb rfl
      exact absurd hc (UInt8.not_lt.mpr hb)
    have hstep : scanByte formName s c = ([], { s with value := s.value ++ [c] }) := by
      have hkeep : s.interestingTag = true ∧ (s.value ≠ [] ∨ c ≠ 32) ∧ s.value.length < 1000 :=
        ⟨htag, Or.inr (hne 32 (by decide)), by omega⟩
      rw [scanByte, if_neg (by simp [hne 10 (by decide), hne 13 (by decide)]),
        if_neg (hne 60 (by decide)), if_neg (hne 62 (by decide)), if_pos hkeep,
          if_neg (by simp [hout])]
    obtain ⟨hpairs, hnames⟩ := ih { s with value := s.value ++ [c] }
      (fun b hb => hvalue b (List.mem_cons_of_mem _ hb)) htag hout
      (by rw [List.length_append, List.length_singleton]; omega)
    rw [List.append_assoc, List.singleton_append] at hpairs hnames
    rw [List.cons_append, writtenPairs, elementNames, if_neg (hne 60 (by decide)),
      if_neg (fun hno => hne 62 (by decide) hno.1), hstep]
    exact ⟨hpairs, hnames⟩

instance (name : List UInt8) : Decidable (PlainName name) :=
  decidable_of_iff ((61 ∉ name) ∧ (name.head? ≠ some 123 ∧ name.head? ≠ some 125 ∧
      name.head? ≠ some 35) ∧ opens (text "dd:subform") name = false ∧
      closes (text "dd:subform") name = false)
    ⟨fun ⟨h1, h2, h3⟩ => ⟨h1, h2, h3⟩, fun h => ⟨h.equals, h.start, h.subform⟩⟩

theorem seenBytes_oneAnswer (value : CString) :
    seenBytes false (oneAnswer value) = text "<form><a>" ++ (value ++ text "</a></form>") := by
  rw [seenBytes, oneAnswer, List.dropLast_concat, List.takeWhile_eq_self_iff]
  intro b _
  rfl

def scanned (formName : Option CString) (bytes : List UInt8) (s : Scanner) : Scanner :=
  bytes.foldl (fun s c => (scanByte formName s c).2) s

theorem scan_append (formName : Option CString) (xs ys : List UInt8) (s : Scanner) :
    writtenPairs formName (xs ++ ys) s =
        writtenPairs formName xs s ++ writtenPairs formName ys (scanned formName xs s) ∧
      elementNames formName (xs ++ ys) s =
        elementNames formName xs s ++ elementNames formName ys (scanned formName xs s) := by
  induction xs generalizing s with
  | nil => exact ⟨rfl, rfl⟩
  | cons c xs ih =>
    obtain ⟨hpairs, hnames⟩ := ih (scanByte formName s c).2
    rw [List.cons_append, writtenPairs, writtenPairs, elementNames, elementNames, hpairs, hnames,
      List.append_assoc, List.append_assoc]
    exact ⟨rfl, rfl⟩

deriving instance DecidableEq for Scanner

def atAnswer (value : CString) : Scanner :=
  { inInstance := 1, tag := [97], interestingTag := true, value := value }

theorem scanned_start : scanned none (text "<form><a>") {} = atAnswer [] := by decide +kernel

theorem scan_oneAnswer (value : CString) (hvalue : ∀ b ∈ value, 62 < b) (hne : value ≠ [])
    (htilde : value ≠ [126]) (hroom : value.length ≤ 1000) :
    writtenPairs none (seenBytes false (oneAnswer value)) {} = [(text "a", value)] ∧
      ∀ name ∈ elementNames none (seenBytes false (oneAnswer value)) {}, PlainName name := by
  have hclean : Clean value := by
    intro b hb
    have hb' := hvalue b hb
    refine ⟨?_, ?_⟩
    · rintro rfl
      exact absurd hb' (by decide)
    · have h10 : b ≠ 10 := by
        rintro rfl
        exact absurd hb' (by decide)
      have h13 : b ≠ 13 := by
        rintro rfl
        exact absurd hb' (by decide)
      simp [lineEnd, h10, h13]
  obtain ⟨hpairs, hnames⟩ :=
    scan_value none value (text "</a></form>") (atAnswer []) hvalue rfl rfl
    (by rw [show (atAnswer []).value = [] from rfl, List.length_nil]; omega)
  change writtenPairs _ _ _ = writtenPairs none _ (atAnswer value) at hpairs
  change elementNames _ _ _ = elementNames none _ (atAnswer value) at hnames
  obtain ⟨hpairs', hnames'⟩ :=
    scan_append none (text "<form><a>") (value ++ text "</a></form>") {}
  rw [scanned_start] at hpairs' hnames'
  have hend : text "</a></form>" = 60 :: text "/a></form>" := by decide
  have hopen : (scanByte none (atAnswer value) 60).2 =
      { atAnswer [] with inTag := true, interestingTag := false } := rfl
  have hplain : opens (text "dd:subform") [97] = false := by decide
  have hkept : valuePairs (atAnswer value) = [(text "a", value)] := by
    simp only [valuePairs, atAnswer, hne, htilde, hplain, cstr_eq hclean, Bool.not_true,
      Bool.false_or, decide_false, Bool.false_eq_true, if_false]
    rfl
  rw [seenBytes_oneAnswer, hpairs', hnames', hpairs, hnames, hend, writtenPairs,
    elementNames, hopen, if_pos rfl, if_neg (fun hno => absurd hno.1 (by decide)), hkept]
  refine ⟨?_, ?_⟩
  · have hbefore : writtenPairs none (text "<form><a>") {} = [] := by decide +kernel
    have hafter : writtenPairs none (text "/a></form>")
        { atAnswer [] with inTag := true, interestingTag := false } = [] := by decide +kernel
    rw [hbefore, hafter]
    rfl
  · decide +kernel

end OneAnswer

/-- The text in the buffer is that of the pairs. -/
theorem stripped_text (signedChar : Bool) (formName : Option CString) (xml : List UInt8)
    (strippedSize : ℕ) (hnul : 0 ∉ xml)
    (hplain : ∀ name ∈ elementNames formName (seenBytes signedChar xml) {}, PlainName name) :
    (xml2stripped signedChar formName xml strippedSize).ofs =
        ((writtenPairs formName (seenBytes signedChar xml) {}).map
          fun p => pairLine p ++ [10]).flatten.length ∧
      ((xml2stripped signedChar formName xml strippedSize).ofs < strippedSize →
        (xml2stripped signedChar formName xml strippedSize).text =
          ((writtenPairs formName (seenBytes signedChar xml) {}).map
            fun p => pairLine p ++ [10]).flatten) ∧
      ∀ p ∈ writtenPairs formName (seenBytes signedChar xml) {}, Written p := by
  obtain ⟨hofs, -, hwhole⟩ := snprintf_lines strippedSize
    (scanLines formName (seenBytes signedChar xml) {}) ⟨0, [], []⟩ (fun _ => rfl)
  rw [← stripLoop_eq] at hofs hwhole
  have hseen : 0 ∉ seenBytes signedChar xml := fun hmem =>
    hnul (List.dropLast_subset _ ((List.takeWhile_prefix _).subset hmem))
  obtain ⟨hlines, hwritten⟩ := scanLines_pairs formName (seenBytes signedChar xml) {}
    ⟨clean_nil, clean_nil, (fun hno => by cases hno), rfl⟩ hseen hplain
  rw [hlines] at hofs hwhole
  simp only [Nat.zero_add, List.nil_append] at hofs hwhole
  rw [xml2stripped]
  refine ⟨hofs, ?_, hwritten⟩
  intro hfits
  rw [hofs] at hfits
  exact hwhole hfits

/-- What fits the buffer of the stripper is read as it was written exactly
where every line is shorter than a thousand bytes, or where the lines that are
shorter are already too many. -/
theorem stripped_parsed_iff (signedChar : Bool) (formName : Option CString) (xml : List UInt8)
    (strippedSize : ℕ) (hnul : 0 ∉ xml)
    (hplain : ∀ name ∈ elementNames formName (seenBytes signedChar xml) {}, PlainName name)
    (hfits : (xml2stripped signedChar formName xml strippedSize).ofs < strippedSize) :
    Parsed (xml2stripped signedChar formName xml strippedSize).text
        (writtenPairs formName (seenBytes signedChar xml) {}) ↔
      (∀ p ∈ writtenPairs formName (seenBytes signedChar xml) {}, short p = true) ∨
        MAX_FIELDS <
          ((writtenPairs formName (seenBytes signedChar xml) {}).filter short).length := by
  obtain ⟨-, htext, hwritten⟩ := stripped_text signedChar formName xml strippedSize hnul hplain
  rw [htext hfits]
  exact parsed_iff _ hwritten

theorem stripped_parsed_yes :
    Parsed (xml2stripped true none (oneAnswer (text "yes")) 65536).text
      [(text "a", text "yes")] := by
  have hpairs : writtenPairs none (seenBytes true (oneAnswer (text "yes"))) {} =
      [(text "a", text "yes")] := by decide +kernel
  have hparsed := stripped_parsed_iff true none (oneAnswer (text "yes")) 65536 (by decide +kernel)
    (by decide +kernel) (by decide +kernel)
  rw [hpairs] at hparsed
  exact hparsed.mpr (Or.inl (by decide +kernel))

/-- The line of an answer of 998 letters is of a thousand bytes: it is written,
and the record that is read is empty. -/
theorem long_answer_lost :
    0 ∉ oneAnswer (List.replicate 998 120) ∧
      (∀ name ∈ elementNames none (seenBytes false (oneAnswer (List.replicate 998 120))) {},
        PlainName name) ∧
      (xml2stripped false none (oneAnswer (List.replicate 998 120)) 65536).ofs < 65536 ∧
      writtenPairs none (seenBytes false (oneAnswer (List.replicate 998 120))) {} =
        [(text "a", List.replicate 998 120)] ∧
      parseStrippedWithSubforms
        (xml2stripped false none (oneAnswer (List.replicate 998 120)) 65536).text = some [] ∧
      ¬ Parsed (xml2stripped false none (oneAnswer (List.replicate 998 120)) 65536).text
        [(text "a", List.replicate 998 120)] := by
  have hlength : (List.replicate 998 (120 : UInt8)).length = 998 := List.length_replicate
  have hletters : ∀ b ∈ List.replicate 998 (120 : UInt8), b = 120 := fun b hb =>
    (List.mem_replicate.mp hb).2
  generalize List.replicate 998 (120 : UInt8) = value at *
  have hnul : 0 ∉ oneAnswer value := by
    simp only [oneAnswer, List.mem_append, not_or]
    exact ⟨⟨by decide, fun hmem => absurd (hletters 0 hmem) (by decide), by decide⟩, by decide⟩
  obtain ⟨hpairs, hplain⟩ := scan_oneAnswer value
    (fun b hb => by rw [hletters b hb]; decide)
    (fun hno => by rw [hno] at hlength; cases hlength)
    (fun hno => by rw [hno] at hlength; cases hlength) (by omega)
  obtain ⟨hofs, htext, hwritten⟩ := stripped_text false none (oneAnswer value) 65536 hnul hplain
  rw [hpairs] at hofs htext hwritten
  have hline : (pairLine (text "a", value)).length = 1000 := by
    rw [pairLine, List.length_append, List.length_cons, hlength]
    rfl
  have hfits : (xml2stripped false none (oneAnswer value) 65536).ofs < 65536 := by
    rw [hofs, List.map_singleton, List.flatten_singleton, List.length_append, hline]
    decide
  have hlong : short (text "a", value) = false := by
    rw [short, hline]
    rfl
  have hlost : [(text "a", value)].filter short = [] :=
    List.filter_cons_of_neg (by rw [hlong]; exact Bool.false_ne_true)
  have hread := parse_written [(text "a", value)] hwritten
  rw [hlost, if_neg (by decide), ← htext hfits] at hread
  refine ⟨hnul, hplain, hfits, hpairs, hread, ?_⟩
  rintro (⟨hmany, -⟩ | hwhole)
  · rw [List.length_singleton] at hmany
    exact absurd hmany (by decide)
  · rw [hwhole] at hread
    exact absurd (Option.some.inj hread) (List.cons_ne_nil _ _)

end Succinct.StrippedRecords
