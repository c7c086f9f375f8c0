import Succinct.CStrings

/-!
The records of filled-in forms, as parse_stripped_with_subforms of forms/recipe.c
reads them: lines of a key and a value, and sub-records in braces. The loop keeps one
record and its parents. The input has no byte 0.
-/
namespace Succinct.RecipeRecords

open CStrings

inductive Entry where
  | pair (key value : CString)
  | subrecord (fields : List Entry)

abbrev Record := List Entry

def MAX_FIELDS : ℕ := 1024

/-- The current record, and its parents without the sub-record that is open, the
nearest one first. -/
structure Parser where
  current : Record
  parents : List Record

def holdsQuestion (record : Record) : Bool :=
  record.any fun
    | .pair key _ => key = text "question"
    | .subrecord _ => false

/-- "%[^=]=%[^\n]" -/
def pairFormat : List Directive := [.upTo 61, .char 61, .upTo 10]

def recordPair (st : Parser) (line : CString) : Option Parser :=
  match sscanf pairFormat line with
  | [.string key, .string value] =>
    if st.current.length ≥ MAX_FIELDS then none
    else some { st with current := st.current ++ [.pair key value] }
  | _ => none

def openRecord (st : Parser) : Option Parser :=
  if st.current.length ≥ MAX_FIELDS then none else some ⟨[], st.current :: st.parents⟩

def closeRecord (st : Parser) : Option Parser :=
  match st.parents with
  | [] => none
  | parent :: parents =>
    if holdsQuestion st.current || holdsQuestion parent
      then some ⟨parent ++ [.subrecord st.current], parents⟩
    else none

/-- None is one of the exits with NULL. -/
def recordLine (st : Parser) (line : CString) : Option Parser :=
  if line.head? = some 123 then openRecord st
  else if line.head? = some 125 then closeRecord st
  else if line ≠ [] ∧ line.head? ≠ some 35 then recordPair st line
  else some st

def lineEnd (b : UInt8) : Bool := b = 10 || b = 13

/-- The line as it is processed; one of 1000 bytes or more is taken for empty. -/
def keptLine (line : CString) (l : ℕ) : CString := if l ≥ 1000 then [] else line

def recordLoop : CString → CString → ℕ → Parser → Option Parser
  | [], line, l, st => recordLine st (keptLine line l)
  | b :: rest, line, l, st =>
    if lineEnd b then (recordLine st (keptLine line l)).bind (recordLoop rest [] 0)
    else if l < 1000 then recordLoop rest (line ++ [b]) (l + 1) st
    else recordLoop rest line (l + 1) st

def parseStrippedWithSubforms (input : CString) : Option Record :=
  (recordLoop input [] 0 ⟨[], []⟩).bind fun st => if st.parents ≠ [] then none
    else some st.current

def KeyValue (line key value : CString) : Prop :=
  line = key ++ 61 :: value ∧ 61 ∉ key ∧ key ≠ [] ∧ value ≠ []

/-- The grammar: lines that add fields to a record. A sub-record stands between its
braces, and it or the record around it names the question. -/
inductive Adds : Record → List CString → Record → Prop
  | nil (r : Record) : Adds r [] r
  | pair {r r' : Record} {line key value : CString} {lines : List CString}
    (hopen : line.head? ≠ some 123)
      (hclose : line.head? ≠ some 125) (hpair : KeyValue line key value)
      (hroom : r.length < MAX_FIELDS)
      (hrest : Adds (r ++ [.pair key value]) lines r') : Adds r (line :: lines) r'
  | subrecord {r s r' : Record} {opening closing : CString} {inner lines : List CString}
      (hopen : opening.head? = some 123) (hroom : r.length < MAX_FIELDS)
      (hinner : Adds [] inner s)
      (hclose : closing.head? = some 125)
      (hquestion : holdsQuestion s = true ∨ holdsQuestion r = true)
      (hrest : Adds (r ++ [.subrecord s]) lines r') :
      Adds r (opening :: inner ++ closing :: lines) r'

def counts (line : CString) : Bool :=
  decide (line.length < 1000 ∧ line ≠ [] ∧ line.head? ≠ some 35)

def countedLines (input : CString) : List CString := (input.splitOnP lineEnd).filter counts

section Lines

def runLines : Parser → List CString → Option Parser
  | st, [] => some st
  | st, line :: lines =>
    (recordLine st (keptLine line line.length)).bind fun st => runLines st lines

theorem recordLoop_eq (input acc : CString) (hacc : ∀ b ∈ acc, lineEnd b = false) (st : Parser) :
    recordLoop input (acc.take 1000) acc.length st =
      runLines st ((acc ++ input).splitOnP lineEnd) := by
  have hkept : keptLine (acc.take 1000) acc.length = keptLine acc acc.length := by
    rw [keptLine, keptLine]
    split
    · rfl
    · exact List.take_of_length_le (by omega)
  induction input generalizing acc st with
  | nil =>
    rw [recordLoop, List.append_nil, List.splitOnP_eq_singleton hacc, runLines, hkept]
    simp [runLines]
  | cons b rest ih =>
    rw [recordLoop]
    by_cases hend : lineEnd b = true
    · rw [if_pos hend, List.splitOnP_append_cons_of_forall_mem hacc b hend, runLines, hkept]
      congr 1
      funext st'
      have hrest := ih [] (by simp) st' rfl
      exact hrest
    · have hacc' : ∀ c ∈ acc ++ [b], lineEnd c = false := by
        intro c hc
        rcases List.mem_append.mp hc with hc | hc
        · exact hacc c hc
        · rw [List.mem_singleton.mp hc]
          exact Bool.eq_false_iff.mpr hend
      have hkept' : keptLine ((acc ++ [b]).take 1000) (acc ++ [b]).length =
        keptLine (acc ++ [b]) (acc ++ [b]).length := by
        rw [keptLine, keptLine]
        split
        · rfl
        · exact List.take_of_length_le (by omega)
      have hrest := ih (acc ++ [b]) hacc' st hkept'
      rw [List.append_assoc, List.singleton_append, List.length_append,
        List.length_singleton] at hrest
      rw [if_neg hend]
      by_cases hshort : List.length acc < 1000
      · rw [if_pos hshort]
        rw [← hrest, List.take_of_length_le hshort.le, List.take_of_length_le (by simp; omega)]
      · rw [if_neg hshort]
        rw [← hrest, List.take_append_of_le_length (by omega)]

/-- What is skipped changes nothing. -/
theorem runLines_filter (st : Parser) (lines : List CString) :
    runLines st lines = runLines st (lines.filter counts) := by
  induction lines generalizing st with
  | nil => rfl
  | cons line lines ih =>
    by_cases hcounts : counts line = true
    · rw [List.filter_cons_of_pos hcounts, runLines, runLines]
      simp only [ih]
    · have hskip : recordLine st (keptLine line line.length) = some st := by
        rw [keptLine]
        by_cases hshort : List.length line ≥ 1000
        · rw [if_pos hshort]
          rfl
        · rw [if_neg hshort]
          have hcomment : line = [] ∨ line.head? = some 35 := by
            by_contra hneither
            exact hcounts (decide_eq_true ⟨not_le.mp hshort, (not_or.mp hneither).1,
              (not_or.mp hneither).2⟩)
          rcases hcomment with rfl | hhash
          · rfl
          · rw [recordLine, hhash, if_neg (by simp), if_neg (by simp), if_neg (by simp)]
      rw [List.filter_cons_of_neg hcounts, runLines, hskip, Option.bind_some, ih]

theorem scan_pair_iff {line : CString} (hline : ∀ b ∈ line, lineEnd b = false)
    (key value : CString) :
    sscanf pairFormat line = [.string key, .string value] ↔ KeyValue line key value := by
  have hsplit : line.takeWhile (· ≠ 61) ++ line.dropWhile (· ≠ 61) = line :=
    List.takeWhile_append_dropWhile
  have hkey : (61 : UInt8) ∉ line.takeWhile (· ≠ 61) := by
    intro hmem
    exact absurd (List.mem_takeWhile_imp hmem) (by decide)
  have hwhole : ∀ v : CString, (∀ b ∈ v, b ∈ line) → v.takeWhile (· ≠ 10) = v := by
    intro v hv
    rw [List.takeWhile_eq_self_iff]
    intro b hb
    rw [decide_eq_true_eq]
    rintro rfl
    exact absurd (hline 10 (hv 10 hb)) (by decide)
  constructor
  · intro hscan
    rw [pairFormat, sscanf] at hscan
    by_cases hne : List.takeWhile (fun x => decide (x ≠ 61)) line = []
    · rw [if_pos hne] at hscan
      cases hscan
    · rw [if_neg hne] at hscan
      obtain ⟨hfirst, hscan⟩ := List.cons.inj hscan
      rw [sscanf] at hscan
      by_cases hequals : (List.dropWhile (fun x => decide (x ≠ 61)) line).head? = some 61
      · rw [if_pos hequals] at hscan
        obtain ⟨rest, hrest⟩ : ∃ rest, line.dropWhile (· ≠ 61) = 61 :: rest := by
          cases hdrop : line.dropWhile (· ≠ 61) with
          | nil => rw [hdrop] at hequals; cases hequals
          | cons b rest =>
            rw [hdrop] at hequals
            exact ⟨rest, by rw [Option.some.inj hequals]⟩
        have hvalue := hwhole rest fun b hb => by
          rw [← hsplit, hrest]
          exact List.mem_append_right _ (List.mem_cons_of_mem _ hb)
        rw [hrest, List.tail_cons, sscanf, hvalue] at hscan
        by_cases hnonempty : rest = []
        · rw [if_pos hnonempty] at hscan
          cases hscan
        · rw [if_neg hnonempty] at hscan
          obtain ⟨hsecond, -⟩ := List.cons.inj hscan
          obtain rfl := Item.string.inj hfirst
          obtain rfl := Item.string.inj hsecond
          refine ⟨?_, hkey, hne, hnonempty⟩
          rw [← hrest, hsplit]
      · rw [if_neg hequals] at hscan
        cases hscan
  · rintro ⟨rfl, hfree, hkeyNe, hvalueNe⟩
    have hall : ∀ b ∈ key, decide (b ≠ 61) = true := by
      intro b hb
      rw [decide_eq_true_eq]
      rintro rfl
      exact hfree hb
    have htake : (key ++ 61 :: value).takeWhile (· ≠ 61) = key := by
      rw [List.takeWhile_append_of_pos hall,
        List.takeWhile_cons_of_neg (by simp), List.append_nil]
    have hdrop : (key ++ 61 :: value).dropWhile (· ≠ 61) = 61 :: value := by
      rw [List.dropWhile_append_of_pos hall, List.dropWhile_cons_of_neg (by simp)]
    have hvalue := hwhole value fun b hb => List.mem_append_right _ (List.mem_cons_of_mem _ hb)
    rw [pairFormat, sscanf, htake, if_neg hkeyNe, hdrop, sscanf, if_pos List.head?_cons,
      List.tail_cons, sscanf, hvalue, if_neg hvalueNe]
    rfl

theorem recordPair_eq_some_iff {st st' : Parser} {line : CString}
    (hline : ∀ b ∈ line, lineEnd b = false) :
    recordPair st line = some st' ↔ ∃ key value, KeyValue line key value ∧
    st.current.length < MAX_FIELDS ∧
      st' = { st with current := st.current ++ [.pair key value] } := by
  constructor
  · intro h
    rw [recordPair] at h
    split at h
    case h_1 key value hscan =>
      by_cases hroom : List.length st.current ≥ MAX_FIELDS
      · rw [if_pos hroom] at h
        cases h
      · rw [if_neg hroom] at h
        exact ⟨key, value, (scan_pair_iff hline key value).mp hscan, not_le.mp hroom,
          (Option.some.inj h).symm⟩
    case h_2 =>
      cases h
  · rintro ⟨key, value, hpair, hroom, rfl⟩
    rw [recordPair, (scan_pair_iff hline key value).mpr hpair]
    exact if_neg (not_le.mpr hroom)

end Lines

section Grammar

def Proper (lines : List CString) : Prop :=
  ∀ line ∈ lines, counts line = true ∧ ∀ b ∈ line, lineEnd b = false

theorem keptLine_of_counts {line : CString} (h : counts line = true) :
    keptLine line line.length = line := by
  rw [counts, decide_eq_true_eq] at h
  rw [keptLine, if_neg (by omega)]

theorem countedLines_proper (input : CString) : Proper (countedLines input) := by
  intro line hline
  obtain ⟨hmem, hcounts⟩ := List.mem_filter.mp hline
  exact ⟨hcounts, fun b hb => (of_mem_splitOnP input lineEnd line hmem b hb).2⟩

/-- What one line can do. -/
theorem recordLine_cases (st : Parser) {st' : Parser} {line : CString}
    (hcounts : counts line = true)
    (hline : ∀ b ∈ line, lineEnd b = false) : recordLine st line = some st' ↔
      (line.head? = some 123 ∧ st.current.length < MAX_FIELDS ∧
        st' = ⟨[], st.current :: st.parents⟩) ∨
      (line.head? = some 125 ∧ ∃ parent parents, st.parents = parent :: parents ∧
        (holdsQuestion st.current = true ∨ holdsQuestion parent = true) ∧
        st' = ⟨parent ++ [.subrecord st.current], parents⟩) ∨
      (line.head? ≠ some 123 ∧ line.head? ≠ some 125 ∧ ∃ key value, KeyValue line key value ∧
        st.current.length < MAX_FIELDS ∧
        st' = { st with current := st.current ++ [.pair key value] }) := by
  rw [counts, decide_eq_true_eq] at hcounts
  rw [recordLine]
  by_cases hopen : line.head? = some 123
  · rw [if_pos hopen, openRecord, hopen]
    simp only [Option.ite_none_left_eq_some, Option.some.injEq]
    constructor
    · rintro ⟨hroom, rfl⟩
      exact Or.inl ⟨trivial, not_le.mp hroom, rfl⟩
    · rintro (⟨-, hroom, rfl⟩ | ⟨hbrace, -⟩ | ⟨hbrace, -⟩)
      · exact ⟨not_le.mpr hroom, rfl⟩
      · exact absurd hbrace (by decide)
      · exact absurd rfl hbrace
  · rw [if_neg hopen]
    by_cases hclose : line.head? = some 125
    · rw [if_pos hclose, closeRecord]
      cases hparents : st.parents with
      | nil => simp [hclose]
      | cons parent parents =>
        simp only [Option.ite_none_right_eq_some, Option.some.injEq, Bool.or_eq_true]
        constructor
        · rintro ⟨hquestion, rfl⟩
          exact Or.inr (Or.inl ⟨hclose, parent, parents, rfl, hquestion, rfl⟩)
        · rintro (⟨hbrace, -⟩ | ⟨-, parent', parents', hsame, hquestion, rfl⟩ | ⟨-, hbrace, -⟩)
          · exact absurd hbrace hopen
          · obtain ⟨rfl, rfl⟩ := List.cons.inj hsame
            exact ⟨hquestion, rfl⟩
          · exact absurd hclose hbrace
    · rw [if_neg hclose, if_pos hcounts.2, recordPair_eq_some_iff hline]
      constructor
      · intro hpair
        exact Or.inr (Or.inr ⟨hopen, hclose, hpair⟩)
      · rintro (⟨hbrace, -⟩ | ⟨hbrace, -⟩ | ⟨-, -, hpair⟩)
        · exact absurd hbrace hopen
        · exact absurd hbrace hclose
        · exact hpair

/-- A grammatical piece of the input takes the loop from record to record. -/
theorem runLines_of_adds {r r' : Record} {lines : List CString} (h : Adds r lines r')
    (parents : List Record) (more : List CString) (hproper : Proper lines) :
    runLines ⟨r, parents⟩ (lines ++ more) = runLines ⟨r', parents⟩ more := by
  induction h generalizing parents more with
  | nil r => rfl
  | @pair r r' line key value lines hopen hclose hpair hroom _ ih =>
    obtain ⟨hcounts, hline⟩ := hproper line List.mem_cons_self
    have hstep := (recordLine_cases ⟨_, parents⟩ hcounts hline).mpr
      (Or.inr (Or.inr ⟨hopen, hclose, key, value, hpair, hroom, rfl⟩))
    rw [List.cons_append, runLines, keptLine_of_counts hcounts, hstep, Option.bind_some]
    exact ih parents more fun l hl => hproper l (List.mem_cons_of_mem _ hl)
  | @subrecord r s r' opening closing inner lines hopen hroom _ hclose hquestion
    _ ihInner ihRest =>
    obtain ⟨hcounts, hline⟩ := hproper opening (by simp)
    obtain ⟨hcounts', hline'⟩ := hproper closing (by simp)
    have hdown := (recordLine_cases ⟨r, parents⟩ hcounts hline).mpr (Or.inl ⟨hopen, hroom, rfl⟩)
    have hup := (recordLine_cases ⟨s, r :: parents⟩ hcounts' hline').mpr
      (Or.inr (Or.inl ⟨hclose, r, parents, rfl, hquestion, rfl⟩))
    have hinner : Proper inner := fun l hl => hproper l (by simp [hl])
    have hrest : Proper lines := fun l hl => hproper l (by simp [hl])
    simp only [List.cons_append, List.append_assoc]
    rw [runLines, keptLine_of_counts hcounts, hdown, Option.bind_some,
      ihInner (r :: parents) _ hinner, runLines,
      keptLine_of_counts hcounts', hup, Option.bind_some]
    exact ihRest parents more hrest

/-- The lines close the records that are open, one by one, and end in a record. -/
def Closes : Record → List Record → List CString → Record → Prop
  | r, [], lines, r' => Adds r lines r'
  | r, parent :: parents, lines, r' =>
    ∃ inner closing rest s, lines = inner ++ closing :: rest ∧ Adds r inner s ∧
      closing.head? = some 125 ∧ (holdsQuestion s = true ∨ holdsQuestion parent = true) ∧
      Closes (parent ++ [.subrecord s]) parents rest r'

/-- Lines that only add to the current record may stand before. -/
theorem closes_of_adds {r₁ r₂ : Record} (front : List CString)
    (hadds : ∀ lines r', Adds r₂ lines r' → Adds r₁ (front ++ lines) r') {parents : List Record}
    {lines : List CString} {r' : Record} (h : Closes r₂ parents lines r') :
    Closes r₁ parents (front ++ lines) r' := by
  cases parents with
  | nil => exact hadds lines r' h
  | cons parent parents =>
    obtain ⟨inner, closing, rest, s, rfl, hinner, hclose, hquestion, hrest⟩ := h
    exact ⟨front ++ inner, closing, rest, s, (List.append_assoc ..).symm, hadds inner s hinner,
      hclose, hquestion, hrest⟩

theorem closes_of_runLines {lines : List CString} (hproper : Proper lines)
    (st : Parser) {r : Record}
    (h : runLines st lines = some ⟨r, []⟩) : Closes st.current st.parents lines r := by
  induction lines generalizing st with
  | nil =>
    obtain rfl := Option.some.inj h
    exact Adds.nil r
  | cons line lines ih =>
    obtain ⟨hcounts, hline⟩ := hproper line List.mem_cons_self
    rw [runLines, keptLine_of_counts hcounts] at h
    obtain ⟨st', hstep, hrest⟩ := Option.bind_eq_some_iff.mp h
    have hcloses := ih (fun l hl => hproper l (List.mem_cons_of_mem _ hl)) st' hrest
    rcases (recordLine_cases st hcounts hline).mp hstep with ⟨hopen, hroom, rfl⟩ |
      ⟨hclose, parent, parents, hparents, hquestion, rfl⟩ | ⟨hopen, hclose, key,
        value, hpair, hroom, rfl⟩
    · -- the sub-record is closed in the rest of the lines
      obtain ⟨inner, closing, rest, s, rfl, hinner, hclose, hquestion, hrest'⟩ := hcloses
      have hwhole := closes_of_adds (line :: inner ++ [closing]) (fun lines r' hadds => by
        rw [List.append_assoc]
        exact Adds.subrecord hopen hroom hinner hclose hquestion hadds) hrest'
      simpa using hwhole
    · rw [hparents]
      exact ⟨[], line, lines, st.current, rfl, Adds.nil _, hclose, hquestion, hcloses⟩
    · exact closes_of_adds [line] (fun lines r' hadds =>
        Adds.pair hopen hclose hpair hroom hadds) hcloses

end Grammar

/-- The parser returns a record exactly where the lines that count follow the
grammar, and the record is what they say. -/
theorem parse_iff_adds (input : CString) (record : Record) :
    parseStrippedWithSubforms input = some record ↔ Adds [] (countedLines input) record := by
  have hproper := countedLines_proper input
  have hrun : recordLoop input [] 0 ⟨[], []⟩ = runLines ⟨[], []⟩ (countedLines input) :=
    (recordLoop_eq input [] (by simp) ⟨[], []⟩).trans (runLines_filter _ _)
  rw [parseStrippedWithSubforms, hrun]
  constructor
  · intro h
    obtain ⟨⟨current, parents⟩, hlines, hend⟩ := Option.bind_eq_some_iff.mp h
    simp only [ne_eq, Option.ite_none_left_eq_some, not_not, Option.some.injEq] at hend
    obtain ⟨rfl, rfl⟩ := hend
    exact closes_of_runLines hproper ⟨[], []⟩ hlines
  · intro h
    have hlines := runLines_of_adds h [] [] hproper
    rw [List.append_nil] at hlines
    rw [hlines]
    rfl

/-- A form with one instance of a sub-form, of lines that end in 10 or in 13 and 10. -/
example :
    parseStrippedWithSubforms
      ((([text "a=1", [123], text "question=q", text "#c"].map (· ++ [10])).flatten) ++
    text "b==2" ++ [13, 10, 125, 10]) = some [.pair (text "a") (text "1"),
      .subrecord [.pair (text "question") (text "q"), .pair (text "b") (text "=2")]] := rfl

end Succinct.RecipeRecords
