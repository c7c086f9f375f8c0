import Succinct.XhtmlForms

/-!
The lines of a recipe and the fields that are read from them, and the line of a choice
with its options.
-/
namespace Succinct.RecipeLines

open CStrings Recipes XhtmlForms

/-- Empty lines and comments are skipped. -/
def hasField (line : CString) : Bool := decide (line ≠ [] ∧ line.head? ≠ some 35)

def fieldLines (buffer : CString) : List CString := (buffer.splitOnP lineEnd).filter hasField

section Lines

theorem recipeLine_eq {fields fields' : List Field} {line : CString}
    (h : recipeLine fields line = some fields') :
    ∃ new, fields' = fields ++ new ∧ ([line].filter hasField).map parseLine = new.map some := by
  rw [recipeLine] at h
  split at h
  · cases h
  by_cases hskip : line = [] ∨ List.head? line = some 35
  · rw [if_pos hskip] at h
    refine ⟨[], by rw [List.append_nil, Option.some.inj h], ?_⟩
    rw [List.filter_cons_of_neg]
    · rfl
    · simpa [hasField, or_iff_not_imp_left] using hskip
  · rw [if_neg hskip] at h
    obtain ⟨field, hfield, rfl⟩ := Option.map_eq_some_iff.mp h
    refine ⟨[field], rfl, ?_⟩
    have hhas : hasField line = true := decide_eq_true (not_or.mp hskip)
    rw [List.filter_cons_of_pos hhas]
    simp [hfield]

theorem recipeLoop_eq (buffer : CString) {line : CString} {fields fields' : List Field}
    (hline : ∀ b ∈ line, lineEnd b = false) (h : recipeLoop buffer line fields = some fields') :
    ∃ new, fields' = fields ++ new ∧
    (fieldLines (line ++ buffer)).map parseLine = new.map some := by
  induction buffer generalizing line fields with
  | nil =>
    rw [recipeLoop] at h
    split at h
    · cases h
    · rw [fieldLines, List.append_nil, List.splitOnP_eq_singleton hline]
      exact recipeLine_eq h
  | cons b rest ih =>
    rw [recipeLoop] at h
    split at h
    · cases h
    by_cases hend : lineEnd b = true
    · rw [if_pos hend] at h
      obtain ⟨middle, hfirst, hrest⟩ := Option.bind_eq_some_iff.mp h
      obtain ⟨new, rfl, hnew⟩ := recipeLine_eq hfirst
      obtain ⟨more, rfl, hmore⟩ := ih (by simp) hrest
      refine ⟨new ++ more, List.append_assoc _ _ _, ?_⟩
      rw [fieldLines, List.splitOnP_append_cons_of_forall_mem hline b
        hend, ← List.singleton_append,
        List.filter_append, List.map_append, List.map_append, hnew, ← hmore]
      rfl
    · rw [if_neg hend] at h
      have hline' : ∀ c ∈ line ++ [b], lineEnd c = false := by
        intro c hc
        rcases List.mem_append.mp hc with hc | hc
        · exact hline c hc
        · rw [List.mem_singleton.mp hc]
          exact Bool.eq_false_iff.mpr hend
      have hrest := ih hline' h
      rwa [List.append_assoc, List.singleton_append] at hrest

/-- The fields of a recipe are what its lines hold, in their order. -/
theorem recipeRead_lines {formHash : CString → List UInt8}
    {formname buffer : CString} {recipe : Recipe}
    (h : recipeRead formHash formname buffer = some recipe) :
    (fieldLines buffer).map parseLine = recipe.fieldList.map some := by
  rw [recipeRead] at h
  split at h
  · cases h
  · obtain ⟨fields, hloop, rfl⟩ := Option.map_eq_some_iff.mp h
    obtain ⟨new, hfields, hnew⟩ := recipeLoop_eq buffer (by simp) hloop
    rw [List.nil_append] at hfields hnew
    rw [hnew, hfields]

theorem parseEnumValues_eq {enumvalues : CString} {values : List CString}
    (h : parseEnumValues enumvalues = some values) : values = enumvalues.splitOn 44 := by
  rw [parseEnumValues] at h
  simp only [Option.ite_none_left_eq_some, Option.some.injEq] at h
  exact h.2.symm

theorem parseField_name {name type : CString} {min max precision : ℤ}
    {enumvalues : CString} {field : Field}
    (h : parseField name type min max precision enumvalues = some field) :
    field.name = name ∧ ∀ v ∈ field.enumValue, ∀ b ∈ v, b ∈ enumvalues := by
  rw [parseField] at h
  split at h
  · cases h
  split at h
  · obtain ⟨values, hvalues, rfl⟩ := Option.map_eq_some_iff.mp h
    refine ⟨rfl, fun v hv b hb => ?_⟩
    rw [parseEnumValues_eq hvalues, List.splitOn_eq_splitOnP] at hv
    exact (of_mem_splitOnP enumvalues _ v hv b hb).1
  · obtain rfl := Option.some.inj h
    exact ⟨rfl, by simp⟩

/-- The first string that is scanned from a line. -/
theorem scanned_name {line name : CString} {items : List Item}
    (h : sscanf lineFormat line = .string name :: items) : name ≠ [] ∧
    name <+: line ∧ 58 ∉ name := by
  rw [lineFormat, sscanf] at h
  by_cases hne : List.takeWhile (fun x => decide (x ≠ 58)) line = []
  · rw [if_pos hne] at h
    cases h
  · rw [if_neg hne] at h
    obtain ⟨hname, -⟩ := List.cons.inj h
    obtain rfl := Item.string.inj hname
    refine ⟨hne, List.takeWhile_prefix _, fun hmem => ?_⟩
    exact absurd (List.mem_takeWhile_imp hmem) (by decide)

/-- A field that is read has a name that a line can hold, and bytes of the line. -/
theorem parseLine_bytes {line : CString} {field : Field} (h : parseLine line = some field) :
    (field.name ≠ [] ∧ field.name <+: line ∧ 58 ∉ field.name) ∧ ∀ v ∈ field.enumValue,
    ∀ b ∈ v, b ∈ line := by
  rw [parseLine] at h
  split at h
  case h_1 hscan =>
    obtain ⟨hname, hoptions⟩ := parseField_name h
    rw [hname]
    refine ⟨scanned_name hscan, fun v hv b hb => ?_⟩
    exact mem_of_sscanf (by rw [hscan]; simp) b (hoptions v hv b hb)
  case h_2 hscan =>
    obtain ⟨hname, hoptions⟩ := parseField_name h
    rw [hname]
    exact ⟨scanned_name hscan, fun v hv b hb => absurd (hoptions v hv b hb) List.not_mem_nil⟩
  case h_3 =>
    cases h

theorem flatMap_closed (fields : CString) (lines : List CString) :
    ∃ text, (fields ++ [10]) ++ lines.flatMap (· ++ [10]) = text ++ [10] := by
  induction lines generalizing fields with
  | nil => exact ⟨fields, by simp⟩
  | cons line rest ih =>
    obtain ⟨text, htext⟩ := ih (fields ++ [10] ++ line)
    exact ⟨text, by rw [← htext]; simp⟩

/-- The lines of the choices are lines of the text that is returned. -/
theorem line_mem {node : RecipeNode} {line : CString} {index : ℕ}
    (hclosed : ∃ fields, node.recipe = fields ++ [10])
    (hline : node.selects[index]? = some line) (hclean : ∀ b ∈ line, lineEnd b = false)
    (hfield : hasField line = true) : line ∈ fieldLines (finish node).recipeText := by
  obtain ⟨fields, hfields⟩ := hclosed
  obtain ⟨text, htext⟩ := flatMap_closed fields (node.selects.take index)
  obtain ⟨hlt, hget⟩ := List.getElem?_eq_some_iff.mp hline
  have hsplit : node.selects = node.selects.take index ++
    line :: node.selects.drop (index + 1) := by
    rw [← hget, List.getElem_cons_drop, List.take_append_drop]
  have hbuffer : (finish node).recipeText =
      text ++ 10 :: (line ++ 10 :: (node.selects.drop (index + 1)).flatMap (· ++ [10])) := by
    rw [finish, hfields, hsplit, List.flatMap_append, ← List.append_assoc, htext, ← hsplit]
    simp
  refine List.mem_filter.mpr ⟨?_, hfield⟩
  rw [hbuffer, List.splitOnP_append_cons _ _ (by rfl),
    List.splitOnP_append_cons_of_forall_mem hclean 10 (by rfl)]
  exact List.mem_append_right _ List.mem_cons_self

end Lines

section Choices

def optionText (tail : CString) : CString :=
  if tail.head? = some 58 then tail.tail.takeWhile (· ≠ 10) else []

theorem sscanf_upTo {s rest : CString} {stop : UInt8} {format : List Directive} (hne : s ≠ [])
    (hstop : stop ∉ s) :
    sscanf (.upTo stop :: .char stop :: format) (s ++ stop :: rest) =
      .string s :: sscanf format rest := by
  have htake : (s ++ stop :: rest).takeWhile (· ≠ stop) = s := by
    rw [List.takeWhile_append_of_pos]
    · simp
    · intro b hb
      rw [decide_eq_true_eq]
      rintro rfl
      exact hstop hb
  have hdrop : (s ++ stop :: rest).dropWhile (· ≠ stop) = stop :: rest := by
    rw [List.dropWhile_append_of_pos]
    · simp
    · intro b hb
      rw [decide_eq_true_eq]
      rintro rfl
      exact hstop hb
  rw [sscanf, htake, hdrop, if_neg hne, sscanf, List.head?_cons, if_pos rfl, List.tail_cons]

theorem scanInt_zero {rest : CString} (hrest : ∀ b ∈ rest.head?, isdigit b = false) :
    scanInt (48 :: rest) = some (0, rest) := by
  have hspace : (48 :: rest).dropWhile isspace = 48 :: rest := rfl
  have htake : rest.takeWhile isdigit = [] := by
    cases rest with
    | nil => rfl
    | cons b rest => rw [List.takeWhile_cons, hrest b rfl]; rfl
  have hdrop : rest.dropWhile isdigit = rest := by
    cases rest with
    | nil => rfl
    | cons b rest => rw [List.dropWhile_cons, hrest b rfl]; rfl
  have hdigit : isdigit 48 = true := rfl
  have hsign : takeSign (48 :: rest) = (false, 48 :: rest) := rfl
  rw [scanInt, hspace, hsign]
  simp only [List.takeWhile_cons, List.dropWhile_cons, hdigit, if_true, htake, hdrop]
  rfl

theorem sscanf_zero {rest : CString} {format : List Directive}
    (hrest : ∀ b ∈ rest.head?, isdigit b = false) :
    sscanf (.int :: format) (48 :: rest) = .int 0 :: sscanf format rest := by
  rw [sscanf, scanInt_zero hrest]

theorem sscanf_choice {field name tail : CString} (hfield : field ≠ []) (hcolon : 58 ∉ field)
    (hname : name ≠ []) (hcolon' : 58 ∉ name) (htail : ∀ b ∈ tail.head?, isdigit b = false) :
    sscanf lineFormat (field ++ 58 :: (name ++ 58 :: 48 :: 58 :: 48 :: 58 :: 48 :: tail)) =
      .string field :: .string name :: .int 0 :: .int 0 :: .int 0 :: sscanf
        [.char 58, .upTo 10] tail := by
  have hnext : ∀ b ∈ (58 :: 48 :: tail).head?, isdigit b = false := by
    rintro b ⟨⟩
    rfl
  have hnext' : ∀ b ∈ (58 :: 48 :: 58 :: 48 :: tail).head?, isdigit b = false := by
    rintro b ⟨⟩
    rfl
  rw [lineFormat, sscanf_upTo hfield hcolon, sscanf_upTo hname hcolon', sscanf_zero hnext',
    sscanf, List.head?_cons,
    if_pos rfl, List.tail_cons, sscanf_zero hnext, sscanf, List.head?_cons,
      if_pos rfl, List.tail_cons,
    sscanf_zero htail]

theorem sscanf_options (tail : CString) :
    sscanf [.char 58, .upTo 10] tail = if optionText tail = [] then []
      else [.string (optionText tail)] := by
  rw [sscanf, optionText]
  split
  · rw [sscanf]
    split
    · rfl
    · simp [sscanf]
  · rfl

theorem fieldLine_zero (field : CString) (type : FieldType) (tail : CString) :
    fieldLine field type (0, 0) ++ tail =
      field ++ 58 :: (recipeFieldTypeName type ++ 58 :: 48 :: 58 :: 48 :: 58 :: 48 :: tail) := by
  have hzero : printInt 0 = [48] := by decide
  have hprecision : text ":0" = [58, 48] := by decide
  simp only [fieldLine, hzero, hprecision, List.append_assoc, List.cons_append, List.nil_append]

/-- The line of a choice holds its options, if what follows the numbers begins with a colon. -/
theorem parseLine_choice {field tail : CString} {type : FieldType}
    (hchoice : type = .enum ∨ type = .multiselect)
    (hfield : field ≠ []) (hcolon : 58 ∉ field) (htail : ∀ b ∈ tail.head?, isdigit b = false) :
    parseLine (fieldLine field type (0, 0) ++ tail) =
      (parseEnumValues (optionText tail)).map fun values => ⟨field, type, 0, 0, 0, values⟩ := by
  have hname : recipeFieldTypeName type ≠ [] ∧ 58 ∉ recipeFieldTypeName type ∧
      recipeParseFieldtype (recipeFieldTypeName type) = some type := by
    rcases hchoice with rfl | rfl
    · decide
    · decide
  rw [fieldLine_zero, parseLine,
    sscanf_choice hfield hcolon hname.1 hname.2.1 htail, sscanf_options]
  by_cases hempty : optionText tail = []
  · rw [if_pos hempty, hempty]
    simp only [parseField, hname.2.2, if_pos hchoice]
  · rw [if_neg hempty]
    simp only [parseField, hname.2.2, if_pos hchoice]

def separated (item : Bool × CString) : CString := (if item.1 then 58 else 44) :: item.2

theorem mem_intercalate {b c : UInt8} {texts : List CString}
    (h : b ∈ [c].intercalate texts) (hb : b ≠ c) :
    ∃ t ∈ texts, b ∈ t := by
  induction texts with
  | nil => cases h
  | cons t rest ih =>
    by_cases hrest : rest = []
    · subst hrest
      rw [List.intercalate_singleton] at h
      exact ⟨t, List.mem_cons_self, h⟩
    · rw [List.intercalate_cons_of_ne_nil hrest, List.append_assoc] at h
      rcases List.mem_append.mp h with h | h
      · exact ⟨t, List.mem_cons_self, h⟩
      · rcases List.mem_append.mp h with h | h
        · exact absurd (List.mem_singleton.mp h) hb
        · obtain ⟨t', ht', hb'⟩ := ih h
          exact ⟨t', List.mem_cons_of_mem _ ht', hb'⟩

theorem intercalate_commas (x : CString) {items : List (Bool × CString)}
    (h : ∀ item ∈ items, item.1 = false) :
    x ++ items.flatMap separated = [44].intercalate (x :: items.map Prod.snd) := by
  induction items generalizing x with
  | nil => simp
  | cons item rest ih =>
    have hitem := h item List.mem_cons_self
    rw [List.flatMap_cons, List.map_cons, List.intercalate_cons_cons,
      ← ih item.2 fun p hp => h p (List.mem_cons_of_mem _ hp), separated, hitem]
    simp

theorem head_separated (items : List (Bool × CString)) : ∀ b ∈ (items.flatMap separated).head?,
    isdigit b = false := by
  cases items with
  | nil => simp
  | cons item rest =>
    rw [List.flatMap_cons, separated]
    rintro b ⟨⟩
    split <;> rfl

theorem optionText_colon {x : CString} {items : List (Bool × CString)}
    (hitems : ∀ item ∈ (true, x) :: items, 10 ∉ item.2) :
    optionText (((true, x) :: items).flatMap separated) = x ++ items.flatMap separated := by
  rw [List.flatMap_cons, separated, optionText, if_pos rfl]
  refine List.takeWhile_eq_self_iff.mpr fun b hb => decide_eq_true ?_
  rintro rfl
  rcases List.mem_append.mp hb with hb | hb
  · exact hitems _ List.mem_cons_self hb
  · obtain ⟨item, hitem, hb⟩ := List.mem_flatMap.mp hb
    rcases List.mem_cons.mp hb with hb | hb
    · split at hb
      · exact absurd hb (by decide)
      · exact absurd hb (by decide)
    · exact hitems item (List.mem_cons_of_mem _ hitem) hb

/-- The options are read back exactly if the first comes after a colon, and the others
after commas. -/
theorem splitOn_options_iff {items : List (Bool × CString)} {texts : List CString}
    (hitems : ∀ item ∈ items, 44 ∉ item.2 ∧ 10 ∉ item.2) (htexts : ∀ t ∈ texts, t ≠ [] ∧ 58 ∉ t) :
    (optionText (items.flatMap separated)).splitOn 44 = texts ↔
      (∃ x rest, items = (true, x) :: rest ∧ ∀ item ∈ rest, item.1 = false) ∧
      items.map Prod.snd = texts := by
  have hsplit : ∀ x rest, items = (true, x) :: rest → (∀ item ∈ rest, item.1 = false) →
      (optionText (items.flatMap separated)).splitOn 44 = items.map Prod.snd := by
    rintro x rest rfl hcommas
    rw [optionText_colon fun item hitem => (hitems item hitem).2, intercalate_commas x hcommas]
    refine List.splitOn_intercalate 44 (fun piece hpiece => ?_) (List.cons_ne_nil _ _)
    have hmem : piece ∈ ((true, x) :: rest).map Prod.snd := hpiece
    obtain ⟨item, hitem, rfl⟩ := List.mem_map.mp hmem
    exact (hitems item hitem).1
  constructor
  · rintro rfl
    have hne : optionText (items.flatMap separated) ≠ [] := by
      rintro hnil
      rw [hnil, List.splitOn_nil] at htexts
      exact (htexts [] List.mem_cons_self).1 rfl
    match items, hitems, htexts, hsplit, hne with
    | [], _, _, _, hne => exact absurd rfl hne
    | (false, x) :: rest, _, _, _, hne => exact absurd rfl hne
    | (true, x) :: rest, hitems, htexts, hsplit, hne =>
      have hcommas : ∀ item ∈ rest, item.1 = false := by
        rintro item hitem
        by_contra hcolon
        have hmem : 58 ∈ x ++ rest.flatMap separated := by
          refine List.mem_append_right _ (List.mem_flatMap.mpr ⟨item, hitem, ?_⟩)
          rw [separated, if_pos (Bool.not_eq_false _ ▸ hcolon)]
          exact List.mem_cons_self
        have hback : [44].intercalate ((x ++ rest.flatMap separated).splitOn 44) =
          x ++ rest.flatMap separated :=
          List.intercalate_splitOn 44
        rw [← hback] at hmem
        obtain ⟨t, ht, hcolon⟩ := mem_intercalate hmem (by decide)
        rw [optionText_colon fun item hitem => (hitems item hitem).2] at htexts
        exact (htexts t ht).2 hcolon
      exact ⟨⟨x, rest, rfl, hcommas⟩, (hsplit x rest rfl hcommas).symm⟩
  · rintro ⟨⟨x, rest, hshape, hcommas⟩, rfl⟩
    exact hsplit x rest hshape hcommas

end Choices

end Succinct.RecipeLines
