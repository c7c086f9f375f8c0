import Succinct.FormMoves
import Succinct.SelectLines

/-!
The options of a choice: the texts of the values in its select element, and the list
that is read back from the recipe. A text that the XML library delivers in pieces
becomes an option for each of them, and it reaches every line that begins with the name
of the field.
-/
namespace Succinct.OptionLists

open CStrings Recipes NodeLists XhtmlForms FormSteps FormMoves RecipeLines SelectLines

structure Select where
  field : CString
  values : List (List CString)

def Select.texts (select : Select) : List CString := select.values.map List.flatten

def addPiece (x : CString) : List (List CString) → List (List CString)
  | [] => [[x]]
  | [pieces] => [pieces ++ [x]]
  | pieces :: next :: rest => pieces :: addPiece x (next :: rest)

def Select.openValue (select : Select) : Select := { select with values := select.values ++ [[]] }

def Select.addText (x : CString) (select : Select) : Select :=
  { select with values := addPiece x select.values }

/-- The document up to some event: the select element that is open, and the others, the
last one first. -/
structure Reading where
  inInstance : Bool
  openSelect : Option Select
  inValue : Bool
  closed : List Select

def Reading.selects (r : Reading) : List Select := r.openSelect.toList ++ r.closed

def Reading.read (r : Reading) : Event → Reading
  | .start el attr =>
    if r.inInstance || isBind el then r
    else if isSelect el then
      match selectField attr with
      | none => r
      | some field => { r with openSelect := some ⟨field, []⟩, closed := r.selects }
    else if r.openSelect.isSome && isValue el then
      { r with inValue := true, openSelect := r.openSelect.map Select.openValue }
    else if isData el then { r with inInstance := true }
    else r
  | .characters x =>
    if r.inValue then { r with openSelect := r.openSelect.map (Select.addText x) } else r
  | .stop el =>
    { inInstance := r.inInstance && !isData el
      openSelect := if isSelect el then none else r.openSelect
      inValue := r.inValue && !isValue el
      closed := if isSelect el then r.selects else r.closed }

def document (events : List Event) : Reading := events.foldl Reading.read ⟨false, none, false, []⟩

variable {state next last : ParseState} {r : Reading} {field : CString}

section Documents

theorem flatten_addPiece (x : CString) (values : List (List CString)) :
    (addPiece x values).flatten = values.flatten ++ [x] := by
  induction values using addPiece.induct with
  | case1 => rfl
  | case2 pieces => simp [addPiece]
  | case3 pieces next rest ih =>
    rw [addPiece, List.flatten_cons, ih, ← List.append_assoc, ← List.flatten_cons]

structure Follows (r : Reading) (c : Control) : Prop where
  inInstance : c.inInstance = r.inInstance
  selectElem : c.selectElem = r.openSelect.map (·.field)
  inValue : c.inValue = r.inValue

theorem follows_after {c : Control} (h : Follows r c) {event : Event}
    (hevent : ∀ x, event ≠ .characters x) :
    Follows (r.read event) (c.after event) := by
  obtain ⟨hinstance, hselect, hvalue⟩ := h
  cases event with
  | characters x => exact absurd rfl (hevent x)
  | stop el =>
    refine ⟨by rw [Control.after, Reading.read, hinstance], ?_, by rw [Control.after,
      Reading.read, hvalue]⟩
    simp only [Control.after, Reading.read]
    split
    · rfl
    · exact hselect
  | start el attr =>
    have hopen : c.selectElem.isSome = r.openSelect.isSome := by rw [hselect, Option.isSome_map]
    rw [Control.after, Reading.read, hinstance, hopen]
    split
    · exact ⟨hinstance, hselect, hvalue⟩
    split
    · cases selectField attr with
      | none => exact ⟨hinstance, hselect, hvalue⟩
      | some field => exact ⟨rfl, rfl, hvalue⟩
    split
    · exact ⟨rfl, by rw [hselect, Option.map_map]; rfl, rfl⟩
    split
    · exact ⟨rfl, hselect, hvalue⟩
    · exact ⟨hinstance, hselect, hvalue⟩

theorem follows_step {event : Event} (h : Follows r (control state))
    (hstep : step state event = some next) :
    Follows (r.read event) (control next) := by
  by_cases hevent : ∃ x, event = .characters x
  · obtain ⟨x, rfl⟩ := hevent
    have hread : Follows (r.read (.characters x)) (control state) := by
      obtain ⟨hinstance, hselect, hvalue⟩ := h
      rw [Reading.read]
      split
      · exact ⟨hinstance, by rw [hselect, Option.map_map]; rfl, hvalue⟩
      · exact ⟨hinstance, hselect, hvalue⟩
    rcases characters_callback hstep with ⟨-, rfl, -⟩ | ⟨elem, version, node, -, -, -, -, rfl⟩
    · exact hread
    · exact ⟨hread.inInstance, hread.selectElem, hread.inValue⟩
  · have hother : ∀ x, event ≠ .characters x := fun x hx => hevent ⟨x, hx⟩
    obtain ⟨declared, edited, -, -, rfl⟩ := step_steps hother hstep
    exact follows_after h hother

theorem follows_run {events : List Event} (h : Follows r (control state))
    (hrun : run state events = some last) :
    Follows (events.foldl Reading.read r) (control last) := by
  induction events generalizing state r with
  | nil =>
    obtain rfl := Option.some.inj hrun
    exact h
  | cons event rest ih =>
    rw [run, List.foldlM_cons] at hrun
    obtain ⟨next, hstep, hrest⟩ := Option.bind_eq_some_iff.mp hrun
    exact ih (follows_step h hstep) hrest

theorem flatten_addText (x : CString) (select : Select) :
    (select.addText x).values.flatten = select.values.flatten ++ [x] :=
  flatten_addPiece x select.values

/-- An event opens a select element, or adds to the one that is open. -/
theorem read_grows (r : Reading) (event : Event) :
    (∃ s, (r.read event).selects = s :: r.selects) ∨
      ∃ f : Select → Select, (∀ s, (f s).field = s.field ∧
        s.values.flatten <+: (f s).values.flatten) ∧
        (r.read event).selects = (r.openSelect.map f).toList ++ r.closed := by
  have hsame : ∀ r' : Reading, r'.selects = r.selects → ∃ f : Select → Select,
      (∀ s, (f s).field = s.field ∧ s.values.flatten <+: (f s).values.flatten) ∧
        r'.selects = (r.openSelect.map f).toList ++ r.closed :=
    fun r' hr' => ⟨id, fun _ => ⟨rfl, List.prefix_rfl⟩, by rw [hr', Option.map_id]; rfl⟩
  cases event with
  | characters x =>
    rw [Reading.read]
    split
    · exact Or.inr ⟨Select.addText x, fun s =>
        ⟨rfl, by rw [flatten_addText]; exact List.prefix_append _ _⟩, rfl⟩
    · exact Or.inr (hsame _ rfl)
  | stop el =>
    refine Or.inr (hsame _ ?_)
    rw [Reading.read, Reading.selects]
    split
    · rfl
    · rfl
  | start el attr =>
    rw [Reading.read]
    split
    · exact Or.inr (hsame _ rfl)
    split
    · cases selectField attr with
      | none => exact Or.inr (hsame _ rfl)
      | some field => exact Or.inl ⟨⟨field, []⟩, rfl⟩
    split
    · exact Or.inr ⟨Select.openValue, fun s => ⟨rfl, by simp [Select.openValue]⟩, rfl⟩
    split
    · exact Or.inr (hsame _ rfl)
    · exact Or.inr (hsame _ rfl)

/-- Select elements are not forgotten. -/
theorem fields_suffix (r : Reading) (event : Event) :
    r.selects.map (·.field) <:+ (r.read event).selects.map (·.field) := by
  rcases read_grows r event with ⟨s, hs⟩ | ⟨f, hf, hs⟩
  · rw [hs]
    exact (List.suffix_cons _ _).map _
  · rw [hs, Reading.selects]
    cases r.openSelect with
    | none => exact List.suffix_rfl
    | some s => simp [hf s]

/-- Neither are their texts. -/
theorem piece_read {x : CString} (event : Event) (h : ∃ s ∈ r.selects, x ∈ s.values.flatten) :
    ∃ s ∈ (r.read event).selects, x ∈ s.values.flatten := by
  obtain ⟨s, hs, hx⟩ := h
  rcases read_grows r event with ⟨opened, hread⟩ | ⟨f, hf, hread⟩
  · exact ⟨s, hread ▸ List.mem_cons_of_mem _ hs, hx⟩
  · rw [hread]
    rcases List.mem_append.mp hs with hs | hs
    · rw [Option.mem_toList.mp hs]
      exact ⟨f s, List.mem_append_left _ (List.mem_singleton_self _), (hf s).2.subset hx⟩
    · exact ⟨s, List.mem_append_right _ hs, hx⟩

theorem piece_run {x : CString} (events : List Event)
    (h : ∃ s ∈ r.selects, x ∈ s.values.flatten) :
    ∃ s ∈ (events.foldl Reading.read r).selects, x ∈ s.values.flatten := by
  induction events generalizing r with
  | nil => exact h
  | cons event rest ih => exact ih (piece_read event h)

theorem fields_suffix_run (r : Reading) (events : List Event) :
    r.selects.map (·.field) <:+ (events.foldl Reading.read r).selects.map (·.field) := by
  induction events generalizing r with
  | nil => exact List.suffix_rfl
  | cons event rest ih => exact (fields_suffix r event).trans (ih (r.read event))

def Select.pieces (select : Select) : CString × List CString :=
  (select.field, select.values.flatten)

theorem pieces_openValue (r : Reading) :
    ((r.openSelect.map Select.openValue).toList ++ r.closed).map Select.pieces =
      r.selects.map Select.pieces := by
  rw [Reading.selects]
  cases r.openSelect with
  | none => rfl
  | some s => simp [Select.pieces, Select.openValue]

theorem exists_of_pieces {selects selects' : List Select}
    (h : selects'.map Select.pieces = selects.map Select.pieces) {s' : Select}
    (hs' : s' ∈ selects') :
    ∃ s ∈ selects, s.pieces = s'.pieces :=
  List.mem_map.mp (h ▸ List.mem_map_of_mem hs')

/-- Apart from texts, an event opens a select element, or leaves the texts as they are. -/
theorem read_cases {c : Control} (h : Follows r c) {event : Event}
    (hevent : ∀ x, event ≠ .characters x) :
    (∃ field, (r.read event).selects = ⟨field, []⟩ :: r.selects ∧
      (c.after event).selectElem = some field ∧
        (c.after event).selectFirst = true) ∨
      ((r.read event).selects.map Select.pieces = r.selects.map Select.pieces ∧
        (∀ field, (c.after event).selectElem = some field → c.selectElem = some field) ∧
        (c.after event).selectFirst = c.selectFirst) := by
  obtain ⟨hinstance, hselect, -⟩ := h
  cases event with
  | characters x => exact absurd rfl (hevent x)
  | stop el =>
    refine Or.inr ⟨?_, fun field hfield => ?_, rfl⟩
    · rw [Reading.read, Reading.selects]
      split
      · exact rfl
      · exact rfl
    · simp only [Control.after] at hfield
      split at hfield
      · cases hfield
      · exact hfield
  | start el attr =>
    have hopen : c.selectElem.isSome = r.openSelect.isSome := by rw [hselect, Option.isSome_map]
    rw [Control.after, Reading.read, hinstance, hopen]
    split
    · exact Or.inr ⟨rfl, fun _ => id, rfl⟩
    split
    · cases selectField attr with
      | none => exact Or.inr ⟨rfl, fun _ => id, rfl⟩
      | some field => exact Or.inl ⟨field, rfl, rfl, rfl⟩
    split
    · exact Or.inr ⟨pieces_openValue r, fun _ => id, rfl⟩
    split
    · exact Or.inr ⟨rfl, fun _ => id, rfl⟩
    · exact Or.inr ⟨rfl, fun _ => id, rfl⟩

end Documents

section Texts

/-- The texts for a field so far are the pieces of its select element, and only the first
of them came while the flag was set. -/
structure Collected (field : CString) (r : Reading) (state : ParseState)
    (own : List Callback) : Prop where
  follows : Follows r (control state)
  pieces : ∀ s ∈ r.selects, s.field = field → own.map (·.piece) = s.values.flatten
  unread : (∀ s ∈ r.selects, s.field ≠ field) → own = []
  first : state.selectElem = some field → (state.selectFirst = true ↔ own = [])
  flags : ∀ c rest, own = c :: rest → c.first = true ∧ ∀ d ∈ rest, d.first = false

theorem collected_steps {own : List Callback} {event : Event} (h : Collected field r state own)
    (hnodup : ((r.read event).selects.map (·.field)).Nodup) (hevent : ∀ x, event ≠ .characters x)
    (hstep : step state event = some next) : Collected field (r.read event) next own := by
  have hfollows := follows_step h.follows hstep
  obtain ⟨declared, edited, -, -, rfl⟩ := step_steps hevent hstep
  rcases read_cases h.follows hevent
    with ⟨opened, hselects, helem, hfirst⟩ | ⟨hsame, helem, hfirst⟩
  · rw [hselects, List.map_cons, List.nodup_cons] at hnodup
    have hown : opened = field → own = [] := by
      rintro rfl
      exact h.unread fun s hs heq => hnodup.1 (List.mem_map.mpr ⟨s, hs, heq⟩)
    refine ⟨hfollows, fun s hs heq => ?_, fun hunread => h.unread fun s hs =>
      ?_, fun hfield => ?_, h.flags⟩
    · rw [hselects] at hs
      rcases List.mem_cons.mp hs with rfl | hs
      · rw [hown heq]
        rfl
      · exact h.pieces s hs heq
    · exact hunread s (by rw [hselects]; exact List.mem_cons_of_mem _ hs)
    · have hopened : opened = field := Option.some.inj (helem.symm.trans hfield)
      exact ⟨fun _ => hown hopened, fun _ => hfirst⟩
  · refine ⟨hfollows, fun s' hs' heq => ?_, fun hunread => h.unread fun s hs heq =>
      ?_, fun hfield => ?_, h.flags⟩
    · obtain ⟨s, hs, hpieces⟩ := exists_of_pieces hsame hs'
      rw [h.pieces s hs ((congrArg Prod.fst hpieces).trans heq)]
      exact congrArg Prod.snd hpieces
    · obtain ⟨s', hs', hpieces⟩ := exists_of_pieces hsame.symm hs
      exact hunread s' hs' ((congrArg Prod.fst hpieces).trans heq)
    · have hold := h.first (helem field hfield)
      change (_ = true ↔ _)
      rw [show (setControl edited ((control state).after event)).selectFirst =
        state.selectFirst from hfirst]
      exact hold

/-- A text that belongs to no value changes no texts. -/
theorem selects_idle {c : Control} (h : Follows r c)
    (hidle : c.selectElem = none ∨ c.inValue = false) (x : CString) :
    (r.read (.characters x)).selects = r.selects := by
  rw [Reading.read]
  rcases hidle with hselect | hvalue
  · have hnone : r.openSelect = none :=
      Option.map_eq_none_iff.mp (h.selectElem.symm.trans hselect)
    split
    · rw [Reading.selects, Reading.selects, hnone]
      rfl
    · rfl
  · rw [if_neg (by rw [← h.inValue, hvalue]; exact Bool.false_ne_true)]

/-- A text that belongs to a value is one more piece of the select element that is open. -/
theorem read_text {c : Control} {elem : CString} (h : Follows r c)
    (helem : c.selectElem = some elem) (hvalue : c.inValue = true) (x : CString) :
    ∃ s : Select, s.field = elem ∧ r.selects = s :: r.closed ∧
      (r.read (.characters x)).selects = s.addText x :: r.closed := by
  obtain ⟨s, hopen, hfield⟩ := Option.map_eq_some_iff.mp (h.selectElem.symm.trans helem)
  refine ⟨s, hfield, ?_, ?_⟩
  · rw [Reading.selects, hopen]
    rfl
  · rw [Reading.read, if_pos (h.inValue.symm.trans hvalue), Reading.selects, hopen]
    rfl

theorem collected_characters {own : List Callback} {x : CString} (h : Collected field r state own)
    (hnodup : ((r.read (.characters x)).selects.map (·.field)).Nodup)
    (hreach : ∀ c ∈ callback state (.characters x), c.elem = field →
      c.node.selects.any (matchesLine field) = true)
    (hstep : step state (.characters x) = some next) :
    Collected field (r.read (.characters x)) next
      (own ++ (callback state (.characters x)).toList.filter (·.elem = field)) := by
  have hfollows := follows_step h.follows hstep
  rcases characters_callback hstep
    with ⟨hnone, rfl, hidle⟩ | ⟨elem, version, node, hsome, helem, hvalue, -, rfl⟩
  · have hselects := selects_idle h.follows hidle x
    rw [hnone, Option.toList_none, List.filter_nil, List.append_nil]
    exact ⟨hfollows, hselects ▸ h.pieces, hselects ▸ h.unread, h.first, h.flags⟩
  obtain ⟨s, hfield, hselects, hread⟩ := read_text h.follows helem hvalue x
  rw [hsome] at hreach ⊢
  rw [hread, List.map_cons, List.nodup_cons] at hnodup
  have hclosed : s.field = field → ∀ s' ∈ r.closed, s'.field ≠ field := by
    rintro rfl s' hs' heq
    exact hnodup.1 (List.mem_map.mpr ⟨s', hs', heq⟩)
  by_cases hown : elem = field
  · obtain rfl := hown
    have hany := hreach _ rfl rfl
    have hsfield : s ∈ r.selects := hselects ▸ List.mem_cons_self
    rw [Option.toList_some, List.filter_cons_of_pos (by simp), List.filter_nil]
    refine ⟨hfollows, fun s' hs' heq => ?_, fun hunread =>
      ?_, fun _ => ?_, fun c rest hcons => ?_⟩
    · rw [hread] at hs'
      rcases List.mem_cons.mp hs' with rfl | hs'
      · rw [flatten_addText, List.map_append, h.pieces s hsfield hfield]
        rfl
      · exact absurd heq (hclosed hfield s' hs')
    · exact absurd hfield (hunread (s.addText x) (hread ▸ List.mem_cons_self))
    · have hfirst : (addOption elem x state.selectFirst node.selects).2 = false := by
        rw [addOption_first, hany]
        simp
      simp [XhtmlForms.addText, hfirst]
    · cases own with
      | nil =>
        obtain ⟨rfl, rfl⟩ := List.cons.inj hcons
        exact ⟨(h.first helem).mpr rfl, by simp⟩
      | cons a l =>
        obtain ⟨rfl, rfl⟩ := List.cons.inj hcons
        obtain ⟨hfirst, hrest⟩ := h.flags _ _ rfl
        refine ⟨hfirst, fun d hd => ?_⟩
        rcases List.mem_append.mp hd with hd | hd
        · exact hrest d hd
        · obtain rfl := List.mem_singleton.mp hd
          exact Bool.eq_false_iff.mpr fun htrue => List.cons_ne_nil _ _ ((h.first helem).mp htrue)
  · rw [Option.toList_some, List.filter_cons_of_neg (by simpa using hown),
      List.filter_nil, List.append_nil]
    have hother : s.field ≠ field := fun heq => hown (hfield.symm.trans heq)
    refine ⟨hfollows, fun s' hs' heq => ?_, fun hunread => h.unread fun s' hs' =>
      ?_, fun hfirst => ?_, h.flags⟩
    · rw [hread] at hs'
      rcases List.mem_cons.mp hs' with rfl | hs'
      · exact absurd heq hother
      · exact h.pieces s' (hselects ▸ List.mem_cons_of_mem _ hs') heq
    · rw [hselects] at hs'
      rcases List.mem_cons.mp hs' with rfl | hs'
      · exact hother
      · exact hunread s' (hread ▸ List.mem_cons_of_mem _ hs')
    · exact absurd (Option.some.inj (helem.symm.trans hfirst)) hown

theorem collected_step {own : List Callback} {event : Event} (h : Collected field r state own)
    (hnodup : ((r.read event).selects.map (·.field)).Nodup)
    (hreach : ∀ c ∈ callback state event, c.elem = field →
      c.node.selects.any (matchesLine field) = true)
    (hstep : step state event = some next) :
    Collected field (r.read event)
      next (own ++ (callback state event).toList.filter (·.elem = field)) := by
  by_cases hevent : ∃ x, event = .characters x
  · obtain ⟨x, rfl⟩ := hevent
    exact collected_characters h hnodup hreach hstep
  · have hother : ∀ x, event ≠ .characters x := fun x hx => hevent ⟨x, hx⟩
    rw [callback_of_not_characters hother, Option.toList_none, List.filter_nil, List.append_nil]
    exact collected_steps h hnodup hother hstep

theorem collected_run {own : List Callback} {events : List Event}
    (h : Collected field r state own)
    (hnodup : ((events.foldl Reading.read r).selects.map (·.field)).Nodup)
    (hreach : ∀ c ∈ callbacks state events, c.elem = field →
      c.node.selects.any (matchesLine field) = true)
    (hrun : run state events = some last) :
    Collected field (events.foldl Reading.read r) last
      (own ++ (callbacks state events).filter (·.elem = field)) := by
  induction events generalizing state r own with
  | nil =>
    obtain rfl := Option.some.inj hrun
    simpa [callbacks] using h
  | cons event rest ih =>
    rw [run, List.foldlM_cons] at hrun
    obtain ⟨next, hstep, hrest⟩ := Option.bind_eq_some_iff.mp hrun
    rw [callbacks, hstep, Option.elim_some] at hreach ⊢
    have hnext := collected_step h (hnodup.sublist (fields_suffix_run _ rest).sublist)
      (fun c hc => hreach c (List.mem_append_left _ (Option.mem_toList.mpr hc))) hstep
    rw [List.filter_append, ← List.append_assoc]
    exact ih hnext hnodup (fun c hc => hreach c (List.mem_append_right _ hc)) hrest

/-- A text within a value is a piece of a select element. -/
theorem callbacks_pieces {events : List Event} (h : Follows r (control state))
    (hrun : run state events = some last) :
    ∀ c ∈ callbacks state events, ∃ s ∈ (events.foldl Reading.read r).selects,
    c.piece ∈ s.values.flatten := by
  induction events generalizing state r with
  | nil => simp [callbacks]
  | cons event rest ih =>
    rw [run, List.foldlM_cons] at hrun
    obtain ⟨next, hstep, hrest⟩ := Option.bind_eq_some_iff.mp hrun
    rw [callbacks, hstep, Option.elim_some]
    rintro c hc
    rcases List.mem_append.mp hc with hc | hc
    · obtain ⟨⟨rfl, helem, hvalue⟩, -⟩ := callback_some (Option.mem_toList.mp hc)
      obtain ⟨s, -, -, hread⟩ := read_text h helem hvalue c.piece
      refine piece_run rest ⟨s.addText c.piece, hread ▸ List.mem_cons_self, ?_⟩
      rw [flatten_addText]
      exact List.mem_append_right _ (List.mem_singleton_self _)
    · exact ih (follows_step h hstep) hrest c hc

end Texts

section Counts

variable {values : List (List CString)}

theorem length_le_flatten (h : ∀ v ∈ values, v ≠ []) : values.length ≤ values.flatten.length := by
  induction values with
  | nil => exact le_rfl
  | cons v rest ih =>
    have hv := List.length_pos_iff.mpr (h v List.mem_cons_self)
    have hrest := ih fun v' hv' => h v' (List.mem_cons_of_mem v hv')
    rw [List.flatten_cons, List.length_append, List.length_cons]
    omega

/-- With no more pieces than values, each value is in one piece. -/
theorem whole_of_length (h : ∀ v ∈ values, v ≠ []) (hle : values.flatten.length ≤ values.length) :
    ∀ v ∈ values, v.length = 1 := by
  induction values with
  | nil => simp
  | cons v rest ih =>
    have hne : ∀ v' ∈ rest, v' ≠ [] := fun v' hv' => h v' (List.mem_cons_of_mem v hv')
    have hv := List.length_pos_iff.mpr (h v List.mem_cons_self)
    have hrest := length_le_flatten hne
    rw [List.flatten_cons, List.length_append, List.length_cons] at hle
    rintro v' hv'
    rcases List.mem_cons.mp hv' with rfl | hv'
    · omega
    · exact ih hne (by omega) v' hv'

theorem flatten_of_whole (h : ∀ v ∈ values, v.length = 1) :
    values.flatten = values.map List.flatten := by
  induction values with
  | nil => rfl
  | cons v rest ih =>
    obtain ⟨x, rfl⟩ := List.length_eq_one_iff.mp (h v List.mem_cons_self)
    rw [List.flatten_cons, List.map_cons, ih fun v' hv' => h v' (List.mem_cons_of_mem _ hv')]
    simp

end Counts

/-- The texts are looked up where the document says. -/
theorem callback_lookup (state : ParseState) (event : Event) :
    (callback state event).map (fun c => (c.elem, c.node.number)) =
      (outline state).lookup (layoutOf state) event := by
  cases event with
  | start el attr => rfl
  | stop el => rfl
  | characters x =>
    rw [callback, Outline.lookup]
    have hvalues : (outline state).inValue = state.inValue := rfl
    have hselect : (outline state).selectElem = state.selectElem := rfl
    rw [hvalues, hselect]
    by_cases hvalue : state.inValue = true
    · rw [if_pos hvalue, if_pos hvalue]
      cases state.selectElem with
      | none => rfl
      | some elem =>
        have htags : (outline state).formOf elem =
            (state.tags.nodes.find? fun tag => tag.tagname = elem).map (·.formversion) := rfl
        rw [Option.bind_some, Option.bind_some, searchRecipe, htags]
        cases state.tags.nodes.find? fun tag => tag.tagname = elem with
        | none => rfl
        | some tag =>
          rw [Option.map_some, Option.map_some, Option.bind_some, Option.bind_some,
            ← layoutOf_search, NodeList.current_map, Option.map_map, Option.map_map]
          rfl
    · rw [if_neg hvalue, if_neg hvalue]
      rfl

theorem callbacks_lookups {state last : ParseState} {events : List Event}
    (h : run state events = some last) :
    (callbacks state events).map (fun c => (c.elem, c.node.number)) =
      (outline state).lookups (layoutOf state) events := by
  induction events generalizing state with
  | nil => rfl
  | cons event rest ih =>
    rw [run, List.foldlM_cons] at h
    obtain ⟨middle, hstep, hrest⟩ := Option.bind_eq_some_iff.mp h
    have hmoved := moved_step hstep
    rw [callbacks, hstep, Option.elim_some, List.map_append, ih hrest, Outline.lookups,
      hmoved.outline_eq, hmoved.layout_eq, ← callback_lookup, Option.toList_map]

/-- A form whose recipes are returned, and one of its choices: its line, in the state
before its select element is read, and the select element. Where the recipe of the line
is returned it can be read back. -/
structure Extraction where
  before : List Event
  after : List Event
  field : CString
  type : FieldType
  index : ℕ
  state : ParseState
  last : ParseState
  declared : RecipeNode
  select : Select
  output : List Specification
  formHash : CString → List UInt8
  choice : type = .enum ∨ type = .multiselect
  run_before : run initial before = some state
  run_after : run state after = some last
  declared_mem : declared ∈ state.recipes.nodes
  declared_line : declared.selects[index]? = some (fieldLine field type (0, 0))
  found : ∀ l ∈ lookups before after, l.1 = field → l.2 = declared.number
  unread : ∀ s ∈ (document before).selects, s.field ≠ field
  select_mem : select ∈ (document (before ++ after)).selects
  select_field : select.field = field
  names : ((document (before ++ after)).selects.map (·.field)).Nodup
  texts : ∀ s ∈ (document (before ++ after)).selects, ∀ t ∈ s.texts, t ≠ [] ∧
    44 ∉ t ∧ 58 ∉ t ∧ 10 ∉ t
  returns : xhtmlToRecipe true (before ++ after) = some (0, output)
  reads : ∀ node ∈ last.recipes.rest, node.number = declared.number →
    (recipeRead formHash (finish node).formVersion (finish node).recipeText).isSome

namespace Extraction

variable (e : Extraction)

def reaching : List Callback :=
  (callbacks e.state e.after).filter (·.reaches e.declared.number e.index)

def own : List Callback := (callbacks e.state e.after).filter (·.elem = e.field)

/-- The recipe of the line is returned, and the field that is read from the line has the
texts of the values as its options. -/
def Exact : Prop :=
  ∃ node ∈ e.last.recipes.rest, node.number = e.declared.number ∧
    ∃ recipe, recipeRead e.formHash (finish node).formVersion (finish node).recipeText =
        some recipe ∧
      ∃ field ∈ recipe.fieldList, (∃ line ∈ node.selects[e.index]?, parseLine line = some field) ∧
        field.name = e.field ∧ field.enumValue = e.select.texts

/-- The document ends where the recipe is returned, the name can stand in a line, and
every value comes in one piece without the end of a line. No other choice of the form
with a text has a name that this one begins with, and this one is not the beginning of
the name of an earlier choice, in either case. -/
structure Apart : Prop where
  returned : ∃ form ∈ (layout (moves (e.before ++ e.after))).forms.rest,
    form.number = e.declared.number
  name : e.field ≠ [] ∧ e.field.head? ≠ some 35 ∧ 58 ∉ e.field ∧ ∀ b ∈ e.field, lineEnd b = false
  nonempty : e.select.values ≠ []
  whole : ∀ v ∈ e.select.values, v.length = 1
  unbroken : ∀ t ∈ e.select.texts, 13 ∉ t
  alone : ∀ l ∈ lookups e.before e.after, l.2 = e.declared.number → l.1 ≠ e.field →
    ¬ l.1.map tolower <+: e.field.map tolower
  -- a name with a colon may also be as long as the line
  long : ∀ c ∈ callbacks e.state e.after, 58 ∈ c.elem → c.elem ≠ e.field →
    c.reaches e.declared.number e.index = false
  first : ∀ line ∈ e.declared.selects.take e.index,
    ¬ e.field.map tolower <+: (choiceName line).map tolower

theorem run_all : run initial (e.before ++ e.after) = some e.last :=
  run_append e.run_before e.run_after

theorem returned_iff :
    (∃ form ∈ (layout (moves (e.before ++ e.after))).forms.rest,
      form.number = e.declared.number) ↔
      ∃ node ∈ e.last.recipes.rest, node.number = e.declared.number := by
  have hforms : (layout (moves (e.before ++ e.after))).forms = e.last.recipes.map form :=
    (congrArg Layout.forms (layout_moves e.run_all)).symm
  rw [hforms, NodeList.rest_map]
  constructor
  · rintro ⟨_, hform, hnumber⟩
    obtain ⟨node, hnode, rfl⟩ := List.mem_map.mp hform
    exact ⟨node, hnode, hnumber⟩
  · rintro ⟨node, hnode, hnumber⟩
    exact ⟨form node, List.mem_map_of_mem hnode, hnumber⟩

theorem numbered : Numbered e.state := (run_numbered e.run_before).1 numbered_initial

theorem lookups_eq : (callbacks e.state e.after).map (fun c => (c.elem, c.node.number)) =
    lookups e.before e.after := by
  rw [lookups, ← layout_moves e.run_before]
  have houtline : outline e.state = e.before.foldl Outline.after .start := outline_run e.run_before
  rw [← houtline]
  exact callbacks_lookups e.run_after

theorem mem_lookups {c : Callback} (hc : c ∈ callbacks e.state e.after) :
    (c.elem, c.node.number) ∈ lookups e.before e.after :=
  e.lookups_eq ▸ List.mem_map_of_mem hc

theorem matches_own (tail : CString) :
    matchesLine e.field (fieldLine e.field e.type (0, 0) ++ tail) = true := by
  rw [fieldLine_zero, matchesLine, strncasecmp, List.take_length, List.take_left]
  exact strcasecmp_iff.mpr rfl

theorem own_reaches {c : Callback} (hc : c ∈ callbacks e.state e.after)
    (helem : c.elem = e.field) :
    c.reaches e.declared.number e.index = true ∧
    c.node.selects.any (matchesLine e.field) = true := by
  have hnumber : c.node.number = e.declared.number := e.found _ (e.mem_lookups hc) helem
  obtain ⟨tail, htail⟩ := callbacks_line e.numbered e.declared_mem e.declared_line c hc hnumber
  have hmatch := e.matches_own tail
  refine ⟨?_, List.any_eq_true.mpr ⟨_, List.mem_of_getElem? htail, hmatch⟩⟩
  rw [Callback.reaches, hnumber, htail, helem]
  simp [hmatch]

/-- The names tell which other texts come to the line. -/
theorem reaches_iff {c : Callback} (hc : c ∈ callbacks e.state e.after)
    (hnumber : c.node.number = e.declared.number) (hcolon : 58 ∉ c.elem) :
    c.reaches e.declared.number e.index = true ↔ c.elem.map tolower <+: e.field.map tolower := by
  obtain ⟨tail, htail⟩ := callbacks_line e.numbered e.declared_mem e.declared_line c hc hnumber
  rw [Callback.reaches, hnumber, htail, fieldLine_zero, Option.any_some,
    decide_eq_true rfl, Bool.true_and]
  exact matchesLine_iff _ hcolon

theorem own_eq : e.own = e.reaching.filter (·.elem = e.field) := by
  rw [own, reaching, List.filter_filter]
  refine List.filter_congr fun c hc => ?_
  by_cases helem : c.elem = e.field
  · simp [helem, (e.own_reaches hc helem).1]
  · simp [helem]

theorem collected : Collected e.field (document (e.before ++ e.after)) e.last e.own := by
  have hfollows : Follows (document e.before) (control e.state) :=
    follows_run ⟨rfl, rfl, rfl⟩ e.run_before
  have hstart : Collected e.field (document e.before) e.state [] := by
    refine ⟨hfollows, fun s hs heq => absurd heq (e.unread s hs), fun _ =>
      rfl, fun hfield => ?_, by simp⟩
    obtain ⟨s, hopen, heq⟩ := Option.map_eq_some_iff.mp (hfollows.selectElem.symm.trans hfield)
    exact absurd heq (e.unread s (List.mem_append_left _ (Option.mem_toList.mpr hopen)))
  have hdocument : document (e.before ++ e.after) =
    e.after.foldl Reading.read (document e.before) :=
    List.foldl_append
  rw [hdocument]
  exact collected_run hstart (hdocument ▸ e.names)
    (fun c hc helem => (e.own_reaches hc helem).2) e.run_after

theorem own_pieces : e.own.map (·.piece) = e.select.values.flatten :=
  e.collected.pieces e.select e.select_mem e.select_field

theorem line_eq {node : RecipeNode} (hnode : node ∈ e.last.recipes.rest)
    (hnumber : node.number = e.declared.number) : node.selects[e.index]? =
      some (fieldLine e.field e.type (0, 0) ++
        (e.reaching.map (·.item e.index)).flatMap separated) := by
  rw [List.flatMap_map]
  exact run_line e.numbered e.run_after e.declared_mem e.declared_line
    (NodeList.mem_of_rest hnode)
    hnumber

/-- The texts have no separators. -/
theorem piece_plain {c : Callback} (hc : c ∈ callbacks e.state e.after) :
    44 ∉ c.piece ∧ 10 ∉ c.piece := by
  have hfollows : Follows (document e.before) (control e.state) :=
    follows_run ⟨rfl, rfl, rfl⟩ e.run_before
  have hdocument : document (e.before ++ e.after) =
    e.after.foldl Reading.read (document e.before) :=
    List.foldl_append
  obtain ⟨s, hs, hpiece⟩ := callbacks_pieces hfollows e.run_after c hc
  obtain ⟨v, hv, hmem⟩ := List.mem_flatten.mp hpiece
  obtain ⟨-, hcomma, -, hend⟩ := e.texts s (hdocument ▸ hs) v.flatten (List.mem_map_of_mem hv)
  exact ⟨fun h => hcomma (List.mem_flatten.mpr ⟨_, hmem, h⟩), fun h =>
    hend (List.mem_flatten.mpr ⟨_, hmem, h⟩)⟩

theorem select_plain : ∀ t ∈ e.select.texts, t ≠ [] ∧ 58 ∉ t := fun t ht =>
  ⟨(e.texts e.select e.select_mem t ht).1, (e.texts e.select e.select_mem t ht).2.2.1⟩

theorem item_plain : ∀ item ∈ e.reaching.map (·.item e.index), 44 ∉ item.2 ∧ 10 ∉ item.2 := by
  rintro item hitem
  obtain ⟨c, hc, rfl⟩ := List.mem_map.mp hitem
  exact e.piece_plain (List.mem_of_mem_filter hc)

/-- The options are read back exactly if they are the only texts of the line, each a value. -/
theorem splitOn_iff :
    (optionText ((e.reaching.map (·.item e.index)).flatMap separated)).splitOn
      44 = e.select.texts ↔
    (e.select.values ≠ [] ∧ ∀ v ∈ e.select.values, v.length = 1) ∧
    (∀ c ∈ e.reaching, c.elem = e.field) ∧
      ∀ c ∈ e.own.head?, c.taken e.index = false := by
  have hsnd : (e.reaching.map (·.item e.index)).map Prod.snd = e.reaching.map (·.piece) := by
    rw [List.map_map]
    rfl
  have hvalues : ∀ v ∈ e.select.values, v ≠ [] := by
    rintro v hv rfl
    exact (e.select_plain [] (List.mem_map.mpr ⟨[], hv, rfl⟩)).1 rfl
  rw [splitOn_options_iff e.item_plain e.select_plain, hsnd]
  have hfilter : e.own.length ≤ e.reaching.length := by
    rw [own_eq]
    exact List.length_filter_le _ _
  constructor
  · rintro ⟨⟨x, rest, hshape, -⟩, hpieces⟩
    -- every value has a piece, and every piece of them is a text of the line
    have hreaching : e.reaching.length = e.select.values.length := by
      have hlength := congrArg List.length hpieces
      rwa [List.length_map, Select.texts, List.length_map] at hlength
    have howned : e.own.length = e.select.values.flatten.length := by
      have hlength := congrArg List.length e.own_pieces
      rwa [List.length_map] at hlength
    have hle := length_le_flatten hvalues
    have hown : e.own = e.reaching := by
      rw [own_eq] at hfilter howned ⊢
      exact List.filter_sublist.eq_of_length_le (by omega)
    refine ⟨⟨?_, whole_of_length hvalues (by omega)⟩, fun c hc => ?_, fun c hc => ?_⟩
    · rintro hnil
      have hempty := List.length_eq_zero_iff.mp (hreaching.trans (congrArg List.length hnil))
      rw [hempty] at hshape
      cases hshape
    · rw [own_eq, List.filter_eq_self] at hown
      exact of_decide_eq_true (hown c hc)
    · rw [hown] at hc
      have hitem : ((e.reaching.map (·.item e.index)).head?) = some (c.item e.index) := by
        rw [List.head?_map, hc]
        rfl
      rw [hshape] at hitem
      have hopens := congrArg Prod.fst (Option.some.inj hitem)
      simp only [Callback.item] at hopens
      simpa using (Bool.and_eq_true_iff.mp hopens.symm).2
  · rintro ⟨⟨hnonempty, hwhole⟩, halone, hfirst⟩
    have hown : e.own = e.reaching := by
      rw [own_eq]
      exact List.filter_eq_self.mpr fun c hc => decide_eq_true (halone c hc)
    have hpieces := e.own_pieces
    rw [flatten_of_whole hwhole] at hpieces
    rw [← hown]
    refine ⟨?_, hpieces⟩
    cases hlist : e.own with
    | nil =>
      rw [hlist] at hpieces
      exact absurd (List.map_eq_nil_iff.mp hpieces.symm) hnonempty
    | cons c rest =>
      obtain ⟨hflag, hrest⟩ := e.collected.flags c rest hlist
      rw [hlist] at hfirst
      refine ⟨c.piece, rest.map (·.item e.index), ?_, fun item hitem => ?_⟩
      · rw [List.map_cons, Callback.item, hflag, hfirst c rfl]
        rfl
      · obtain ⟨d, hd, rfl⟩ := List.mem_map.mp hitem
        rw [Callback.item, hrest d hd, Bool.false_and]

theorem mem_fieldLines {node : RecipeNode} {recipe : Recipe} {field : Field}
    (hread : recipeRead e.formHash (finish node).formVersion
      (finish node).recipeText = some recipe)
    (hfield : field ∈ recipe.fieldList) :
    ∃ line ∈ fieldLines (finish node).recipeText, parseLine line = some field := by
  have hmem : some field ∈ (fieldLines (finish node).recipeText).map parseLine := by
    rw [recipeRead_lines hread]
    exact List.mem_map_of_mem hfield
  exact List.mem_map.mp hmem

/-- The names tell which texts come to the line. -/
theorem alone_iff (hcolon : 58 ∉ e.field) : (∀ c ∈ e.reaching, c.elem = e.field) ↔
    (∀ l ∈ lookups e.before e.after, l.2 = e.declared.number → l.1 ≠ e.field →
      ¬ l.1.map tolower <+: e.field.map tolower) ∧
    ∀ c ∈ callbacks e.state e.after, 58 ∈ c.elem → c.elem ≠ e.field →
      c.reaches e.declared.number e.index = false := by
  constructor
  · intro halone
    have hmissed : ∀ c ∈ callbacks e.state e.after, c.elem ≠ e.field →
        c.reaches e.declared.number e.index = false := by
      intro c hc hother
      rw [Bool.eq_false_iff]
      exact fun hreaches => hother (halone c (List.mem_filter.mpr ⟨hc, hreaches⟩))
    refine ⟨fun l hl hnumber hother hpre => ?_, fun c hc _ => hmissed c hc⟩
    rw [← lookups_eq] at hl
    obtain ⟨c, hc, rfl⟩ := List.mem_map.mp hl
    have hplain : 58 ∉ c.elem := by
      intro hmem
      obtain ⟨b, hb, hlower⟩ := List.mem_map.mp (hpre.subset (List.mem_map_of_mem hmem))
      exact hcolon (tolower_colon hlower ▸ hb)
    have hreaches := (e.reaches_iff hc hnumber hplain).mpr hpre
    rw [hmissed c hc hother] at hreaches
    cases hreaches
  · rintro ⟨hnames, hlong⟩ c hc
    obtain ⟨hmem, hreaches⟩ := List.mem_filter.mp hc
    have hnumber : c.node.number = e.declared.number :=
      of_decide_eq_true (Bool.and_eq_true_iff.mp hreaches).1
    by_contra hother
    by_cases hplain : 58 ∈ c.elem
    · rw [hlong c hmem hplain hother] at hreaches
      cases hreaches
    · exact hnames _ (e.mem_lookups hmem) hnumber hother
        ((e.reaches_iff hmem hnumber hplain).mp hreaches)

/-- The names tell whether a text goes to an earlier line. -/
theorem taken_iff {c : Callback} (hc : c ∈ callbacks e.state e.after)
    (hnumber : c.node.number = e.declared.number) (hcolon : 58 ∉ c.elem) :
    c.taken e.index = true ↔ ∃ line ∈ e.declared.selects.take e.index,
      c.elem.map tolower <+: (choiceName line).map tolower := by
  have hnamed := named_run named_initial e.run_before e.declared e.declared_mem
  have hgrown : ∀ {j : ℕ} {line : CString}, e.declared.selects[j]? = some line →
      ∃ tail, c.node.selects[j]? = some (line ++ tail) := fun hline =>
    callbacks_line e.numbered e.declared_mem hline c hc hnumber
  obtain ⟨hlength, -⟩ := List.getElem?_eq_some_iff.mp e.declared_line
  rw [Callback.taken, List.any_eq_true]
  constructor
  · rintro ⟨line', hmem, hmatch⟩
    obtain ⟨j, hj⟩ := List.mem_iff_getElem?.mp hmem
    rw [List.getElem?_take] at hj
    by_cases hlt : j < e.index
    · rw [if_pos hlt] at hj
      have hline := List.getElem?_eq_getElem (hlt.trans hlength)
      obtain ⟨tail, htail⟩ := hgrown hline
      obtain rfl := Option.some.inj (htail.symm.trans hj)
      refine ⟨_, List.mem_iff_getElem?.mpr ⟨j, ?_⟩,
        (matchesLine_append tail hcolon (hnamed _ (List.mem_of_getElem? hline))).mp hmatch⟩
      rw [List.getElem?_take, if_pos hlt]
      exact hline
    · rw [if_neg hlt] at hj
      cases hj
  · rintro ⟨line, hmem, hpre⟩
    obtain ⟨j, hj⟩ := List.mem_iff_getElem?.mp hmem
    rw [List.getElem?_take] at hj
    by_cases hlt : j < e.index
    · rw [if_pos hlt] at hj
      obtain ⟨tail, htail⟩ := hgrown hj
      refine ⟨line ++ tail, List.mem_iff_getElem?.mpr ⟨j, ?_⟩,
        (matchesLine_append tail hcolon (hnamed _ (List.mem_of_getElem? hj))).mpr hpre⟩
      rw [List.getElem?_take, if_pos hlt]
      exact htail
    · rw [if_neg hlt] at hj
      cases hj

theorem first_iff (hcolon : 58 ∉ e.field) (hown : e.own ≠ []) :
    (∀ c ∈ e.own.head?, c.taken e.index = false) ↔
      ∀ line ∈ e.declared.selects.take e.index,
        ¬ e.field.map tolower <+: (choiceName line).map tolower := by
  obtain ⟨c, rest, hcons⟩ := List.exists_cons_of_ne_nil hown
  have hmem : c ∈ e.own := by
    rw [hcons]
    exact List.mem_cons_self
  obtain ⟨hc, helem⟩ := List.mem_filter.mp hmem
  have hfield : c.elem = e.field := of_decide_eq_true helem
  have htaken := e.taken_iff hc (e.found _ (e.mem_lookups hc) hfield) (hfield ▸ hcolon)
  rw [hfield] at htaken
  rw [hcons, List.head?_cons]
  constructor
  · intro hfirst line hline hpre
    have hno := hfirst c rfl
    rw [htaken.mpr ⟨line, hline, hpre⟩] at hno
    cases hno
  · intro hnames c' hc'
    obtain rfl : c = c' := Option.some.inj hc'
    rw [Bool.eq_false_iff]
    intro htrue
    obtain ⟨line, hline, hpre⟩ := htaken.mp htrue
    exact hnames line hline hpre

/-- With values that come in one piece each, there is a text. -/
theorem own_ne_nil (hnonempty : e.select.values ≠ [])
    (hwhole : ∀ v ∈ e.select.values, v.length = 1) :
    e.own ≠ [] := by
  intro hnil
  have hpieces := e.own_pieces
  rw [hnil, flatten_of_whole hwhole] at hpieces
  exact hnonempty (List.map_eq_nil_iff.mp hpieces.symm)

theorem parse_line (hne : e.field ≠ []) (hcolon : 58 ∉ e.field) :
    parseLine (fieldLine e.field e.type (0, 0) ++
      (e.reaching.map (·.item e.index)).flatMap separated) =
      (parseEnumValues (optionText ((e.reaching.map (·.item e.index)).flatMap separated))).map
        fun values =>
        ⟨e.field, e.type, 0, 0, 0, values⟩ :=
  parseLine_choice e.choice hne hcolon (head_separated _)

/-- A name that is read stands in a line. -/
theorem apart_of_exact (h : e.Exact) : e.Apart := by
  obtain ⟨node, hnode, hnumber, recipe, hread, field, hmem, ⟨line, hline, hparse⟩, hname,
    hoptions⟩ := h
  rw [e.line_eq hnode hnumber, Option.mem_def, Option.some.injEq] at hline
  obtain ⟨⟨hne, -, hcolon⟩, -⟩ := parseLine_bytes hparse
  rw [hname] at hne hcolon
  rw [← hline, parse_line e hne hcolon] at hparse
  obtain ⟨values, hvalues, rfl⟩ := Option.map_eq_some_iff.mp hparse
  obtain ⟨⟨hnonempty, hwhole⟩, halone, hfirst⟩ :=
    e.splitOn_iff.mp ((parseEnumValues_eq hvalues).symm.trans hoptions)
  obtain ⟨line', hline', hparse'⟩ := e.mem_fieldLines hread hmem
  obtain ⟨hpiece, hfield⟩ := List.mem_filter.mp hline'
  obtain ⟨⟨-, hpre, -⟩, hbytes⟩ := parseLine_bytes hparse'
  have hclean : ∀ b ∈ line', lineEnd b = false := fun b hb =>
    (of_mem_splitOnP _ _ line' hpiece b hb).2
  have hhead : line'.head? = e.field.head? := by
    obtain ⟨rest, rfl⟩ := hpre
    exact List.head?_append_of_ne_nil _ hne
  refine ⟨e.returned_iff.mpr ⟨node, hnode, hnumber⟩,
    ⟨hne, ?_, hcolon, fun b hb => hclean b (hpre.subset hb)⟩, hnonempty, hwhole,
    fun t ht hreturn => ?_, ((e.alone_iff hcolon).mp halone).1, ((e.alone_iff hcolon).mp halone).2,
    (e.first_iff hcolon (e.own_ne_nil hnonempty hwhole)).mp hfirst⟩
  · rw [← hhead]
    exact (of_decide_eq_true hfield).2
  · have hvalues' : values = e.select.texts := hoptions
    have hoption : t ∈ values := hvalues' ▸ ht
    exact absurd (hclean 13 (hbytes t hoption 13 hreturn)) (by decide)

theorem Apart.reaching_own (h : e.Apart) : ∀ c ∈ e.reaching, c.elem = e.field :=
  (e.alone_iff h.name.2.2.1).mpr ⟨h.alone, h.long⟩

/-- What is added to the line does not end it. -/
theorem Apart.texts_clean (h : e.Apart) :
    ∀ b ∈ (e.reaching.map (·.item e.index)).flatMap separated, lineEnd b = false := by
  rintro b hb
  obtain ⟨item, hitem, hb⟩ := List.mem_flatMap.mp hb
  obtain ⟨c, hc, rfl⟩ := List.mem_map.mp hitem
  rcases List.mem_cons.mp hb with hb | hb
  · rw [hb]
    split <;> rfl
  · have hown : c ∈ e.own := by
      rw [own_eq]
      exact List.mem_filter.mpr ⟨hc, decide_eq_true (h.reaching_own e c hc)⟩
    have hpiece : c.piece ∈ e.select.texts := by
      rw [Select.texts, ← flatten_of_whole h.whole, ← own_pieces]
      exact List.mem_map_of_mem hown
    have hnewline : b ≠ 10 := fun heq => (e.texts e.select e.select_mem _ hpiece).2.2.2 (heq ▸ hb)
    have hreturn : b ≠ 13 := fun heq => h.unbroken _ hpiece (heq ▸ hb)
    simp [lineEnd, hnewline, hreturn]

theorem typeName_clean {type : FieldType} (h : type = .enum ∨ type = .multiselect) :
    ∀ b ∈ recipeFieldTypeName type, lineEnd b = false := by
  have hall : (recipeFieldTypeName type).all (fun b => !lineEnd b) = true := by
    rcases h with rfl | rfl
    · rfl
    · rfl
  rintro b hb
  simpa using List.all_eq_true.mp hall b hb

/-- The line is a line of the text that is read. -/
theorem Apart.line_mem (h : e.Apart) {node : RecipeNode} (hnode : node ∈ e.last.recipes.rest)
    (hnumber : node.number = e.declared.number) :
    fieldLine e.field e.type (0, 0) ++ (e.reaching.map (·.item e.index)).flatMap separated ∈
      fieldLines (finish node).recipeText := by
  have hlast : Numbered e.last := (run_numbered e.run_after).1 e.numbered
  obtain ⟨hne, hhash, -, hclean⟩ := h.name
  refine RecipeLines.line_mem (hlast.closed _ (NodeList.mem_of_rest hnode))
    (e.line_eq hnode hnumber) (fun b hb => ?_) ?_
  · simp only [fieldLine_zero, List.mem_append, List.mem_cons] at hb
    rcases hb with hb | rfl | hb | rfl | rfl | rfl | rfl | rfl | rfl | hb
    · exact hclean b hb
    · rfl
    · exact typeName_clean e.choice b hb
    · rfl
    · rfl
    · rfl
    · rfl
    · rfl
    · rfl
    · exact h.texts_clean e b hb
  · rw [fieldLine_zero, hasField, decide_eq_true_eq, List.head?_append_of_ne_nil _ hne]
    exact ⟨List.append_ne_nil_of_left_ne_nil hne _, hhash⟩

theorem exact_of_apart (h : e.Apart) : e.Exact := by
  obtain ⟨node, hnode, hnumber⟩ := e.returned_iff.mp h.returned
  obtain ⟨recipe, hread⟩ := Option.isSome_iff_exists.mp (e.reads node hnode hnumber)
  have hmem := h.line_mem e hnode hnumber
  obtain ⟨hne, -, hcolon, -⟩ := h.name
  have hfirst := (e.first_iff hcolon (e.own_ne_nil h.nonempty h.whole)).mpr h.first
  have hparsed := List.mem_map_of_mem (f := parseLine) hmem
  rw [recipeRead_lines hread, parse_line e hne hcolon] at hparsed
  obtain ⟨field, hfield, heq⟩ := List.mem_map.mp hparsed
  obtain ⟨values, hvalues, rfl⟩ := Option.map_eq_some_iff.mp heq.symm
  refine ⟨node, hnode, hnumber, recipe, hread, _, hfield,
    ⟨_, e.line_eq hnode hnumber, ?_⟩, rfl, ?_⟩
  · rw [parse_line e hne hcolon, hvalues]
    rfl
  · exact (parseEnumValues_eq hvalues).trans
      (e.splitOn_iff.mpr ⟨⟨h.nonempty, h.whole⟩, h.reaching_own e, hfirst⟩)

/-- The options are read back exactly if the recipe is returned and nothing else comes
to their line. -/
theorem exact_iff_apart : e.Exact ↔ e.Apart := ⟨e.apart_of_exact, e.exact_of_apart⟩

end Extraction

def valueRead (pieces : List CString) : List Event :=
  .start (text "xf:value") [] :: pieces.map .characters ++ [.stop (text "xf:value")]

def selectRead (el path : String) (values : List (List CString)) : List Event :=
  .start (text el) [(text "bind", text path)] :: values.flatMap valueRead ++ [.stop (text el)]

section Baskets

def bindRead (path type : String) : List Event :=
  [.start (text "bind") [(text "nodeset", text path), (text "type", text type)],
    .stop (text "bind")]

def basketDeclared : List Event :=
  [.start (text "h:html") [],
    .start (text "data") [(ddFormid, text "main")],
    .start (text "size") [], .stop (text "size"),
    .start (text "colour") [], .stop (text "colour"),
    .start (text "basket") [(ddSubformid, text "sub")],
    .start (text "fruit") [], .stop (text "fruit"),
    .stop (text "basket"), .stop (text "data")] ++
  bindRead "/data/size" "xsd:select1" ++ bindRead "/data/colour" "xsd:selectn" ++
  bindRead "/data/basket" "xsd:subform" ++ bindRead "/data/basket/fruit" "xsd:select1"

def basketRead : List Event :=
  selectRead "xf:select1" "/data/basket/fruit" [[text "apple"], [text "pe", text "ar"]] ++
  selectRead "xf:select1" "/data/size" [[text "small"], [text "large"]] ++
  selectRead "xf:select" "/data/colour" [[text "red"], [text "green"], [text "blue"]]

def basketMain (size colour : CString) : RecipeNode where
  number := 0
  isSubformNode := false
  formversion := text "main"
  recipe := impliedMetaFields ++ lines ["subform/sub:subform:0:0:0"]
  selects := [size, colour]

def basketSub (fruit : CString) : RecipeNode where
  number := 1
  isSubformNode := true
  formversion := text "sub"
  recipe := impliedMetaFieldsSubforms
  selects := [fruit]

def basketState (size colour fruit : CString) (curr : Fin 2) (first : Bool) : ParseState where
  recipes :=
    ⟨[basketMain size colour, basketSub fruit], some curr, by rintro _ ⟨⟩; exact curr.isLt⟩
  tags := ⟨[⟨text "size", text "main"⟩, ⟨text "colour", text "main"⟩, ⟨text "basket", text "sub"⟩,
    ⟨text "fruit", text "sub"⟩], some 3, by simp⟩
  subforms := [text "main"]
  selectElem := none
  selectFirst := first
  inValue := false
  inInstance := false
  subformTags := []
  created := 2

set_option maxRecDepth 4000 in
theorem run_basketDeclared : run initial basketDeclared = some (basketState
    (text "size:enum:0:0:0") (text "colour:multi:0:0:0")
      (text "fruit:enum:0:0:0") 1 true) := (rfl)

theorem run_basketRead : run (basketState (text "size:enum:0:0:0") (text "colour:multi:0:0:0")
    (text "fruit:enum:0:0:0") 1 true) basketRead =
    some (basketState (text "size:enum:0:0:0:small,large")
      (text "colour:multi:0:0:0:red,green,blue")
      (text "fruit:enum:0:0:0:apple,pe,ar") 0 false) := (rfl)

def colourChoice : Extraction where
  before := basketDeclared
  after := basketRead
  field := text "colour"
  type := .multiselect
  index := 1
  state := basketState (text "size:enum:0:0:0") (text "colour:multi:0:0:0")
    (text "fruit:enum:0:0:0") 1 true
  last :=
    basketState (text "size:enum:0:0:0:small,large") (text "colour:multi:0:0:0:red,green,blue")
    (text "fruit:enum:0:0:0:apple,pe,ar") 0 false
  declared := basketMain (text "size:enum:0:0:0") (text "colour:multi:0:0:0")
  select := ⟨text "colour", [[text "red"], [text "green"], [text "blue"]]⟩
  output := [finish (basketMain (text "size:enum:0:0:0:small,large")
    (text "colour:multi:0:0:0:red,green,blue")),
      finish (basketSub (text "fruit:enum:0:0:0:apple,pe,ar"))]
  formHash := fun _ => []
  choice := Or.inr rfl
  run_before := run_basketDeclared
  run_after := run_basketRead
  declared_mem := List.mem_cons_self
  declared_line := by decide +kernel
  found := by decide +kernel
  unread := by decide +kernel
  select_mem := List.mem_cons_self
  select_field := rfl
  names := by decide +kernel
  texts := by decide +kernel
  returns := output_of_run (run_append run_basketDeclared run_basketRead) (by decide)
  reads := by decide +kernel

theorem colourChoice_exact : colourChoice.Exact :=
  colourChoice.exact_iff_apart.mpr
    { returned := by decide +kernel
      name := by decide +kernel
      nonempty := by decide +kernel
      whole := by decide +kernel
      unbroken := by decide +kernel
      alone := by decide +kernel
      long := by decide +kernel
      first := by decide +kernel }

end Baskets

section Colours

def choiceDeclared : List Event :=
  [.start (text "h:html") [],
    .start (text "data") [(ddFormid, text "main")], .start (text "colour") [],
      .stop (text "colour"), .stop (text "data"),
    .start (text "bind") [(text "nodeset", text "/data/colour"),
      (text "type", text "xsd:select1")], .stop (text "bind")]

def colourRecipe (line : CString) : RecipeNode :=
  ⟨0, false, text "main", impliedMetaFields, [line]⟩

def colourState (line : CString) (first : Bool) : ParseState where
  recipes := ⟨[colourRecipe line], some 0, by simp⟩
  tags := ⟨[⟨text "colour", text "main"⟩], some 0, by simp⟩
  subforms := [text "main"]
  selectElem := none
  selectFirst := first
  inValue := false
  inInstance := false
  subformTags := []
  created := 1

theorem run_choiceDeclared :
    run initial choiceDeclared = some (colourState (text "colour:enum:0:0:0") true) := (rfl)

def splitRead : List Event := selectRead "xf:select1" "/data/colour" [[text "r", text "ed"]]

theorem run_split : run (colourState (text "colour:enum:0:0:0") true) splitRead =
    some (colourState (text "colour:enum:0:0:0:r,ed") false) := (rfl)

def splitChoice : Extraction where
  before := choiceDeclared
  after := splitRead
  field := text "colour"
  type := .enum
  index := 0
  state := colourState (text "colour:enum:0:0:0") true
  last := colourState (text "colour:enum:0:0:0:r,ed") false
  declared := colourRecipe (text "colour:enum:0:0:0")
  select := ⟨text "colour", [[text "r", text "ed"]]⟩
  output := [finish (colourRecipe (text "colour:enum:0:0:0:r,ed"))]
  formHash := fun _ => []
  choice := Or.inl rfl
  run_before := run_choiceDeclared
  run_after := run_split
  declared_mem := List.mem_singleton_self _
  declared_line := by decide +kernel
  found := by decide +kernel
  unread := by decide +kernel
  select_mem := List.mem_cons_self
  select_field := rfl
  names := by decide +kernel
  texts := by decide +kernel
  returns := output_of_run (run_append run_choiceDeclared run_split) (by decide)
  reads := by decide +kernel

/-- A value in two pieces becomes two options. -/
theorem splitChoice_inexact : ¬ ∀ e : Extraction, e.Exact := by
  intro h
  obtain ⟨node, hnode, -, -, -, field, -, ⟨line, hline, hparse⟩, -, hoptions⟩ := h splitChoice
  obtain rfl := List.mem_singleton.mp hnode
  obtain rfl : text "colour:enum:0:0:0:r,ed" = line := Option.some.inj hline
  have hfield : parseLine (text "colour:enum:0:0:0:r,ed") =
      some ⟨text "colour", .enum, 0, 0, 0, [text "r", text "ed"]⟩ := by decide +kernel
  obtain rfl := Option.some.inj (hfield.symm.trans hparse)
  exact absurd hoptions (by decide +kernel)

end Colours

end Succinct.OptionLists
