import Succinct.Recipes
import Succinct.NodeLists

/-!
The events that the XML library delivers for a form, and the recipes that
forms/xhtml2recipe.c makes of them. A recipe is found again by the version of its
form, and a question by its tag. A pointer that is NULL where it is used, and a text
or an index that runs over its array, have no result. The template and the name of
the form, which no recipe depends on, are left out.
-/
namespace Succinct.XhtmlForms

open CStrings Recipes NodeLists

abbrev Attributes := List (CString × CString)

inductive Event where
  | start (el : CString) (attr : Attributes)
  | characters (x : CString)
  | stop (el : CString)

/-- recipe_node; the number tells how many there were before it, as its address does. -/
structure RecipeNode where
  number : ℕ
  isSubformNode : Bool
  formversion : CString
  recipe : CString
  selects : List CString

structure TagNode where
  tagname : CString
  formversion : CString

/-- parse_state. Of the subforms that are open, curr_s is the first of the list, and of
their tags the innermost one. -/
structure ParseState where
  recipes : NodeList RecipeNode
  tags : NodeList TagNode
  subforms : List CString
  selectElem : Option CString
  selectFirst : Bool
  inValue : Bool
  inInstance : Bool
  subformTags : List CString
  created : ℕ

def MAXSUBFORMS : ℕ := 10

def lines (list : List String) : CString := list.flatMap fun line => text line ++ [10]

def impliedMetaFields : CString :=
  lines ["userid:string:0:0:0", "accesstoken:string:0:0:0", "formid:string:0:0:0",
    "lastsubmittime:magpitimestamp:0:0:0", "endrecordtime:magpitimestamp:0:0:0",
    "startrecordtime:magpitimestamp:0:0:0", "version:string:0:0:0", "uuid:magpiuuid:0:0:0",
    "latitude:float:-90:90:0", "longitude:float:-200:200:0"]

def impliedMetaFieldsSubforms : CString :=
  lines ["formid:string:0:0:0", "question:string:0:0:0", "uuid:magpiuuid:0:0:0"]

def impliedFields (isSubform : Bool) : CString :=
  if isSubform then impliedMetaFieldsSubforms else impliedMetaFields

def recipeFieldTypeName : FieldType → CString
  | .integer => text "integer"
  | .float => text "float"
  | .fixedpoint => text "fixedpoint"
  | .boolean => text "boolean"
  | .timeofday => text "timeofday"
  | .timedate => text "timestamp"
  | .magpitimedate => text "magpitimestamp"
  | .date => text "date"
  | .latlong => text "latlong"
  | .text => text "text"
  | .uuid => text "uuid"
  | .magpiuuid => text "magpiuuid"
  | .enum => text "enum"
  | .multiselect => text "multi"
  | .subform => text "subform"

def printInt (n : ℤ) : CString :=
  let digits := (Nat.toDigits 10 n.natAbs).map fun c => UInt8.ofNat c.toNat
  if n < 0 then 45 :: digits else digits

def isBind (el : CString) : Bool := strcasecmp (text "bind") el || strcasecmp (text "xf:bind") el

def isSelect (el : CString) : Bool :=
  strcasecmp (text "xf:select1") el || strcasecmp (text "xf:select") el

def isValue (el : CString) : Bool :=
  strcasecmp (text "value") el || strcasecmp (text "xf:value") el

def isData (el : CString) : Bool := strcasecmp (text "data") el

def firstAttribute (attr : Attributes) (name : CString) : Option CString :=
  match attr with
  | [] => none
  | (first, value) :: _ => if first = name then some value else none

def ddFormid : CString := text "dd:formid"

def ddSubformid : CString := text "dd:subformid"

def startsWith (s : CString) (start : String) : Bool :=
  strncasecmp (text start) s (text start).length

def afterSlash (path : CString) : Option CString :=
  if 47 ∈ path then (path.splitOn 47).getLast? else none

/-- add_to_list_recipes and add_to_list_subforms, with the implied fields. The version
is copied to an array of 1024 bytes. -/
def declareRecipe (state : ParseState) (isSubform : Bool) (version : CString) :
    Option ParseState :=
  if 1024 ≤ version.length then none
  else some { state with
    recipes := state.recipes.add ⟨state.created, isSubform, version, impliedFields isSubform, []⟩
    subforms := version :: state.subforms
    created := state.created + 1 }

def startForm (state : ParseState) (attr : Attributes) : Option ParseState :=
  match firstAttribute attr ddFormid with
  | some version => declareRecipe state false version
  | none => some state

def startInInstance (state : ParseState) (el : CString) (attr : Attributes) : Option ParseState :=
  match firstAttribute attr ddSubformid with
  | some version =>
    if MAXSUBFORMS ≤ state.subformTags.length + 1 then none
    else (declareRecipe state true version).map fun state =>
      { state with tags := state.tags.add ⟨el, version⟩, subformTags := el :: state.subformTags }
  | none =>
    match state.subforms with
    | [] => some state
    | version :: _ => some { state with tags := state.tags.add ⟨el, version⟩ }

structure Bind where
  nodeName : CString
  nodeConstraint : CString
  tempType : CString
  type : Option FieldType

def lastType (attr : Attributes) : Option CString :=
  ((attr.filter fun a => startsWith a.1 "type").getLast?).map Prod.snd

def bindNodeset (attr : Attributes) (path : CString) (state : ParseState) (bind : Bind) :
    Option (ParseState × Bind) :=
  match afterSlash path with
  | none => none
  | some nodeName =>
    let bind := { bind with nodeName, tempType := (lastType attr).getD bind.tempType }
    let state := { state with tags := state.tags.search fun tag => tag.tagname = nodeName }
    match state.tags.current with
    | none => some (state, bind)
    | some tag =>
      if strcasecmp bind.tempType (text "xsd:subform") then some (state, bind)
      else some ({ state with recipes := state.recipes.search fun node =>
        node.formversion = tag.formversion }, bind)

def parseBindType (value : CString) : Option FieldType :=
  recipeParseFieldtype (if 58 ∈ value then (value.dropWhile (· ≠ 58)).tail else value)

def bindAttribute (attr : Attributes) (local' : ParseState × Bind) (a : CString × CString) :
    Option (ParseState × Bind) :=
  (if startsWith a.1 "nodeset" then bindNodeset attr a.2 local'.1 local'.2
    else some local').map fun local' =>
    let bind := local'.2
    let bind := if startsWith a.1 "type" then { bind with type := parseBindType a.2 } else bind
    let bind := if startsWith a.1 "constraint" then { bind with nodeConstraint := a.2 } else bind
    (local'.1, bind)

def constraintBounds (constraint : CString) : ℤ × ℤ :=
  if constraint = [] then (0, 999)
  else
    let ptr := constraint.dropWhile fun b => !isdigit b
    let a := atoi ptr
    let ptr := (ptr.dropWhile isdigit).dropWhile fun b => !isdigit b
    let b := atoi ptr
    let b := if b ≤ a then int32 (a + 999) else b
    (min a b, max a b)

def bindBounds (type : FieldType) (constraint : CString) : ℤ × ℤ :=
  if type = .integer ∨ type = .fixedpoint then constraintBounds constraint else (0, 0)

/-- "%s:%s:%d:%d:0" -/
def fieldLine (nodeName : CString) (type : FieldType) (bounds : ℤ × ℤ) : CString :=
  nodeName ++ [58] ++ recipeFieldTypeName type ++ [58] ++ printInt bounds.1 ++ [58] ++
    printInt bounds.2 ++ text ":0"

def bindLine (state : ParseState) (bind : Bind) (type : FieldType) : Option CString :=
  if type = .subform then
    state.tags.current.map fun tag => text "subform/" ++ tag.formversion ++ text ":subform:0:0:0"
  else some (fieldLine bind.nodeName type (bindBounds type bind.nodeConstraint))

def addLine (type : FieldType) (line : CString) (node : RecipeNode) : Option RecipeNode :=
  if type = .multiselect ∨ type = .enum then
    if 1024 ≤ node.selects.length then none
      else some { node with selects := node.selects ++ [line] }
  else some { node with recipe := node.recipe ++ line ++ [10] }

def updateRecipe (state : ParseState) (f : RecipeNode → Option RecipeNode) : Option ParseState :=
  (state.recipes.current.bind f).map fun node =>
    { state with recipes := state.recipes.update fun _ => node }

/-- The type of an instanceID is UUID. -/
def bindType (bind : Bind) : Option FieldType :=
  if strcasecmp bind.nodeName (text "instanceID") then some .uuid else bind.type

def startBind (state : ParseState) (attr : Attributes) : Option ParseState :=
  (attr.foldlM (bindAttribute attr) (state, ⟨[], [], [], none⟩)).bind fun (state, bind) =>
    match bindType bind with
    | none => some state
    | some type => (bindLine state bind type).bind fun line =>
      if 4096 ≤ line.length then none else updateRecipe state (addLine type line)

def selectAttribute (state : ParseState) (a : CString × CString) : ParseState :=
  if strcasecmp (text "bind") a.1 then
    { state with selectElem := some ((afterSlash a.2).getD a.2), selectFirst := true }
  else state

def startXhtml (state : ParseState) (el : CString) (attr : Attributes) : Option ParseState :=
  (startForm state attr).bind fun state =>
    if state.inInstance then startInInstance state el attr
    else if isBind el then startBind state attr
    else if isSelect el then some (attr.foldl selectAttribute state)
    else if state.selectElem.isSome && isValue el then some { state with inValue := true }
    else if isData el then some { state with inInstance := true }
    else some state

/-- The text is one more option of every line that begins with the name, and of the
first such line it may be the first option. -/
def addOption (elem x : CString) : Bool → List CString → List CString × Bool
  | first, [] => ([], first)
  | first, line :: rest =>
    if strncasecmp elem line elem.length then
      ((line ++ (if first then 58 else 44) :: x) :: (addOption elem x false rest).1,
        (addOption elem x false rest).2)
    else (line :: (addOption elem x first rest).1, (addOption elem x first rest).2)

def searchRecipe (state : ParseState) (elem : CString) : Option ParseState :=
  (state.tags.nodes.find? fun tag => tag.tagname = elem).map fun tag =>
    { state with recipes := state.recipes.search fun node => node.formversion = tag.formversion }

def addText (state : ParseState) (elem x : CString) (node : RecipeNode) : ParseState :=
  let options := addOption elem x state.selectFirst node.selects
  { state with recipes := state.recipes.update ({ · with selects := options.1 }), selectFirst :=
    options.2 }

def characterdataXhtml (state : ParseState) (x : CString) : Option ParseState :=
  match state.selectElem with
  | none => some state
  | some elem =>
    if state.inValue then
      (searchRecipe state elem).bind fun state => state.recipes.current.map (addText state elem x)
    else some state

/-- At the end of a subform, curr_s moves back and is used. -/
def endSubform (state : ParseState) (el : CString) : Option ParseState :=
  match state.subformTags with
  | [] => some state
  | tag :: tags =>
    if strcasecmp tag el then
      if state.subforms.tail = [] then none
      else some { state with subformTags := tags, subforms := state.subforms.tail }
    else some state

def endXhtml (state : ParseState) (el : CString) : Option ParseState :=
  endSubform { state with
    selectElem := if isSelect el then none else state.selectElem
    inValue := state.inValue && !isValue el
    inInstance := state.inInstance && !isData el } el

def step (state : ParseState) : Event → Option ParseState
  | .start el attr => startXhtml state el attr
  | .characters x => characterdataXhtml state x
  | .stop el => endXhtml state el

def initial : ParseState := ⟨.empty, .empty, [], none, true, false, false, [], 0⟩

def run (state : ParseState) (events : List Event) : Option ParseState := events.foldlM step state

structure Specification where
  recipeText : CString
  formVersion : CString
  deriving DecidableEq

def finish (node : RecipeNode) : Specification :=
  ⟨node.recipe ++ node.selects.flatMap (· ++ [10]), node.formversion⟩

def xhtmlToRecipe (wellFormed : Bool) (events : List Event) : Option (ℤ × List Specification) :=
  (run initial events).bind fun state =>
    if !wellFormed then some (-1, [])
    else if 1024 < state.recipes.rest.length then none
    else some (0, state.recipes.rest.map finish)

end Succinct.XhtmlForms
