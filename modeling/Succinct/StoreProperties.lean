import Succinct.RecordStore
import Mathlib.Data.List.AList

/-!
The marks and properties of RecordStore.java. They are one table in memory;
flushProperties writes all of it to the file of marks, or deletes that file.
What Properties.load finds is what Properties.store has written. A text is the
list of its characters. Digits of other scripts, which parseLong takes as well,
are left out.
-/
namespace Succinct.StoreProperties

open NativeStore RecordStore

abbrev Text := List Char

abbrev Properties := AList fun _ : Text => Text

def longText (n : ℤ) : Text :=
  if n < 0 then '-' :: Nat.toDigits 10 n.natAbs else Nat.toDigits 10 n.natAbs

def parseDigits (digits : Text) : Option ℤ :=
  if digits = [] ∨ !digits.all Char.isDigit then none else some (Nat.ofDigitChars 10 digits 0)

def inLong (n : ℤ) : Bool := decide (-9223372036854775808 ≤ n ∧ n < 9223372036854775808)

def parseLong (s : Text) : Option ℤ :=
  (match s with
    | '-' :: digits => (parseDigits digits).map fun n => -n
    | '+' :: digits => parseDigits digits
    | digits => parseDigits digits).filter inLong

structure Marked where
  store : Store
  properties : Properties
  markFile : Option Properties

def readProperties (m : Marked) : Marked :=
  match m.markFile with
  | none => m
  | some table =>
    if m.store.EOF = 0 then { m with markFile := none } else { m with properties := table }

def flushProperties (m : Marked) : Marked :=
  if m.store.EOF = 0 ∨ m.properties.entries = [] then { m with markFile := none }
  else { m with markFile := some m.properties }

def openMarked (state : DbState) (disk : List UInt8) (name : Name)
    (markFile : Option Properties) :
    Option Marked :=
  (openStore state disk name).map fun store => readProperties ⟨store, ∅, markFile⟩

def getProperty (m : Marked) (name : Text) : Option Text := m.properties.lookup name

def getMark (m : Marked) (name : Text) : Option ℤ :=
  match m.properties.lookup name with
  | none => some 0
  | some value => parseLong value

def putMark (m : Marked) (name : Text) (offset : ℤ) : Marked :=
  flushProperties { m with properties :=
    if offset = 0 then m.properties.erase name else m.properties.insert name (longText offset) }

/-- A mark that has no value counts as one at 0, here as in getMark. An
exception changes nothing. -/
def setMark (m : Marked) (name : Text) (offset : ℤ) : Marked :=
  match getMark m name with
  | none => m
  | some v => if v = offset then m else putMark m name offset

def putProperty (m : Marked) (name : Text) (value : Option Text) : Marked :=
  { m with properties := match value with
    | none => m.properties.erase name
    | some value => m.properties.insert name value }

inductive Op where
  | setMark (name : Text) (offset : ℤ)
  | putProperty (name : Text) (value : Option Text)
  | appendRecord (record : List UInt8) (commits : Bool)

def step (m : Marked) : Op → Marked
  | .setMark name offset => setMark m name offset
  | .putProperty name value => putProperty m name value
  | .appendRecord record commits =>
    { m with store := (appendRecord m.store record commits).store }

def run (m : Marked) (ops : List Op) : Marked := ops.foldl step m

/-- The store is closed, which writes nothing, and opened again. -/
def reopen (m : Marked) (name : Name) : Option Marked :=
  openMarked m.store.state m.store.disk name m.markFile

/-- The calls of Form.compress for a form that has not been seen. -/
def submitForm (uuid : Text) (form : List UInt8) : List Op :=
  [.appendRecord form true,
    .putProperty uuid (some ['s', 'u', 'b', 'm', 'i', 't', 't', 'e', 'd'])]

/-- The calls of storeFragment for a new fragment, with the text of the tracker. -/
def storeFragment (fragment : List UInt8) (tracker : Text) : List Op :=
  [.appendRecord fragment true,
    .putProperty ['r', 'e', 'c', 'e', 'i', 'v', 'e', 'd'] (some tracker)]

theorem parseDigits_toDigits (n : ℕ) : parseDigits (Nat.toDigits 10 n) = some (n : ℤ) := by
  have hall : (Nat.toDigits 10 n).all Char.isDigit = true := by
    rw [List.all_eq_true]
    intro c hc
    exact Nat.isDigit_of_mem_toDigits (by decide) (by decide) hc
  rw [parseDigits, if_neg, Nat.ofDigitChars_toDigits (by decide) (by decide)]
  rw [hall]
  rintro (h | h)
  · exact Nat.toDigits_ne_nil h
  · cases h

/-- Digits do not begin with a sign. -/
theorem parseLong_of_digits (digits : Text) (h : digits.all Char.isDigit = true) :
    parseLong digits = (parseDigits digits).filter inLong := by
  unfold parseLong
  congr 1
  split
  · simp at h
  · simp at h
  · rfl

theorem parseLong_longText (n : ℤ) (h : inLong n = true) : parseLong (longText n) = some n := by
  unfold longText
  split
  · have hneg : -(n.natAbs : ℤ) = n := by omega
    rw [parseLong, parseDigits_toDigits, Option.map_some, hneg]
    simp [h]
  · have hpos : (n.natAbs : ℤ) = n := by omega
    rw [parseLong_of_digits, parseDigits_toDigits, hpos]
    · simp [h]
    · rw [List.all_eq_true]
      intro c hc
      exact Nat.isDigit_of_mem_toDigits (by decide) (by decide) hc

def changesMark (m : Marked) : Op → Bool
  | .setMark name offset => (getMark m name).any fun v => decide (v ≠ offset)
  | _ => false

/-- The table as the last call that changed a mark left it, empty where the
store was empty then; the given table where no call changed one. -/
def lastMarked (m : Marked) (table : Properties) : List Op → Properties
  | [] => table
  | op :: rest =>
    lastMarked (step m op)
      (if changesMark m op then if m.store.EOF = 0 then ∅
        else (step m op).properties else table) rest

structure Persisted (name : Name) (s : Store) : Prop where
  key : s.file.name = fileKey name
  length : s.file.length = s.EOF
  record : (s.state.db.files (fileKey name)).elim 0 FileRecord.length = s.EOF

theorem fileOpen_length {state : DbState} {name : Name} {file : FileData}
    (h : fileOpen state name = some file) :
    file.name = fileKey name ∧
    file.length = (state.db.files (fileKey name)).elim 0 FileRecord.length := by
  rw [fileOpen] at h
  simp only [Option.ite_none_left_eq_some, Option.some.injEq] at h
  obtain ⟨-, rfl⟩ := h
  refine ⟨rfl, ?_⟩
  cases state.db.files (fileKey name) <;> rfl

theorem openStore_persisted {state : DbState} {disk : List UInt8} {name : Name} {s : Store}
    (h : openStore state disk name = some s) : s.state = state ∧ Persisted name s := by
  obtain ⟨file, hfile, heq⟩ := Option.bind_eq_some_iff.mp h
  obtain rfl := Option.some.inj heq
  obtain ⟨hname, hlength⟩ := fileOpen_length hfile
  exact ⟨rfl, hname, rfl, hlength.symm⟩

theorem flush_persisted {name : Name} {s : Store} (h : Persisted name s)
    (expectedHash : Option (List UInt8)) (commits : Bool) :
    Persisted name (flush s expectedHash commits).store := by
  obtain ⟨hkey, hlength, hrecord⟩ := h
  have hcases : ∃ ret state file, fileFlush s.state s.file (expectedHash.getD []) commits =
      (ret, state, file) ∧ file.name = s.file.name ∧ (ret = 0 → file.length = s.file.length) ∧
        (state.db.files (fileKey name)).elim 0 FileRecord.length = file.length := by
    rw [fileFlush]
    dsimp only
    split
    · exact ⟨_, _, _, rfl, rfl, fun _ => rfl, hrecord.trans hlength.symm⟩
    split
    · exact ⟨_, _, _, rfl, rfl, fun _ => rfl, hrecord.trans hlength.symm⟩
    split
    · exact ⟨_, _, _, rfl, rfl, fun _ => rfl, hrecord.trans hlength.symm⟩
    · refine ⟨_, _, _, rfl, rfl, fun h => absurd h (by decide), ?_⟩
      rw [← hkey]
      simp only [commitFile, Function.update_self]
      rfl
  obtain ⟨ret, state, file, heq, hname, hsame, hstate⟩ := hcases
  rw [flush, jniFlush, heq]
  dsimp only
  by_cases hret : ret ≠ 0
  · rw [if_pos hret]
    exact ⟨hname.trans hkey, rfl, hstate⟩
  · rw [if_neg hret]
    have hfile : file.length = s.EOF := (hsame (not_not.mp hret)).trans hlength
    exact ⟨hname.trans hkey, hfile, hstate.trans hfile⟩

theorem appendRecord_persisted {name : Name} {s : Store} (h : Persisted name s)
    (record : List UInt8) (commits : Bool) :
    Persisted name (appendRecord s record commits).store := by
  have happend : Persisted name
    (append s (completeRecord record) 0 (completeRecord record).length).store := by
    rw [append]
    split
    · exact h
    split
    · exact h
    · exact ⟨h.key, h.length, h.record⟩
  rw [appendRecord]
  dsimp only
  split
  · exact happend
  · exact flush_persisted happend none commits

theorem store_flushProperties (m : Marked) : (flushProperties m).store = m.store := by
  unfold flushProperties
  split <;> rfl

theorem properties_flushProperties (m : Marked) :
    (flushProperties m).properties = m.properties := by
  unfold flushProperties
  split <;> rfl

theorem setMark_cases (m : Marked) (name : Text) (offset : ℤ) :
    (changesMark m (.setMark name offset) = false ∧ setMark m name offset = m) ∨
      (changesMark m (.setMark name offset) = true ∧
        setMark m name offset = putMark m name offset) := by
  rw [changesMark, setMark]
  cases hmark : getMark m name with
  | none => exact Or.inl ⟨rfl, rfl⟩
  | some v =>
    by_cases hv : v = offset
    · exact Or.inl ⟨by simp [hv], if_pos hv⟩
    · exact Or.inr ⟨by simp [hv], if_neg hv⟩

theorem store_setMark (m : Marked) (name : Text) (offset : ℤ) :
    (setMark m name offset).store = m.store := by
  rcases setMark_cases m name offset with ⟨-, hset⟩ | ⟨-, hset⟩
  · rw [hset]
  · rw [hset, putMark, store_flushProperties]

/-- A mark is read as it was set. -/
theorem getMark_setMark {m : Marked} {name : Text} {v : ℤ} (hmark : getMark m name = some v)
    {offset : ℤ} (hlong : inLong offset = true) (n : Text) :
    getMark (setMark m name offset) n = if n = name then some offset else getMark m n := by
  rw [setMark, hmark]
  dsimp only
  by_cases hv : v = offset
  · rw [if_pos hv]
    split
    case isTrue hn =>
      rw [hn, hmark, hv]
    case isFalse =>
      rfl
  · rw [if_neg hv, putMark, getMark, properties_flushProperties]
    dsimp only
    by_cases hn : n = name
    · subst hn
      rw [if_pos rfl]
      by_cases hzero : offset = 0
      · rw [if_pos hzero, AList.lookup_erase, hzero]
      · rw [if_neg hzero, AList.lookup_insert]
        exact parseLong_longText offset hlong
    · rw [if_neg hn]
      by_cases hzero : offset = 0
      · rw [if_pos hzero, AList.lookup_erase_ne hn]
        rfl
      · rw [if_neg hzero, AList.lookup_insert_ne hn]
        rfl

def Saved (m : Marked) (table : Properties) : Prop :=
  ∀ n, (m.markFile.getD ∅).lookup n = table.lookup n

theorem flushProperties_saved (m : Marked) :
    Saved (flushProperties m) (if m.store.EOF = 0 then ∅ else m.properties) := by
  intro n
  unfold flushProperties
  by_cases heof : m.store.EOF = 0
  · rw [if_pos (Or.inl heof), if_pos heof]
    rfl
  · rw [if_neg heof]
    by_cases hempty : m.properties.entries = []
    · have htable : m.properties = ∅ := AList.ext hempty
      rw [if_pos (Or.inr hempty), htable]
      rfl
    · rw [if_neg (not_or.mpr ⟨heof, hempty⟩)]
      rfl

theorem step_persisted {name : Name} {m : Marked} (h : Persisted name m.store) (op : Op) :
    Persisted name (step m op).store := by
  cases op with
  | setMark n offset =>
    rcases setMark_cases m n offset with ⟨-, heq⟩ | ⟨-, heq⟩
    · rw [step, heq]
      exact h
    · rw [step, heq, putMark, store_flushProperties]
      exact h
  | putProperty n value => exact h
  | appendRecord record commits => exact appendRecord_persisted h record commits

theorem step_saved {m : Marked} {table : Properties} (h : Saved m table) (op : Op) :
    Saved (step m op)
      (if changesMark m op then if m.store.EOF = 0 then ∅
        else (step m op).properties else table) := by
  cases op with
  | setMark n offset =>
    rcases setMark_cases m n offset with ⟨hchanges, heq⟩ | ⟨hchanges, heq⟩
    · rw [hchanges, step, heq]
      exact h
    · rw [hchanges, if_pos rfl, step, heq, putMark, properties_flushProperties]
      exact flushProperties_saved _
  | putProperty n value => exact h
  | appendRecord record commits => exact h

theorem run_persisted {name : Name} {m : Marked} (h : Persisted name m.store) (ops : List Op) :
    Persisted name (run m ops).store := by
  induction ops generalizing m with
  | nil => exact h
  | cons op rest ih => exact ih (step_persisted h op)

theorem run_saved {m : Marked} {table : Properties} (h : Saved m table) (ops : List Op) :
    Saved (run m ops) (lastMarked m table ops) := by
  induction ops generalizing m table with
  | nil => exact h
  | cons op rest ih => exact ih (step_saved h op)

theorem readProperties_saved (store : Store) (markFile : Option Properties) :
    Saved (readProperties ⟨store, ∅, markFile⟩)
      (readProperties ⟨store, ∅, markFile⟩).properties := by
  intro n
  cases markFile with
  | none => rfl
  | some table =>
    rw [readProperties]
    dsimp only
    split <;> rfl

theorem store_readProperties (m : Marked) : (readProperties m).store = m.store := by
  unfold readProperties
  split
  · rfl
  · split <;> rfl

theorem openMarked_spec {state : DbState} {disk : List UInt8} {name : Name}
    {markFile : Option Properties} {m : Marked}
    (h : openMarked state disk name markFile = some m) :
    Persisted name m.store ∧ Saved m m.properties := by
  obtain ⟨store, hopen, rfl⟩ := Option.map_eq_some_iff.mp h
  rw [store_readProperties]
  exact ⟨(openStore_persisted hopen).2, readProperties_saved store markFile⟩

/-- A store that is not empty has the table of its file of marks when it is
opened again. -/
theorem reopen_spec {name : Name} {m : Marked} (hkey : fileKey name ≠ [])
    (h : Persisted name m.store) (heof : m.store.EOF ≠ 0) :
    ∃ m', reopen m name = some m' ∧ m'.properties = m.markFile.getD ∅ := by
  obtain ⟨store, hstore⟩ : ∃ store, openStore m.store.state m.store.disk name = some store := by
    rw [openStore, fileOpen, if_neg hkey]
    exact ⟨_, rfl⟩
  obtain ⟨hstate, hpersisted⟩ := openStore_persisted hstore
  have hlength : store.EOF = m.store.EOF := by rw [← hpersisted.record, hstate, h.record]
  refine ⟨readProperties ⟨store, ∅, m.markFile⟩, ?_, ?_⟩
  · rw [reopen, openMarked, hstore]
    rfl
  · cases m.markFile with
    | none => rfl
    | some table =>
      rw [readProperties]
      dsimp only
      rw [if_neg (by rw [hlength]; exact heof)]
      rfl

def SameAnswers (m m' : Marked) : Prop :=
  ∀ n, getMark m' n = getMark m n ∧ getProperty m' n = getProperty m n

theorem sameAnswers_iff (m m' : Marked) :
    SameAnswers m m' ↔ ∀ n, m'.properties.lookup n = m.properties.lookup n := by
  constructor
  · intro h n
    exact (h n).2
  · intro h n
    refine ⟨?_, h n⟩
    rw [getMark, getMark, h n]

/-- Reopening gives the same answers exactly if the properties are what they
were when a mark last changed, in a store that was not empty then, or when the
store was opened. -/
theorem reopen_same_iff (state : DbState) (disk : List UInt8) (name : Name)
    (markFile : Option Properties) (m : Marked)
    (hopen : openMarked state disk name markFile = some m)
    (ops : List Op) (heof : (run m ops).store.EOF ≠ 0) :
    (∃ m', reopen (run m ops) name = some m' ∧ SameAnswers (run m ops) m') ↔
      ∀ n, getProperty (run m ops) n = (lastMarked m m.properties ops).lookup n := by
  obtain ⟨hpersisted, hsaved⟩ := openMarked_spec hopen
  have hkey : fileKey name ≠ [] := by
    intro hempty
    obtain ⟨store, hstore, -⟩ := Option.map_eq_some_iff.mp hopen
    rw [openStore, fileOpen, if_pos hempty] at hstore
    cases hstore
  obtain ⟨m', hreopen, htable⟩ := reopen_spec hkey (run_persisted hpersisted ops) heof
  have hlast := run_saved hsaved ops
  have hlookup : ∀ n, m'.properties.lookup n = (lastMarked m m.properties ops).lookup n := by
    intro n
    rw [htable]
    exact hlast n
  rw [hreopen]
  constructor
  · rintro ⟨m'', heq, hsame⟩ n
    obtain rfl := Option.some.inj heq
    rw [← hlookup n]
    exact ((sameAnswers_iff _ _).mp hsame n).symm
  · intro h
    refine ⟨m', rfl, (sameAnswers_iff _ _).mpr ?_⟩
    intro n
    rw [hlookup n]
    exact (h n).symm

/-- A mark that is set after a form was submitted saves both. -/
theorem reopen_same_marked : ∃ m, openMarked (openDb emptyDatabase) [] [0x66] none = some m ∧
    ∃ m', reopen (run m (submitForm ['u'] [7] ++ [.setMark ['s'] 9])) [0x66] = some m' ∧
      SameAnswers (run m (submitForm ['u'] [7] ++ [.setMark ['s'] 9])) m' := by
  obtain ⟨m, hopen, heof, hlast⟩ :
    ∃ m, openMarked (openDb emptyDatabase) [] [0x66] none = some m ∧
      (run m (submitForm ['u'] [7] ++ [.setMark ['s'] 9])).store.EOF ≠ 0 ∧
        lastMarked m m.properties (submitForm ['u'] [7] ++ [.setMark ['s'] 9]) =
          (run m (submitForm ['u'] [7] ++ [.setMark ['s'] 9])).properties :=
    ⟨_, rfl, by decide, rfl⟩
  exact ⟨m, hopen, (reopen_same_iff _ _ _ _ m hopen _ heof).mpr fun n => by rw [hlast]; rfl⟩

/-- A form that was submitted, and a fragment that was stored, are forgotten. -/
theorem submitted_forgotten : ∃ m, openMarked (openDb emptyDatabase) [] [0x66] none = some m ∧
    (∃ m', (run m (submitForm ['u'] [7])).store.EOF ≠ 0 ∧
      reopen (run m (submitForm ['u'] [7])) [0x66] = some m' ∧
        getProperty (run m (submitForm ['u'] [7])) ['u'] ≠ none ∧ getProperty m' ['u'] = none) ∧
    ∃ m', (run m (storeFragment [7] ['1'])).store.EOF ≠ 0 ∧
      reopen (run m (storeFragment [7] ['1'])) [0x66] = some m' ∧
        getProperty (run m (storeFragment [7] ['1']))
          ['r', 'e', 'c', 'e', 'i', 'v', 'e', 'd'] ≠ none ∧
          getProperty m' ['r', 'e', 'c', 'e', 'i', 'v', 'e', 'd'] = none := by
  refine ⟨_, rfl, ⟨_, by decide, rfl, by decide, by decide⟩,
    ⟨_, by decide, rfl, by decide, by decide⟩⟩

end Succinct.StoreProperties
