import Succinct.RecordStore

/-!
RecordIterator.java over the committed bytes of a RecordStore: their number
is EOF. An iterator is its offset and the length of the record it is on; none
is an exception. The record that read caches is left out: it is that of the
same offset, and committed bytes never change.

A file that appendRecord has written is the list of its records. On such a
file the iterator moves from record to record.
-/
namespace Succinct.RecordIterators

open RecordStore ByteBuffers

structure Iterator where
  offset : ℤ
  recordLength : ℤ
  deriving DecidableEq

def start : Iterator := ⟨0, 0⟩

def atEnd (file : List UInt8) : Iterator := ⟨file.length, 0⟩

def readBytes (file : List UInt8) (offset : ℤ) (length : ℤ) : Option (List UInt8) :=
  if offset < 0 ∨ length < 0 ∨ offset + length > file.length then none
  else some ((file.drop offset.toNat).take length.toNat)

def readLength (file : List UInt8) (offset : ℤ) : Option ℤ :=
  (readBytes file offset 4).map fun bytes => asInt (ofBigEndian bytes)

def reset (file : List UInt8) (mark : ℤ) : Option Iterator :=
  if mark < 0 ∨ mark > file.length then none else some ⟨mark, 0⟩

def next (file : List UInt8) (it : Iterator) : Option (Bool × Iterator) :=
  let offset := it.offset + it.recordLength
  if offset ≥ file.length then some (false, ⟨offset, 0⟩)
  else (readLength file offset).map fun recordLength =>
    (decide (offset + recordLength ≤ file.length), ⟨offset, recordLength⟩)

def prev (file : List UInt8) (it : Iterator) : Option (Bool × Iterator) :=
  if it.offset ≤ 0 then some (false, ⟨it.offset, 0⟩)
  else (readLength file (it.offset - 4)).map fun recordLength =>
    (decide (it.offset - recordLength ≥ 0), ⟨it.offset - recordLength, recordLength⟩)

/-- The bytes of the record; null, the inner none, outside of one. -/
def read (file : List UInt8) (it : Iterator) : Option (Option (List UInt8)) :=
  if it.recordLength = 0 then some none
  else (readBytes file (it.offset + 4) (it.recordLength - 8)).map some

def fileOf (records : List (List UInt8)) : List UInt8 := (records.map completeRecord).flatten

def Sized (records : List (List UInt8)) : Prop := ∀ r ∈ records, r.length + 8 < 2147483648

def startOf (records : List (List UInt8)) (k : ℕ) : ℕ := (fileOf (records.take k)).length

theorem length_completeRecord (r : List UInt8) : (completeRecord r).length = r.length + 8 := by
  unfold completeRecord
  simp
  omega

theorem fileOf_append (xs ys : List (List UInt8)) :
    fileOf (xs ++ ys) = fileOf xs ++ fileOf ys := by
  rw [fileOf, List.map_append, List.flatten_append]
  rfl

theorem fileOf_concat (records : List (List UInt8)) (r : List UInt8) :
    fileOf (records ++ [r]) = fileOf records ++ completeRecord r := by
  rw [fileOf_append]
  simp [fileOf]

theorem fileOf_split (records : List (List UInt8)) (k : ℕ) :
    fileOf records = fileOf (records.take k) ++ fileOf (records.drop k) := by
  rw [← fileOf_append, List.take_append_drop]

theorem startOf_length (records : List (List UInt8)) :
    startOf records records.length = (fileOf records).length := by
  rw [startOf, List.take_length]

theorem startOf_zero (records : List (List UInt8)) : startOf records 0 = 0 := rfl

theorem startOf_succ (records : List (List UInt8)) (k : ℕ) (hk : k < records.length) :
    startOf records (k + 1) = startOf records k + (records[k].length + 8) := by
  rw [startOf, List.take_succ_eq_append_getElem hk, fileOf_append, List.length_append]
  congr 1
  rw [fileOf, List.map_singleton, List.flatten_singleton, length_completeRecord]

theorem startOf_append (records more : List (List UInt8)) (k : ℕ) (hk : k ≤ records.length) :
    startOf (records ++ more) k = startOf records k := by
  rw [startOf, List.take_append_of_le_length hk]
  rfl

theorem startOf_mono (records : List (List UInt8)) {j k : ℕ} (h : j ≤ k) :
    startOf records j ≤ startOf records k := by
  have htake : records.take j = (records.take k).take j := by
    rw [List.take_take, Nat.min_eq_left h]
  rw [startOf, startOf, fileOf_split (records.take k) j, List.length_append, htake]
  omega

theorem startOf_lt (records : List (List UInt8)) {j k : ℕ} (h : j < k) (hk : k ≤ records.length) :
    startOf records j < startOf records k := by
  have hstep := startOf_succ records j (by omega)
  have hmono := startOf_mono records (show j + 1 ≤ k by omega)
  omega

theorem startOf_le (records : List (List UInt8)) (k : ℕ) :
    startOf records k ≤ (fileOf records).length := by
  rw [fileOf_split records k, List.length_append]
  exact Nat.le_add_right _ _

def before (records : List (List UInt8)) (k : ℕ) : Iterator := ⟨startOf records k, 0⟩

def on (records : List (List UInt8)) (k : ℕ) : Iterator :=
  ⟨startOf records k, (records.getD k []).length + 8⟩

section Moves

variable {records : List (List UInt8)}

theorem drop_startOf (k : ℕ) :
    (fileOf records).drop (startOf records k) = fileOf (records.drop k) := by
  rw [fileOf_split records k, startOf, List.drop_left]

theorem fileOf_drop (k : ℕ) (hk : k < records.length) :
    fileOf (records.drop k) = completeRecord records[k] ++ fileOf (records.drop (k + 1)) := by
  rw [List.drop_eq_getElem_cons hk]
  rfl

theorem getD_of_lt (k : ℕ) (hk : k < records.length) : records.getD k [] = records[k] := by
  rw [List.getD_eq_getElem?_getD, List.getElem?_eq_getElem hk]
  rfl

theorem asInt_length (r : List UInt8) (h : r.length + 8 < 2147483648) :
    asInt (ofBigEndian (bigEndian 4 (r.length + 8))) = (r.length : ℤ) + 8 := by
  rw [ofBigEndian_bigEndian, Nat.mod_eq_of_lt (by omega), asInt_of_lt h]
  push_cast
  rfl

variable (hsized : Sized records)

include hsized

theorem readLength_startOf (k : ℕ) (hk : k < records.length) :
    readLength (fileOf records) (startOf records k) =
      some (((records.getD k []).length : ℤ) + 8) := by
  have hlen := startOf_le records (k + 1)
  have hsucc := startOf_succ records k hk
  rw [readLength, readBytes, if_neg (by omega), Int.toNat_natCast, drop_startOf, fileOf_drop k hk,
    getD_of_lt k hk]
  change some (asInt (ofBigEndian ((completeRecord records[k] ++ _).take 4))) = _
  rw [completeRecord]
  simp only [List.append_assoc]
  rw [List.take_left' (length_bigEndian 4 _)]
  exact congrArg some (asInt_length _ (hsized _ (List.getElem_mem hk)))

theorem readLength_before_end (k : ℕ) (hk : k < records.length) :
    readLength (fileOf records) (startOf records (k + 1) - 4) =
      some (((records.getD k []).length : ℤ) + 8) := by
  have hsucc := startOf_succ records k hk
  have hlen := startOf_le records (k + 1)
  have hoffset : ((startOf records (k + 1) : ℤ) - 4).toNat =
      startOf records k + (4 + records[k].length) := by omega
  rw [readLength, readBytes, if_neg (by omega), hoffset, ← List.drop_drop, drop_startOf,
    fileOf_drop k hk, getD_of_lt k hk]
  have hdrop : (completeRecord records[k] ++ fileOf (records.drop (k + 1))).drop
      (4 + records[k].length) =
        bigEndian 4 (records[k].length + 8) ++ fileOf (records.drop (k + 1)) := by
    rw [completeRecord]
    simp only [List.append_assoc]
    rw [← List.append_assoc, List.drop_left' (by simp)]
  rw [hdrop]
  change some (asInt (ofBigEndian ((bigEndian 4 (records[k].length + 8) ++ _).take 4))) = _
  rw [List.take_left' (length_bigEndian 4 _)]
  exact congrArg some (asInt_length _ (hsized _ (List.getElem_mem hk)))

theorem next_spec (it : Iterator) (k : ℕ) (hk : k ≤ records.length)
    (hit : it.offset + it.recordLength = startOf records k) :
    next (fileOf records) it =
      some (if k < records.length then (true, on records k) else (false, before records k)) := by
  by_cases hlt : k < records.length
  · have hsucc := startOf_succ records k hlt
    have hlen := startOf_le records (k + 1)
    rw [next, if_pos hlt]
    simp only [hit]
    rw [if_neg (by omega), readLength_startOf hsized k hlt]
    simp only [Option.map_some]
    rw [decide_eq_true (by rw [getD_of_lt k hlt]; omega)]
    rfl
  · have heq : k = records.length := by omega
    have hlen := startOf_length records
    rw [← heq] at hlen
    rw [next, if_neg hlt]
    simp only [hit]
    rw [if_pos (by omega)]
    rfl

theorem prev_spec (it : Iterator) (k : ℕ) (hk : k ≤ records.length)
    (hit : it.offset = startOf records k) :
    prev (fileOf records) it =
      some (if k = 0 then (false, before records 0) else (true, on records (k - 1))) := by
  cases k with
  | zero =>
    rw [startOf_zero] at hit
    rw [prev, if_pos (by omega), if_pos rfl, hit]
    rfl
  | succ k =>
    have hsucc := startOf_succ records k hk
    rw [prev, if_neg (by omega), hit, readLength_before_end hsized k hk, if_neg (by omega),
      getD_of_lt k hk]
    simp only [Option.map_some, Nat.add_sub_cancel]
    rw [decide_eq_true (by omega), on, getD_of_lt k hk]
    congr 3
    omega

omit hsized in
theorem read_spec (k : ℕ) (hk : k < records.length) :
    read (fileOf records) (on records k) = some (some records[k]) := by
  have hsucc := startOf_succ records k hk
  have hlen := startOf_le records (k + 1)
  have hoffset : ((startOf records k : ℤ) + 4).toNat = startOf records k + 4 := by omega
  have hlength : ((records[k].length : ℤ) + 8 - 8).toNat = records[k].length := by omega
  rw [read, on, getD_of_lt k hk, if_neg (by simp only; omega)]
  simp only
  rw [readBytes, if_neg (by omega), hoffset, hlength, ← List.drop_drop, drop_startOf,
    fileOf_drop k hk, completeRecord]
  simp only [List.append_assoc]
  rw [List.drop_left' (length_bigEndian 4 _), List.take_left]
  rfl

end Moves

end Succinct.RecordIterators
