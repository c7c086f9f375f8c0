import Succinct.RecordCursors

/-!
The loops over the records of a file, forwards from its start and backwards from
its end, when its bytes may come from a peer and be anything. The length of a
record is what four bytes at its one end say. The loops come to their end exactly
on files that are cut into records from the side they start at, up to a rest whose
length field goes past the other end of the file.
-/
namespace Succinct.RecordWalks

open ByteBuffers RecordIterators RecordCursors

/-- How a loop ends: with these records, with an exception, with a null record,
or not within its number of turns. -/
inductive Walk (T : Type) where
  | ends (records : List T)
  | throws
  | null
  | runs

def Walk.cons {T : Type} (record : T) : Walk T → Walk T
  | .ends records => .ends (record :: records)
  | .throws => .throws
  | .null => .null
  | .runs => .runs

section Loops

variable {T : Type} (create : List UInt8 → T) (file : List UInt8)

def walk (move : Iterator → Option (Bool × Iterator)) : ℕ → Cursor T → Walk T
  | 0, _ => .runs
  | fuel + 1, cursor =>
    match move cursor.it with
    | none => .throws
    | some (false, _) => .ends []
    | some (true, it) =>
      match (cursor.moveTo it).read create file with
      | none => .throws
      | some (none, _) => .null
      | some (some record, cursor) => (walk move fuel cursor).cons record

/-- start(); while (next()) read(), with a new iterator. One turn more than EOF/8
is the one in which next returns false. -/
def forwards : Walk T := walk create file (next file) (file.length / 8 + 1) Cursor.new

/-- end(); while (prev()) read(), with a new iterator. -/
def backwards : Walk T :=
  walk create file (prev file) (file.length / 8 + 1) (Cursor.new.moveTo (atEnd file))

end Loops

def firstLength (bytes : List UInt8) : ℤ := asInt (ofBigEndian (bytes.take 4))

def lastLength (bytes : List UInt8) : ℤ := asInt (ofBigEndian (bytes.drop (bytes.length - 4)))

inductive Forwards : List UInt8 → Prop
  | nil : Forwards []
  | rest (tail : List UInt8) (hlen : 4 ≤ tail.length) (hpast : tail.length < firstLength tail) :
    Forwards tail
  | record (chunk tail : List UInt8) (hlen : 8 ≤ chunk.length)
    (hlength : firstLength chunk = chunk.length) (htail : Forwards tail) :
    Forwards (chunk ++ tail)

inductive Backwards : List UInt8 → Prop
  | nil : Backwards []
  | rest (head : List UInt8) (hlen : 4 ≤ head.length) (hpast : head.length < lastLength head) :
    Backwards head
  | record (head chunk : List UInt8) (hlen : 8 ≤ chunk.length)
    (hlength : lastLength chunk = chunk.length) (hhead : Backwards head) :
    Backwards (head ++ chunk)

theorem firstLength_append {chunk : List UInt8} (h : 4 ≤ chunk.length) (tail : List UInt8) :
    firstLength (chunk ++ tail) = firstLength chunk := by
  rw [firstLength, List.take_append_of_le_length h]
  rfl

theorem lastLength_append {chunk : List UInt8} (h : 4 ≤ chunk.length) (head : List UInt8) :
    lastLength (head ++ chunk) = lastLength chunk := by
  have hlen : (head ++ chunk).length - 4 = head.length + (chunk.length - 4) := by
    rw [List.length_append]
    omega
  rw [lastLength, hlen, ← List.drop_drop, List.drop_left]
  rfl

/-- What the first bytes of a file have to be. -/
theorem forwards_iff (tail : List UInt8) :
    Forwards tail ↔ tail = [] ∨ (4 ≤ tail.length ∧ (tail.length < firstLength tail ∨
      (8 ≤ firstLength tail ∧ firstLength tail ≤ tail.length ∧
        Forwards (tail.drop (firstLength tail).toNat)))) := by
  constructor
  · intro h
    cases h with
    | nil => exact Or.inl rfl
    | rest _ hlen hpast => exact Or.inr ⟨hlen, Or.inl hpast⟩
    | record chunk tail hlen hlength htail =>
      have hfirst : firstLength (chunk ++ tail) = firstLength chunk :=
        firstLength_append (by omega) tail
      rw [hfirst, hlength, List.length_append, Int.toNat_natCast, List.drop_left]
      exact Or.inr ⟨by omega, Or.inr ⟨by omega, by push_cast; omega, htail⟩⟩
  · rintro (rfl | ⟨hlen, hpast | ⟨hmin, hmax, htail⟩⟩)
    · exact .nil
    · exact .rest tail hlen hpast
    · have hchunk : (tail.take (firstLength tail).toNat).length = (firstLength tail).toNat := by
        rw [List.length_take]
        omega
      have hfour : 4 ≤ (tail.take (firstLength tail).toNat).length := by omega
      have hfirst := firstLength_append hfour (tail.drop (firstLength tail).toNat)
      rw [List.take_append_drop] at hfirst
      rw [← List.take_append_drop (firstLength tail).toNat tail]
      refine .record _ _ (by omega) ?_ htail
      rw [← hfirst]
      omega

theorem backwards_iff (head : List UInt8) :
    Backwards head ↔ head = [] ∨ (4 ≤ head.length ∧ (head.length < lastLength head ∨
      (8 ≤ lastLength head ∧ lastLength head ≤ head.length ∧
        Backwards (head.take (head.length - (lastLength head).toNat))))) := by
  constructor
  · intro h
    cases h with
    | nil => exact Or.inl rfl
    | rest _ hlen hpast => exact Or.inr ⟨hlen, Or.inl hpast⟩
    | record head chunk hlen hlength hhead =>
      have hlast : lastLength (head ++ chunk) = lastLength chunk :=
        lastLength_append (by omega) head
      rw [hlast, hlength, List.length_append, Int.toNat_natCast,
        Nat.add_sub_cancel, List.take_left]
      exact Or.inr ⟨by omega, Or.inr ⟨by omega, by push_cast; omega, hhead⟩⟩
  · rintro (rfl | ⟨hlen, hpast | ⟨hmin, hmax, hhead⟩⟩)
    · exact .nil
    · exact .rest head hlen hpast
    · have hchunk : (head.drop (head.length - (lastLength head).toNat)).length =
          (lastLength head).toNat := by
        rw [List.length_drop]
        omega
      have hfour : 4 ≤ (head.drop (head.length - (lastLength head).toNat)).length := by omega
      have hlast := lastLength_append hfour (head.take (head.length - (lastLength head).toNat))
      rw [List.take_append_drop] at hlast
      rw [← List.take_append_drop (head.length - (lastLength head).toNat) head]
      refine .record _ _ (by omega) ?_ hhead
      rw [← hlast]
      omega

def Walk.Ends {T : Type} (w : Walk T) : Prop := ∃ records, w = .ends records

section Walks

variable {T : Type} {create : List UInt8 → T} {file : List UInt8}

theorem Walk.ends_cons (record : T) (w : Walk T) : (w.cons record).Ends ↔ w.Ends := by
  constructor
  · rintro ⟨records, h⟩
    cases w with
    | ends records' => exact ⟨records', rfl⟩
    | _ => cases h
  · rintro ⟨records, rfl⟩
    exact ⟨record :: records, rfl⟩

theorem Walk.not_ends_throws : ¬ (Walk.throws : Walk T).Ends := by
  rintro ⟨records, h⟩
  cases h

theorem Walk.not_ends_null : ¬ (Walk.null : Walk T).Ends := by
  rintro ⟨records, h⟩
  cases h

def Misses (cursor : Cursor T) (offset : ℤ) : Prop :=
  cursor.current = none ∨ cursor.currentOffset ≠ offset

def payload (file : List UInt8) (it : Iterator) : List UInt8 :=
  (file.drop (it.offset + 4).toNat).take (it.recordLength - 8).toNat

/-- What follows on a move that was made: the record is read if its length is that
of its two length fields at least. -/
theorem walk_moved {move : Iterator → Option (Bool × Iterator)} {fuel : ℕ} {cursor : Cursor T}
    {it : Iterator} (hmove : move cursor.it = some (true, it))
    (hmiss : it.recordLength ≠ 0 → Misses cursor it.offset) (hstart : 0 ≤ it.offset)
    (hend : it.offset + it.recordLength ≤ file.length) :
    (walk create file move (fuel + 1) cursor).Ends ↔ 8 ≤ it.recordLength ∧
      (walk create file move fuel ⟨it, it.offset, some (create (payload file it))⟩).Ends := by
  rw [walk, hmove]
  dsimp only
  by_cases hzero : it.recordLength = 0
  · have hread : (cursor.moveTo it).read create file = some (none, cursor.moveTo it) := by
      rw [Cursor.read]
      exact if_pos hzero
    rw [hread]
    exact iff_of_false Walk.not_ends_null (fun h => by omega)
  have hhit : ¬ ((cursor.moveTo it).currentOffset = (cursor.moveTo it).it.offset ∧
      (cursor.moveTo it).current.isSome = true) := by
    rintro ⟨hoffset, hsome⟩
    rcases hmiss hzero with hnone | hne
    · change cursor.current.isSome = true at hsome
      rw [hnone] at hsome
      cases hsome
    · exact hne hoffset
  have hread : (cursor.moveTo it).read create file =
      (readBytes file (it.offset + 4) (it.recordLength - 8)).map fun bytes =>
        (some (create bytes), ⟨it, it.offset, some (create bytes)⟩) := by
    rw [Cursor.read, if_neg hhit]
    exact if_neg hzero
  rw [hread, readBytes]
  by_cases hshort : it.recordLength < 8
  · rw [if_pos (by omega)]
    exact iff_of_false Walk.not_ends_throws (fun h => by omega)
  · rw [if_neg (by omega)]
    change (Walk.cons _ _).Ends ↔ _
    rw [Walk.ends_cons]
    exact (and_iff_right (by omega)).symm

/-- A loop that stops moves no more. -/
theorem walk_stopped {move : Iterator → Option (Bool × Iterator)} {fuel : ℕ} {cursor : Cursor T}
    {it : Iterator} (hmove : move cursor.it = some (false, it)) :
    (walk create file move (fuel + 1) cursor).Ends := by
  rw [walk, hmove]
  exact ⟨[], rfl⟩

theorem walk_throws {move : Iterator → Option (Bool × Iterator)} {fuel : ℕ} {cursor : Cursor T}
    (hmove : move cursor.it = none) : ¬ (walk create file move (fuel + 1) cursor).Ends := by
  rw [walk, hmove]
  exact Walk.not_ends_throws

end Walks

section Moves

variable (pre tail : List UInt8)

/-- The length that is read at the start of the tail. -/
theorem readLength_tail : readLength (pre ++ tail) pre.length =
    if tail.length < 4 then none else some (firstLength tail) := by
  rw [readLength, readBytes, List.length_append]
  by_cases hshort : tail.length < 4
  · rw [if_pos hshort, if_pos (by omega)]
    rfl
  · rw [if_neg hshort, if_neg (by omega), Int.toNat_natCast, List.drop_left]
    rfl

theorem next_tail {it : Iterator} (hit : it.offset + it.recordLength = pre.length) :
    next (pre ++ tail) it =
      if tail = [] then some (false, ⟨pre.length, 0⟩)
      else if tail.length < 4 then none
      else some (decide (firstLength tail ≤ tail.length), ⟨pre.length, firstLength tail⟩) := by
  rw [next, hit, readLength_tail, List.length_append]
  by_cases hnil : tail = []
  · subst hnil
    rw [if_pos rfl, if_pos (by simp)]
  · have hpos := List.length_pos_iff.mpr hnil
    rw [if_neg hnil, if_neg (by omega)]
    split
    · rfl
    · rw [Option.map_some]
      congr 3
      push_cast
      apply propext
      omega

/-- The length that is read at the end of the head. -/
theorem readLength_head : readLength (pre ++ tail) (pre.length - 4) =
    if pre.length < 4 then none else some (lastLength pre) := by
  rw [readLength, readBytes, List.length_append]
  by_cases hshort : pre.length < 4
  · rw [if_pos hshort, if_pos (by omega)]
    rfl
  · have hoffset : ((pre.length : ℤ) - 4).toNat = pre.length - 4 := by omega
    have hlen : (pre.drop (pre.length - 4)).length = 4 := by
      rw [List.length_drop]
      omega
    rw [if_neg hshort, if_neg (by omega), hoffset, List.drop_append_of_le_length (by omega)]
    change some (asInt (ofBigEndian ((pre.drop (pre.length - 4) ++ tail).take 4))) = _
    rw [List.take_left' hlen]
    rfl

theorem prev_head {it : Iterator} (hit : it.offset = pre.length) :
    prev (pre ++ tail) it =
      if pre = [] then some (false, ⟨0, 0⟩)
      else if pre.length < 4 then none
      else some (decide (lastLength pre ≤ pre.length),
        ⟨pre.length - lastLength pre, lastLength pre⟩) := by
  rw [prev, hit, readLength_head]
  by_cases hnil : pre = []
  · subst hnil
    rfl
  · have hpos := List.length_pos_iff.mpr hnil
    rw [if_neg hnil, if_neg (by omega)]
    split
    · rfl
    · rw [Option.map_some]
      congr 3
      apply propext
      omega

end Moves

section Results

variable {T : Type} (create : List UInt8 → T)

/-- The loop from some place on, with turns enough for the bytes that follow. -/
theorem walk_next_iff (fuel : ℕ) (pre tail : List UInt8) (cursor : Cursor T)
    (hit : cursor.it.offset + cursor.it.recordLength = pre.length)
    (hmiss : Misses cursor pre.length) (hfuel : tail.length / 8 < fuel) :
    (walk create (pre ++ tail) (next (pre ++ tail)) fuel cursor).Ends ↔ Forwards tail := by
  induction fuel generalizing pre tail cursor with
  | zero => omega
  | succ fuel ih =>
    have hmove := next_tail pre tail hit
    rw [forwards_iff]
    by_cases hnil : tail = []
    · rw [if_pos hnil] at hmove
      exact iff_of_true (walk_stopped hmove) (Or.inl hnil)
    rw [if_neg hnil] at hmove
    by_cases hshort : tail.length < 4
    · rw [if_pos hshort] at hmove
      refine iff_of_false (walk_throws hmove) ?_
      rintro (h | ⟨h, -⟩)
      · exact hnil h
      · omega
    rw [if_neg hshort] at hmove
    by_cases hpast : tail.length < firstLength tail
    · rw [decide_eq_false (by omega)] at hmove
      exact iff_of_true (walk_stopped hmove) (Or.inr ⟨by omega, Or.inl hpast⟩)
    rw [decide_eq_true (by omega)] at hmove
    rw [walk_moved hmove (fun _ => hmiss) (by dsimp only; omega)
      (by dsimp only; rw [List.length_append]; omega)]
    by_cases hmin : 8 ≤ firstLength tail
    · have hlen : (pre ++ tail.take (firstLength tail).toNat).length =
          pre.length + (firstLength tail).toNat := by
        rw [List.length_append, List.length_take]
        omega
      have hsplit : pre ++ tail = (pre ++ tail.take (firstLength tail).toNat) ++
          tail.drop (firstLength tail).toNat := by
        rw [List.append_assoc, List.take_append_drop]
      have hrest :=
        ih (pre ++ tail.take (firstLength tail).toNat) (tail.drop (firstLength tail).toNat)
        ⟨⟨pre.length, firstLength tail⟩, pre.length, some (create (payload (pre ++ tail)
          ⟨pre.length, firstLength tail⟩))⟩ (by rw [hlen]; dsimp only; omega)
        (Or.inr (by rw [hlen]; dsimp only; omega)) (by rw [List.length_drop]; omega)
      rw [← hsplit] at hrest
      dsimp only
      rw [hrest]
      constructor
      · rintro ⟨-, htail⟩
        exact Or.inr ⟨by omega, Or.inr ⟨hmin, by omega, htail⟩⟩
      · rintro (h | ⟨-, h | ⟨-, -, htail⟩⟩)
        · exact absurd h hnil
        · exact absurd h hpast
        · exact ⟨hmin, htail⟩
    · refine iff_of_false (fun h => hmin h.1) ?_
      rintro (h | ⟨-, h | ⟨h, -, -⟩⟩)
      · exact hnil h
      · exact hpast h
      · exact hmin h

theorem walk_prev_iff (fuel : ℕ) (head rest : List UInt8) (cursor : Cursor T)
    (hit : cursor.it.offset = head.length)
    (hmiss : cursor.current = none ∨ cursor.currentOffset = head.length)
    (hfuel : head.length / 8 < fuel) :
    (walk create (head ++ rest) (prev (head ++ rest)) fuel cursor).Ends ↔ Backwards head := by
  induction fuel generalizing head rest cursor with
  | zero => omega
  | succ fuel ih =>
    have hmove := prev_head head rest hit
    rw [backwards_iff]
    by_cases hnil : head = []
    · rw [if_pos hnil] at hmove
      exact iff_of_true (walk_stopped hmove) (Or.inl hnil)
    rw [if_neg hnil] at hmove
    by_cases hshort : head.length < 4
    · rw [if_pos hshort] at hmove
      refine iff_of_false (walk_throws hmove) ?_
      rintro (h | ⟨h, -⟩)
      · exact hnil h
      · omega
    rw [if_neg hshort] at hmove
    by_cases hpast : head.length < lastLength head
    · rw [decide_eq_false (by omega)] at hmove
      exact iff_of_true (walk_stopped hmove) (Or.inr ⟨by omega, Or.inl hpast⟩)
    rw [decide_eq_true (by omega)] at hmove
    have hmiss' : lastLength head ≠ 0 → Misses cursor (head.length - lastLength head) := by
      intro hzero
      rcases hmiss with hnone | heq
      · exact Or.inl hnone
      · exact Or.inr (by omega)
    rw [walk_moved hmove hmiss' (by dsimp only; omega)
      (by dsimp only; rw [List.length_append]; omega)]
    by_cases hmin : 8 ≤ lastLength head
    · have hlen : (head.take (head.length - (lastLength head).toNat)).length =
          head.length - (lastLength head).toNat := by
        rw [List.length_take]
        omega
      have hsplit : head ++ rest = head.take (head.length - (lastLength head).toNat) ++
          (head.drop (head.length - (lastLength head).toNat) ++ rest) := by
        rw [← List.append_assoc, List.take_append_drop]
      have hprev := ih (head.take (head.length - (lastLength head).toNat))
        (head.drop (head.length - (lastLength head).toNat) ++ rest)
        ⟨⟨head.length - lastLength head, lastLength head⟩, head.length - lastLength head,
          some (create (payload (head ++ rest) ⟨head.length - lastLength head, lastLength head⟩))⟩
        (by rw [hlen]; dsimp only; omega) (Or.inr (by rw [hlen]; dsimp only; omega))
          (by rw [hlen]; omega)
      rw [← hsplit] at hprev
      dsimp only
      rw [hprev]
      constructor
      · rintro ⟨-, hhead⟩
        exact Or.inr ⟨by omega, Or.inr ⟨hmin, by omega, hhead⟩⟩
      · rintro (h | ⟨-, h | ⟨-, -, hhead⟩⟩)
        · exact absurd h hnil
        · exact absurd h hpast
        · exact ⟨hmin, hhead⟩
    · refine iff_of_false (fun h => hmin h.1) ?_
      rintro (h | ⟨-, h | ⟨h, -, -⟩⟩)
      · exact hnil h
      · exact hpast h
      · exact hmin h

/-- The loop over any file comes to its end in at most EOF/8 turns, without an
exception and without a null record, exactly when the file is cut into records
from the side where the loop starts. -/
theorem iteration_survives_iff (file : List UInt8) :
    ((∃ records, forwards create file = .ends records) ↔ Forwards file) ∧
      ((∃ records, backwards create file = .ends records) ↔ Backwards file) := by
  have hnext := walk_next_iff create (file.length / 8 + 1) [] file Cursor.new rfl (Or.inl rfl)
    (Nat.lt_succ_self _)
  have hprev :=
    walk_prev_iff create (file.length / 8 + 1) file [] (Cursor.new.moveTo (atEnd file)) rfl
    (Or.inl rfl) (Nat.lt_succ_self _)
  rw [List.append_nil] at hprev
  exact ⟨hnext, hprev⟩

end Results

/-- A length of zero makes both loops give null, one of four makes them throw, and
so do bytes that are too few for a length. -/
theorem hostile_files :
    forwards id (List.replicate 8 0) = .null ∧ backwards id (List.replicate 8 0) = .null ∧
    forwards id [0, 0, 0, 4] = .throws ∧ backwards id [0, 0, 0, 4] = .throws ∧
    forwards id [0] = .throws ∧ backwards id [0] = .throws :=
  ⟨rfl, rfl, rfl, rfl, rfl, rfl⟩

end Succinct.RecordWalks
