import Mathlib.Data.List.Basic
import Mathlib.Tactic

/-!
Byte buffers with a position, a limit and a mark. An operation that would
leave the buffer is none, as the exception it throws.
-/
namespace Succinct.ByteBuffers

def bigEndian : ℕ → ℕ → List UInt8
  | 0, _ => []
  | width + 1, n => UInt8.ofNat (n / 256 ^ width) :: bigEndian width n

def ofBigEndian (bytes : List UInt8) : ℕ := bytes.foldl (fun n b => n * 256 + b.toNat) 0

@[simp] theorem length_bigEndian (width n : ℕ) : (bigEndian width n).length = width := by
  induction width with
  | zero => rfl
  | succ width ih => rw [bigEndian, List.length_cons, ih]

theorem foldl_bigEndian (width n start : ℕ) :
    (bigEndian width n).foldl (fun n b => n * 256 + b.toNat) start =
      start * 256 ^ width + n % 256 ^ width := by
  induction width generalizing start with
  | zero => simp [bigEndian, Nat.mod_one]
  | succ width ih =>
    have hbyte : (UInt8.ofNat (n / 256 ^ width)).toNat = n / 256 ^ width % 256 := by
      rw [UInt8.toNat_ofNat']
    have hmod : n % 256 ^ (width + 1) =
      n / 256 ^ width % 256 * 256 ^ width + n % 256 ^ width := by
      rw [pow_succ, Nat.mod_mul, Nat.mul_comm (256 ^ width), Nat.add_comm]
    rw [bigEndian, List.foldl_cons, ih, hbyte, hmod, pow_succ]
    ring

theorem ofBigEndian_bigEndian (width n : ℕ) :
    ofBigEndian (bigEndian width n) = n % 256 ^ width := by
  rw [ofBigEndian, foldl_bigEndian]
  simp

theorem foldl_bytes_lt (bytes : List UInt8) (start : ℕ) :
    bytes.foldl (fun n b => n * 256 + b.toNat) start < (start + 1) * 256 ^ bytes.length := by
  induction bytes generalizing start with
  | nil => simp
  | cons b bytes ih =>
    have hb := b.toNat_lt
    have hstep : start * 256 + b.toNat + 1 ≤ (start + 1) * 256 := by omega
    rw [List.foldl_cons, List.length_cons]
    calc _ < (start * 256 + b.toNat + 1) * 256 ^ bytes.length := ih _
      _ ≤ (start + 1) * 256 * 256 ^ bytes.length := Nat.mul_le_mul_right _ hstep
      _ = (start + 1) * 256 ^ (bytes.length + 1) := by ring

theorem ofBigEndian_lt (bytes : List UInt8) : ofBigEndian bytes < 256 ^ bytes.length := by
  have hlt := foldl_bytes_lt bytes 0
  rwa [Nat.zero_add, Nat.one_mul] at hlt

/-- The fixed bytes at the front of what follows them. -/
theorem getD_ofFn {n : ℕ} (f : Fin n → UInt8) (rest : List UInt8) :
    (fun i : Fin n => (List.ofFn f ++ rest).getD i.val 0) = f := by
  funext i
  rw [List.getD_eq_getElem?_getD, List.getElem?_append_left (by simp), List.getElem?_ofFn,
    dif_pos i.isLt]
  rfl

def asInt (n : ℕ) : ℤ := if n < 2147483648 then n else (n : ℤ) - 4294967296

theorem asInt_of_lt {n : ℕ} (h : n < 2147483648) : asInt n = n := if_pos h

structure ByteBuffer where
  bytes : List UInt8
  position : ℕ
  limit : ℕ
  mark : Option ℕ
  position_le : position ≤ limit
  limit_le : limit ≤ bytes.length

namespace ByteBuffer

def capacity (b : ByteBuffer) : ℕ := b.bytes.length

def remaining (b : ByteBuffer) : ℕ := b.limit - b.position

def hasRemaining (b : ByteBuffer) : Bool := decide (b.position < b.limit)

def wrap (bytes : List UInt8) : ByteBuffer where
  bytes := bytes
  position := 0
  limit := bytes.length
  mark := none
  position_le := Nat.zero_le _
  limit_le := Nat.le_refl _

def clear (b : ByteBuffer) : ByteBuffer := wrap b.bytes

def flip (b : ByteBuffer) : ByteBuffer where
  bytes := b.bytes
  position := 0
  limit := b.position
  mark := none
  position_le := Nat.zero_le _
  limit_le := Nat.le_trans b.position_le b.limit_le

/-- A mark behind the new position or limit is dropped. -/
def keepMark (mark : Option ℕ) (n : ℕ) : Option ℕ := mark.filter (fun m => decide (m ≤ n))

def setPosition (b : ByteBuffer) (n : ℤ) : Option ByteBuffer :=
  if h : 0 ≤ n ∧ n ≤ b.limit then
    some { b with position := n.toNat, mark := keepMark b.mark n.toNat,
                  position_le := by omega }
  else none

def setLimit (b : ByteBuffer) (n : ℤ) : Option ByteBuffer :=
  if h : 0 ≤ n ∧ n ≤ b.bytes.length then
    some { b with limit := n.toNat, position := min b.position n.toNat,
                  mark := keepMark b.mark n.toNat,
                  position_le := Nat.min_le_right _ _, limit_le := by omega }
  else none

def setMark (b : ByteBuffer) : ByteBuffer := { b with mark := some b.position }

def reset (b : ByteBuffer) : Option ByteBuffer :=
  b.mark.bind fun m => if h : m ≤ b.limit
    then some { b with position := m, position_le := h } else none

def overwrite (bytes : List UInt8) (index : ℕ) (src : List UInt8) : List UInt8 :=
  bytes.take index ++ src ++ bytes.drop (index + src.length)

theorem length_overwrite (bytes src : List UInt8) (index : ℕ)
    (h : index + src.length ≤ bytes.length) :
    (overwrite bytes index src).length = bytes.length := by
  simp only [overwrite, List.length_append, List.length_take, List.length_drop]
  omega

def put (b : ByteBuffer) (src : List UInt8) : Option ByteBuffer :=
  if h : src.length ≤ b.limit - b.position then
    some { b with bytes := overwrite b.bytes b.position src
                  position := b.position + src.length
                  position_le := by have := b.position_le; omega
                  limit_le := by
                    have := b.position_le
                    have := b.limit_le
                    rw [length_overwrite _ _ _ (by omega)]
                    exact b.limit_le }
  else none

def putShort (b : ByteBuffer) (n : ℕ) : Option ByteBuffer := b.put (bigEndian 2 n)

def putInt (b : ByteBuffer) (n : ℕ) : Option ByteBuffer := b.put (bigEndian 4 n)

def putRange (b : ByteBuffer) (src : List UInt8) (offset len : ℤ) : Option ByteBuffer :=
  if 0 ≤ offset ∧ 0 ≤ len ∧ offset + len ≤ src.length then
    b.put ((src.drop offset.toNat).take len.toNat)
  else none

/-- The position stays where it is. -/
def putIntAt (b : ByteBuffer) (index n : ℕ) : Option ByteBuffer :=
  if h : index + 4 ≤ b.limit then
    some { b with bytes := overwrite b.bytes index (bigEndian 4 n)
                  limit_le := by
                    have := b.limit_le
                    rw [length_overwrite _ _ _ (by rw [length_bigEndian]; omega)]
                    exact b.limit_le }
  else none

def get (b : ByteBuffer) (n : ℕ) : Option (List UInt8 × ByteBuffer) :=
  if h : n ≤ b.limit - b.position then
    some ((b.bytes.drop b.position).take n,
      { b with position := b.position + n, position_le := by have := b.position_le; omega })
  else none

def getShort (b : ByteBuffer) : Option (ℕ × ByteBuffer) :=
  (b.get 2).map fun r => (ofBigEndian r.1, r.2)

def getInt (b : ByteBuffer) : Option (ℕ × ByteBuffer) :=
  (b.get 4).map fun r => (ofBigEndian r.1, r.2)

def getIntAt (b : ByteBuffer) (index : ℕ) : Option ℕ :=
  if index + 4 ≤ b.limit then some (ofBigEndian ((b.bytes.drop index).take 4)) else none

def leaving (b : ByteBuffer) (rest : ℕ) : ByteBuffer :=
  { b with position := b.limit - rest, mark := keepMark b.mark (b.limit - rest),
           position_le := Nat.sub_le _ _ }

def compact (b : ByteBuffer) : ByteBuffer where
  bytes := overwrite b.bytes 0 ((b.bytes.drop b.position).take b.remaining)
  position := b.remaining
  limit := b.bytes.length
  mark := none
  position_le := by
    have := b.limit_le
    have : b.remaining = b.limit - b.position := rfl
    omega
  limit_le := by
    have := b.limit_le
    have : b.remaining = b.limit - b.position := rfl
    rw [length_overwrite]
    simp only [List.length_take, List.length_drop]
    omega

def slice (b : ByteBuffer) : List UInt8 := (b.bytes.drop b.position).take b.remaining

def written (b : ByteBuffer) : List UInt8 := b.bytes.take b.position

theorem length_written (b : ByteBuffer) : b.written.length = b.position := by
  have := b.position_le
  have := b.limit_le
  rw [written, List.length_take]
  omega

theorem setPosition_spec (b : ByteBuffer) (n : ℕ) (h : n ≤ b.limit) :
    ∃ b', b.setPosition n = some b' ∧ b'.bytes = b.bytes ∧ b'.position = n ∧ b'.limit = b.limit ∧
      b'.mark = keepMark b.mark n :=
  ⟨_, dif_pos ⟨by omega, by omega⟩, rfl, Int.toNat_natCast n, rfl,
    congrArg (keepMark b.mark) (Int.toNat_natCast n)⟩

theorem setLimit_spec (b : ByteBuffer) (n : ℕ) (hpos : b.position ≤ n) (h : n ≤ b.capacity) :
    ∃ b', b.setLimit n = some b' ∧ b'.bytes = b.bytes ∧ b'.position = b.position ∧ b'.limit = n ∧
      b'.mark = keepMark b.mark n := by
  have hcap : n ≤ b.bytes.length := h
  refine ⟨_, dif_pos ⟨by omega, by omega⟩, rfl, ?_, Int.toNat_natCast n,
    congrArg (keepMark b.mark) (Int.toNat_natCast n)⟩
  simp only [Int.toNat_natCast]
  exact Nat.min_eq_left hpos

theorem get_spec (b : ByteBuffer) (n : ℕ) (h : n ≤ b.remaining) :
    ∃ b', b.get n = some ((b.bytes.drop b.position).take n, b') ∧ b'.bytes = b.bytes ∧
      b'.position = b.position + n ∧ b'.limit = b.limit ∧ b'.mark = b.mark :=
  ⟨_, dif_pos h, rfl, rfl, rfl, rfl⟩

/-- Putting bytes adds them to what is written. -/
theorem put_spec (b : ByteBuffer) (src : List UInt8) (h : src.length ≤ b.remaining) :
    ∃ b', b.put src = some b' ∧ b'.position = b.position + src.length ∧ b'.limit = b.limit ∧
      b'.capacity = b.capacity ∧ b'.written = b.written ++ src := by
  have hpos := b.position_le
  have hlim := b.limit_le
  have hsrc : src.length ≤ b.limit - b.position := h
  refine ⟨_, dif_pos h, rfl, rfl, length_overwrite _ _ _ (by omega), ?_⟩
  have hlen : b.position + src.length = (b.bytes.take b.position ++ src).length := by
    rw [List.length_append, List.length_take]
    omega
  simp only [written, overwrite]
  rw [hlen, List.take_left]

/-- Writing at an index before the position changes the bytes there. -/
theorem putIntAt_spec (b : ByteBuffer) (n : ℕ) (h : 4 ≤ b.limit) :
    ∃ b', b.putIntAt 0 n = some b' ∧ b'.position = b.position ∧ b'.limit = b.limit ∧
      b'.capacity = b.capacity ∧ b'.bytes.take 4 = bigEndian 4 n ∧
      b'.bytes.drop 4 = b.bytes.drop 4 := by
  have hlim := b.limit_le
  refine ⟨_, dif_pos (by omega), rfl, rfl, length_overwrite _ _ _ ?_, ?_, ?_⟩
  · rw [length_bigEndian]
    omega
  · simp only [overwrite, List.take_zero, List.nil_append]
    exact List.take_left' (length_bigEndian 4 n)
  · simp only [overwrite, List.take_zero, List.nil_append, length_bigEndian]
    exact List.drop_left' (length_bigEndian 4 n)

end ByteBuffer

end Succinct.ByteBuffers
