import Succinct.ByteBuffers

/-!
SHA-256, as hash.c computes it. Words are UInt32 and the bit count is UInt64,
so both wrap as they do in C; an array is the list of its elements. Words that
C leaves uninitialised are zero here, and are written before they are read.
-/
namespace Succinct.Sha256

open ByteBuffers.ByteBuffer (overwrite length_overwrite)

def rotr32 (x : UInt32) (b : UInt32) : UInt32 := (x >>> b) ||| (x <<< (32 - b))

def load32BE (src : List UInt8) : UInt32 :=
  (src.getD 3 0).toUInt32 ||| (src.getD 2 0).toUInt32 <<< 8 |||
    (src.getD 1 0).toUInt32 <<< 16 ||| (src.getD 0 0).toUInt32 <<< 24

def store32BE (w : UInt32) : List UInt8 :=
  [(w >>> 24).toUInt8, (w >>> 16).toUInt8, (w >>> 8).toUInt8, w.toUInt8]

def store64BE (w : UInt64) : List UInt8 :=
  [(w >>> 56).toUInt8, (w >>> 48).toUInt8, (w >>> 40).toUInt8, (w >>> 32).toUInt8,
    (w >>> 24).toUInt8, (w >>> 16).toUInt8, (w >>> 8).toUInt8, w.toUInt8]

def be32encVect (src : List UInt32) : List UInt8 := src.flatMap store32BE

def be32decVect (src : List UInt8) (len : ℕ) : List UInt32 :=
  (List.range (len / 4)).map fun i => load32BE (src.drop (i * 4))

def Krnd : List UInt32 := [
  0x428a2f98, 0x71374491, 0xb5c0fbcf, 0xe9b5dba5, 0x3956c25b, 0x59f111f1,
  0x923f82a4, 0xab1c5ed5, 0xd807aa98, 0x12835b01, 0x243185be, 0x550c7dc3,
  0x72be5d74, 0x80deb1fe, 0x9bdc06a7, 0xc19bf174, 0xe49b69c1, 0xefbe4786,
  0x0fc19dc6, 0x240ca1cc, 0x2de92c6f, 0x4a7484aa, 0x5cb0a9dc, 0x76f988da,
  0x983e5152, 0xa831c66d, 0xb00327c8, 0xbf597fc7, 0xc6e00bf3, 0xd5a79147,
  0x06ca6351, 0x14292967, 0x27b70a85, 0x2e1b2138, 0x4d2c6dfc, 0x53380d13,
  0x650a7354, 0x766a0abb, 0x81c2c92e, 0x92722c85, 0xa2bfe8a1, 0xa81a664b,
  0xc24b8b70, 0xc76c51a3, 0xd192e819, 0xd6990624, 0xf40e3585, 0x106aa070,
  0x19a4c116, 0x1e376c08, 0x2748774c, 0x34b0bcb5, 0x391c0cb3, 0x4ed8aa4a,
  0x5b9cca4f, 0x682e6ff3, 0x748f82ee, 0x78a5636f, 0x84c87814, 0x8cc70208,
  0x90befffa, 0xa4506ceb, 0xbef9a3f7, 0xc67178f2]

def Ch (x y z : UInt32) : UInt32 := (x &&& (y ^^^ z)) ^^^ z

def Maj (x y z : UInt32) : UInt32 := (x &&& (y ||| z)) ||| (y &&& z)

def S0 (x : UInt32) : UInt32 := rotr32 x 2 ^^^ rotr32 x 13 ^^^ rotr32 x 22

def S1 (x : UInt32) : UInt32 := rotr32 x 6 ^^^ rotr32 x 11 ^^^ rotr32 x 25

def s0 (x : UInt32) : UInt32 := rotr32 x 7 ^^^ rotr32 x 18 ^^^ (x >>> 3)

def s1 (x : UInt32) : UInt32 := rotr32 x 17 ^^^ rotr32 x 19 ^^^ (x >>> 10)

def RND (S : List UInt32) (a b c d e f g h : ℕ) (k : UInt32) : List UInt32 :=
  let S :=
    S.set h (S.getD h 0 + (S1 (S.getD e 0) + Ch (S.getD e 0) (S.getD f 0) (S.getD g 0) + k))
  let S := S.set d (S.getD d 0 + S.getD h 0)
  S.set h (S.getD h 0 + (S0 (S.getD a 0) + Maj (S.getD a 0) (S.getD b 0) (S.getD c 0)))

def RNDr (W : List UInt32) (ii : ℕ) (S : List UInt32) (i : ℕ) : List UInt32 :=
  RND S ((64 - i) % 8) ((65 - i) % 8) ((66 - i) % 8) ((67 - i) % 8) ((68 - i) % 8)
    ((69 - i) % 8) ((70 - i) % 8) ((71 - i) % 8) (W.getD (i + ii) 0 + Krnd.getD (i + ii) 0)

def MSCH (ii : ℕ) (W : List UInt32) (i : ℕ) : List UInt32 :=
  W.set (i + ii + 16)
    (s1 (W.getD (i + ii + 14) 0) + W.getD (i + ii + 9) 0 + s0 (W.getD (i + ii + 1) 0) +
      W.getD (i + ii) 0)

/-- Sixteen rounds, and the next sixteen words unless these were the last. -/
def rounds (SW : List UInt32 × List UInt32) (i : ℕ) : List UInt32 × List UInt32 :=
  let S := (List.range 16).foldl (RNDr SW.2 i) SW.1
  if i = 48 then (S, SW.2) else (S, (List.range 16).foldl (MSCH i) SW.2)

def SHA256Transform (state : List UInt32) (block : List UInt8) : List UInt32 :=
  let W := be32decVect block 64 ++ List.replicate 48 0
  let S := ([0, 16, 32, 48].foldl rounds (state, W)).1
  List.zipWith (fun x y => x + y) state S

structure State where
  state : List UInt32
  count : UInt64
  buf : List UInt8

def PAD : List UInt8 := 0x80 :: List.replicate 63 0

def State.filled (s : State) : ℕ := ((s.count >>> 3) &&& 0x3f).toNat

def SHA256Pad (s : State) : State :=
  let r := s.filled
  let s := if r < 56 then { s with buf := overwrite s.buf r (PAD.take (56 - r)) }
    else
      let buf := overwrite s.buf r (PAD.take (64 - r))
      { s with state := SHA256Transform s.state buf, buf :=
        overwrite buf 0 (List.replicate 56 0) }
  let buf := overwrite s.buf 56 (store64BE s.count)
  { s with state := SHA256Transform s.state buf, buf := buf }

def initialState : List UInt32 :=
  [0x6a09e667, 0xbb67ae85, 0x3c6ef372, 0xa54ff53a, 0x510e527f, 0x9b05688c, 0x1f83d9ab, 0x5be0cd19]

/-- crypto_hash_sha256_init leaves the buffer as it was. -/
def init (s : State) : State := { s with count := 0, state := initialState }

def updateLoop : ℕ → List UInt32 → List UInt8 → List UInt32 × List UInt8
  | 0, state, input => (state, input)
  | fuel + 1, state, input =>
    if input.length ≥ 64 then updateLoop fuel
      (SHA256Transform state (input.take 64)) (input.drop 64)
    else (state, input)

def update (s : State) (input : List UInt8) : State :=
  if input.length ≤ 0 then s
  else
    let r := s.filled
    let s := { s with count := s.count + UInt64.ofNat input.length <<< 3 }
    if input.length < 64 - r then { s with buf := overwrite s.buf r input }
    else
      let buf := overwrite s.buf r (input.take (64 - r))
      let state := SHA256Transform s.state buf
      let (state, rest) := updateLoop input.length state (input.drop (64 - r))
      { s with state := state, buf := overwrite buf 0 rest }

def final (s : State) : List UInt8 := be32encVect (SHA256Pad s).state

/-- crypto_hash_sha256, over an array that is zero at first. -/
def hash (input : List UInt8) : List UInt8 :=
  final (update (init ⟨[], 0, List.replicate 64 0⟩) input)

example : hash [] = [0xe3, 0xb0, 0xc4, 0x42, 0x98, 0xfc, 0x1c, 0x14, 0x9a, 0xfb, 0xf4, 0xc8, 0x99,
    0x6f, 0xb9, 0x24, 0x27, 0xae, 0x41, 0xe4, 0x64, 0x9b, 0x93, 0x4c, 0xa4, 0x95, 0x99, 0x1b,
    0x78, 0x52, 0xb8, 0x55] := by
  decide +kernel

theorem length_RNDr (W : List UInt32) (ii : ℕ) (S : List UInt32) (i : ℕ) :
    (RNDr W ii S i).length = S.length := by
  simp only [RNDr, RND, List.length_set]

theorem length_rounds (SW : List UInt32 × List UInt32) (i : ℕ) :
    (rounds SW i).1.length = SW.1.length := by
  have hfold : ∀ (l : List ℕ) (S : List UInt32), (l.foldl (RNDr SW.2 i) S).length = S.length := by
    intro l
    induction l with
    | nil => exact fun _ => rfl
    | cons j l ih => exact fun S => (ih _).trans (length_RNDr _ _ _ _)
  simp only [rounds]
  split
  · rw [hfold]
  · rw [hfold]

theorem length_SHA256Transform (state : List UInt32) (block : List UInt8) :
    (SHA256Transform state block).length = state.length := by
  rw [SHA256Transform, List.length_zipWith]
  simp only [List.foldl_cons, List.foldl_nil, length_rounds, min_self]

theorem length_updateLoop (fuel : ℕ) (state : List UInt32) (input : List UInt8) :
    (updateLoop fuel state input).1.length = state.length := by
  induction fuel generalizing state input with
  | zero => rfl
  | succ fuel ih =>
    rw [updateLoop]
    split
    · rw [ih, length_SHA256Transform]
    · rfl

def absorb (state : List UInt32) (input : List UInt8) : List UInt32 :=
  (updateLoop input.length state input).1

theorem updateLoop_fuel (fuel : ℕ) (state : List UInt32) (input : List UInt8)
    (h : input.length ≤ fuel) :
    updateLoop fuel state input = updateLoop input.length state input := by
  induction fuel using Nat.strong_induction_on generalizing state input with
  | _ fuel ih =>
    cases fuel with
    | zero => rw [Nat.le_zero.mp h]
    | succ fuel =>
      cases hlen : input.length with
      | zero => simp [updateLoop, hlen]
      | succ n =>
        simp only [updateLoop]
        split
        · have hdrop : (input.drop 64).length = n + 1 - 64 := by
            rw [List.length_drop, hlen]
          rw [ih fuel (by omega) _ _ (by omega), ih n (by omega) _ _ (by omega)]
        · rfl

theorem updateLoop_short (fuel : ℕ) (state : List UInt32) (input : List UInt8)
    (h : input.length < 64) : updateLoop fuel state input = (state, input) := by
  cases fuel with
  | zero => rfl
  | succ fuel =>
    rw [updateLoop, if_neg (by omega)]

theorem updateLoop_block (state : List UInt32) (block rest : List UInt8) (h : block.length = 64) :
    updateLoop (block ++ rest).length state (block ++ rest) =
      updateLoop rest.length (SHA256Transform state block) rest := by
  have hlen : (block ++ rest).length = (63 + rest.length) + 1 := by
    rw [List.length_append, h]
    omega
  rw [hlen, updateLoop, if_pos (by omega), ← h, List.take_left, List.drop_left,
    updateLoop_fuel _ _ _ (by omega)]

/-- What is left is the unfinished block. -/
theorem updateLoop_rest (state : List UInt32) (input : List UInt8) :
    (updateLoop input.length state input).2 = input.drop (input.length / 64 * 64) := by
  induction hn : input.length using Nat.strong_induction_on generalizing state input with
  | _ n ih =>
    by_cases hshort : input.length < 64
    · rw [updateLoop_short _ _ _ hshort, ← hn, Nat.div_eq_of_lt hshort,
        Nat.zero_mul, List.drop_zero]
    · have hsplit := List.take_append_drop 64 input
      have htake : (input.take 64).length = 64 := by
        rw [List.length_take]
        omega
      have hdrop : (input.drop 64).length = n - 64 := by rw [List.length_drop, hn]
      have hblock := updateLoop_block state (input.take 64) (input.drop 64) htake
      rw [hsplit, hn] at hblock
      rw [hblock, ih _ (by omega) _ _ rfl, hdrop, List.drop_drop]
      congr 1
      omega

/-- Whole blocks first, then the rest of the input. -/
theorem updateLoop_append (state : List UInt32) (front rest : List UInt8)
    (h : front.length % 64 = 0) :
    updateLoop (front ++ rest).length state (front ++ rest) =
      updateLoop rest.length (absorb state front) rest := by
  induction hn : front.length using Nat.strong_induction_on generalizing state front with
  | _ n ih =>
    by_cases hshort : front.length < 64
    · have hnil : front = [] := List.eq_nil_of_length_eq_zero (by omega)
      rw [hnil]
      rfl
    · have hsplit := List.take_append_drop 64 front
      have htake : (front.take 64).length = 64 := by
        rw [List.length_take]
        omega
      have hdrop : (front.drop 64).length = n - 64 := by rw [List.length_drop, hn]
      have hblock := updateLoop_block state (front.take 64) (front.drop 64 ++ rest) htake
      have habsorb := updateLoop_block state (front.take 64) (front.drop 64) htake
      rw [← List.append_assoc, hsplit] at hblock
      rw [hsplit] at habsorb
      rw [hblock, ih _ (by omega) _ _ (by omega) rfl, absorb, absorb, habsorb]

/-- A state that has seen the input: what final reads of it is a function of
the input, in whatever pieces it came. -/
structure Sees (s : State) (input : List UInt8) : Prop where
  count : s.count = UInt64.ofNat input.length <<< 3
  buf : s.buf.length = 64
  block : s.buf.take (input.length % 64) = input.drop (input.length / 64 * 64)
  state : s.state = absorb initialState input

theorem take_overwrite (bytes src : List UInt8) (index : ℕ)
    (h : index + src.length ≤ bytes.length) :
    (overwrite bytes index src).take (index + src.length) = bytes.take index ++ src := by
  have hlen : (bytes.take index ++ src).length = index + src.length := by
    rw [List.length_append, List.length_take]
    omega
  rw [overwrite, ← hlen, List.take_left]

theorem overwrite_end (bytes src : List UInt8) (index : ℕ)
    (h : index + src.length = bytes.length) :
    overwrite bytes index src = bytes.take index ++ src := by
  rw [overwrite, h, List.drop_length, List.append_nil]

/-- The whole blocks of an input, and the block that it leaves unfinished. -/
theorem blocks_split (input : List UInt8) : ∃ front tail, input = front ++ tail ∧
    front.length = input.length / 64 * 64 ∧ tail.length = input.length % 64 ∧
      input.drop (input.length / 64 * 64) = tail := by
  refine ⟨input.take (input.length / 64 * 64), input.drop (input.length / 64 * 64),
    (List.take_append_drop _ _).symm, ?_, ?_, rfl⟩
  · rw [List.length_take]
    omega
  · rw [List.length_drop]
    omega

theorem absorb_short (state : List UInt32) (front tail : List UInt8)
    (hfront : front.length % 64 = 0)
    (htail : tail.length < 64) : absorb state (front ++ tail) = absorb state front := by
  rw [absorb, updateLoop_append state front tail hfront, updateLoop_short _ _ _ htail]

theorem count_append (n k : ℕ) :
    UInt64.ofNat n <<< 3 + UInt64.ofNat k <<< 3 = UInt64.ofNat (n + k) <<< 3 := by
  apply UInt64.toNat_inj.mp
  simp only [UInt64.toNat_add, UInt64.toNat_shiftLeft, UInt64.toNat_ofNat', Nat.shiftLeft_eq]
  have h3 : UInt64.toNat 3 % 64 = 3 := rfl
  rw [h3]
  omega

namespace Sees

variable {s : State} {input : List UInt8}

theorem filled (h : Sees s input) : s.filled = input.length % 64 := by
  rw [State.filled, h.count]
  have h63 : UInt64.toNat 0x3f = 2 ^ 6 - 1 := rfl
  have h3 : UInt64.toNat 3 % 64 = 3 := rfl
  simp only [UInt64.toNat_and, UInt64.toNat_shiftRight, UInt64.toNat_shiftLeft,
    UInt64.toNat_ofNat',
    h3, h63, Nat.and_two_pow_sub_one_eq_mod, Nat.shiftLeft_eq, Nat.shiftRight_eq_div_pow]
  omega

theorem init (s : State) (h : s.buf.length = 64) : Sees (Sha256.init s) [] :=
  ⟨rfl, h, rfl, rfl⟩

/-- Input that does not finish the block only goes to the buffer. -/
theorem update_short (h : Sees s input) (more : List UInt8)
    (hshort : more.length < 64 - input.length % 64) :
    Sees { s with count := s.count + UInt64.ofNat more.length <<< 3
                  buf := overwrite s.buf (input.length % 64) more } (input ++ more) := by
  obtain ⟨front, tail, hsplit, hfront, htail, hdrop⟩ := blocks_split input
  have hbuf := h.buf
  have hdiv : (input.length + more.length) / 64 = input.length / 64 := by omega
  refine ⟨?_, ?_, ?_, ?_⟩
  · rw [h.count, count_append, List.length_append]
  · rw [length_overwrite _ _ _ (by omega), hbuf]
  · have hmod : (input ++ more).length % 64 = input.length % 64 + more.length := by
      rw [List.length_append]
      omega
    rw [hmod, take_overwrite _ _ _ (by omega), h.block, List.length_append, hdiv,
      List.drop_append_of_le_length (by omega)]
  · have hmore : input ++ more = front ++ (tail ++ more) := by
      rw [← List.append_assoc, ← hsplit]
    change s.state = _
    rw [h.state, hmore, hsplit, absorb_short _ _ _ (by omega) (by omega),
      absorb_short _ _ _ (by omega) (by rw [List.length_append]; omega)]

theorem update_long (h : Sees s input) (more : List UInt8)
    (hlong : 64 - input.length % 64 ≤ more.length) :
    Sees { state := (updateLoop more.length
             (SHA256Transform s.state (overwrite s.buf (input.length % 64)
               (more.take (64 - input.length % 64)))) (more.drop (64 - input.length % 64))).1
           count := s.count + UInt64.ofNat more.length <<< 3
           buf := overwrite (overwrite s.buf (input.length % 64)
               (more.take (64 - input.length % 64))) 0
             (updateLoop more.length
               (SHA256Transform s.state (overwrite s.buf (input.length % 64)
                 (more.take (64 - input.length % 64)))) (more.drop (64 - input.length % 64))).2 }
      (input ++ more) := by
  obtain ⟨front, tail, hsplit, hfront, htail, hdrop⟩ := blocks_split input
  have hbuf := h.buf
  have htake : (more.take (64 - input.length % 64)).length = 64 - input.length % 64 := by
    rw [List.length_take]
    omega
  have hblock : overwrite s.buf (input.length % 64) (more.take (64 - input.length % 64)) =
      tail ++ more.take (64 - input.length % 64) := by
    rw [overwrite_end _ _ _ (by omega), h.block, hdrop]
  have hblock64 : (tail ++ more.take (64 - input.length % 64)).length = 64 := by
    rw [List.length_append]
    omega
  have hlen : (more.drop (64 - input.length % 64)).length =
    more.length - (64 - input.length % 64) :=
    List.length_drop
  have hall : input ++ more =
      front ++ ((tail ++ more.take (64 - input.length % 64)) ++
        more.drop (64 - input.length % 64)) := by
    rw [List.append_assoc tail, List.take_append_drop, ← List.append_assoc, ← hsplit]
  have hstate : s.state = absorb initialState front := by
    rw [h.state, hsplit, absorb_short _ _ _ (by omega) (by omega)]
  rw [updateLoop_fuel more.length _ _ (by omega), hblock, updateLoop_rest]
  have hrest : ((more.drop (64 - input.length % 64)).drop
      ((more.drop (64 - input.length % 64)).length / 64 * 64)).length =
        (input ++ more).length % 64 := by
    rw [List.length_drop, hlen, List.length_append]
    omega
  refine ⟨?_, ?_, ?_, ?_⟩
  · rw [h.count, count_append, List.length_append]
  · rw [length_overwrite _ _ _ (by omega), hblock64]
  · have hzero := take_overwrite (tail ++ more.take (64 - input.length % 64))
      ((more.drop (64 - input.length % 64)).drop
        ((more.drop (64 - input.length % 64)).length / 64 * 64)) 0 (by omega)
    rw [Nat.zero_add, List.take_zero, List.nil_append, hrest] at hzero
    have hinput : input.drop ((input.length + more.length) / 64 * 64) = [] :=
      List.drop_eq_nil_of_le (by omega)
    rw [hzero, List.drop_drop, hlen, List.length_append, List.drop_append,
      hinput, List.nil_append]
    congr 1
    omega
  · change (updateLoop _ _ _).1 = _
    rw [hall, absorb, updateLoop_append _ _ _ (by omega), updateLoop_block _ _ _ hblock64, hstate]

/-- The input may come in any pieces. -/
theorem update (h : Sees s input) (more : List UInt8) :
    Sees (Sha256.update s more) (input ++ more) := by
  rw [Sha256.update]
  split
  · have hnil : more = [] := List.eq_nil_of_length_eq_zero (by omega)
    rw [hnil, List.append_nil]
    exact h
  · rw [h.filled]
    dsimp only
    by_cases hshort : more.length < 64 - input.length % 64
    · rw [if_pos hshort]
      exact h.update_short more hshort
    · rw [if_neg hshort]
      exact h.update_long more (by omega)

/-- The last block is padded with what depends only on the input. -/
theorem pad_state (h : Sees s input) : (SHA256Pad s).state =
    if input.length % 64 < 56 then
      SHA256Transform (absorb initialState input) (input.drop (input.length / 64 * 64) ++
        PAD.take (56 - input.length % 64) ++ store64BE (UInt64.ofNat input.length <<< 3))
    else
      SHA256Transform (SHA256Transform (absorb initialState input)
        (input.drop (input.length / 64 * 64) ++ PAD.take (64 - input.length % 64)))
        (List.replicate 56 (0 : UInt8) ++ store64BE (UInt64.ofNat input.length <<< 3)) := by
  have hbuf := h.buf
  have hpad : ∀ n ≤ 64, (PAD.take n).length = n := by
    intro n hn
    rw [List.length_take]
    exact min_eq_left hn
  have hcount : ∀ w, (store64BE w).length = 8 := fun _ => rfl
  rw [SHA256Pad, h.filled]
  dsimp only
  split
  case isTrue hr =>
    have htake := take_overwrite s.buf (PAD.take (56 - input.length % 64)) (input.length % 64) (by
      rw [hpad _ (by omega)]
      omega)
    have h56 : input.length % 64 + (PAD.take (56 - input.length % 64)).length = 56 := by
      rw [hpad _ (by omega)]
      omega
    have hlen :=
      length_overwrite s.buf (PAD.take (56 - input.length % 64)) (input.length % 64) (by
      omega)
    rw [h56] at htake
    rw [overwrite_end _ _ 56 (by rw [hcount, hlen, hbuf]), htake, h.block, h.state, h.count]
  case isFalse hr =>
    have h64 : input.length % 64 + (PAD.take (64 - input.length % 64)).length = 64 := by
      rw [hpad _ (by omega)]
      omega
    have hlen :=
      length_overwrite s.buf (PAD.take (64 - input.length % 64)) (input.length % 64) (by
      omega)
    have htake := take_overwrite (overwrite s.buf (input.length % 64)
      (PAD.take (64 - input.length % 64))) (List.replicate 56 0) 0 (by
        rw [hlen, List.length_replicate]
        omega)
    have hlen' := length_overwrite (overwrite s.buf (input.length % 64)
      (PAD.take (64 - input.length % 64))) (List.replicate 56 0) 0 (by
        rw [hlen, List.length_replicate]
        omega)
    rw [Nat.zero_add, List.length_replicate, List.take_zero, List.nil_append] at htake
    dsimp only
    rw [overwrite_end _ (store64BE _) 56 (by rw [hcount, hlen', hlen, hbuf]), htake,
      overwrite_end s.buf _ _ (by rw [h64, hbuf]), h.block, h.state, h.count]

/-- A state that has seen the input gives its hash. -/
theorem final (h : Sees s input) : Sha256.final s = hash input := by
  have hfirst : Sees (Sha256.update (Sha256.init ⟨[], 0, List.replicate 64 0⟩) input) input := by
    have hinit := init ⟨[], 0, List.replicate 64 0⟩ (by rw [List.length_replicate])
    have hupdate := hinit.update input
    rwa [List.nil_append] at hupdate
  rw [hash, Sha256.final, Sha256.final, h.pad_state, hfirst.pad_state]

end Sees

theorem length_be32encVect (src : List UInt32) : (be32encVect src).length = 4 * src.length := by
  induction src with
  | nil => rfl
  | cons w src ih =>
    rw [be32encVect, List.flatMap_cons, List.length_append]
    change 4 + (be32encVect src).length = _
    rw [ih, List.length_cons]
    omega

theorem length_hash (input : List UInt8) : (hash input).length = 32 := by
  have hinit := Sees.init ⟨[], 0, List.replicate 64 0⟩ (by rw [List.length_replicate])
  have hsees := hinit.update input
  have habsorb : (absorb initialState ([] ++ input)).length = 8 := length_updateLoop _ _ _
  rw [hash, final, length_be32encVect, hsees.pad_state]
  split
  · rw [length_SHA256Transform, habsorb]
  · rw [length_SHA256Transform, length_SHA256Transform, habsorb]

end Succinct.Sha256
