import Succinct.Messages

/-!
Which frames are consumed whole. A factory reads its body from the front and
may stop before the end, at a short read or of its own accord, and the next
frame is then looked for inside this one. The bodies that each factory reads
to their last byte are described here as formats of their own.
-/
namespace Succinct.MessageFrames

open ByteBuffers Messages

/-- Links of nine bytes, or eleven with a sequence number; behind flags that
are not known, nothing may follow, and the last link may be cut where one of
its fields begins. -/
def AckBody (s : List UInt8) : Prop :=
  if s.length < 9 then s.length = 0 ∨ s.length = 8
  else if 8 ≤ (s.getD 8 0).toNat then s.length = 9
  else if (s.getD 8 0).toNat / 4 % 2 = 1 then
    s.length = 9 ∨ (s.length ≠ 10 ∧ AckBody (s.drop 11))
  else AckBody (s.drop 9)
termination_by s.length
decreasing_by all_goals (rw [List.length_drop]; omega)

def splitLong (s : List UInt8) : Option (BitVec 64 × List UInt8) :=
  match getLong s with
  | (.ok n, rest) => some (n, rest)
  | (.error _, _) => none

theorem getLongLoop_length (ret : BitVec 64) (shift : ℕ) (s : List UInt8) {n : BitVec 64}
    {rest : List UInt8} (h : getLongLoop ret shift s = (.ok n, rest)) :
    rest.length < s.length := by
  induction s generalizing ret shift with
  | nil => exact absurd (Prod.mk.inj h).1 (by simp)
  | cons val s ih =>
    rw [getLongLoop] at h
    split at h
    · rw [← (Prod.mk.inj h).2]
      exact Nat.lt_succ_self _
    · exact Nat.lt_succ_of_lt (ih _ _ h)

theorem splitLong_length {s : List UInt8} {n : BitVec 64} {rest : List UInt8}
    (h : splitLong s = some (n, rest)) : rest.length < s.length := by
  rw [splitLong] at h
  split at h
  case h_1 n' rest' hlong =>
    rw [← (Prod.mk.inj (Option.some.inj h)).2]
    exact getLongLoop_length 0 0 s hlong
  case h_2 =>
    exact absurd h (by simp)

/-- Addresses of 4 or 16 bytes, each behind its length. A length of minus one
stands for all bytes that follow, and the last length may be cut short or
have no address. -/
def StunBody (heap : Heap) (s : List UInt8) : Prop :=
  match _h : splitLong s with
  | none => True
  | some (n, rest) =>
    let length := (n.setWidth 32).toInt
    if length = REMAINING then rest.length = 4 ∨ rest.length = 16
    else if rest.length < length then rest = [] ∧ length ≤ heap.room
    else (length = 4 ∨ length = 16) ∧ StunBody heap (rest.drop length.toNat)
termination_by s.length
decreasing_by
  have := splitLong_length ‹_›
  rw [List.length_drop]
  omega

theorem stunBody_none (heap : Heap) {s : List UInt8} (h : splitLong s = none) :
    StunBody heap s := by
  rw [StunBody]
  split
  case h_1 =>
    trivial
  case h_2 hno =>
    exact absurd (h.symm.trans hno) (by simp)

theorem stunBody_some (heap : Heap) {s rest : List UInt8} {n : BitVec 64} {length : ℤ}
    (h : splitLong s = some (n, rest)) (hlength : (n.setWidth 32).toInt = length) :
    StunBody heap s ↔ if length = REMAINING then rest.length = 4 ∨ rest.length = 16
      else if rest.length < length then rest = [] ∧ length ≤ heap.room
      else (length = 4 ∨ length = 16) ∧ StunBody heap (rest.drop length.toNat) := by
  subst length
  rw [StunBody]
  cases h' : splitLong s with
  | none =>
    exact absurd (h.symm.trans h') (by simp)
  | some _ =>
    obtain ⟨rfl, rfl⟩ := Prod.mk.inj (Option.some.inj (h.symm.trans h'))
    rfl

def BodyOk (heap : Heap) : MessageType → List UInt8 → Prop
  | .headerMessage, s => s.length = 0 ∨ s.length = 8 ∨ s.length = 9 ∨ s.length = 11
  | .ackMessage, s => AckBody s
  | .storeStateMessage, s => s.length = 0 ∨ s.length = 8 ∨ s.length = 40
  | .syncMsgMessage, _ => True
  | .requestBlockMessage, _ => True
  | .fileBlockMessage, _ => True
  | .teamMessage, s => s.length = 0 ∨ s.length = 8 ∨ s.length = 16 ∨
      (24 ≤ s.length ∧ ∀ i, 24 ≤ i → i + 1 < s.length → s.getD i 0 ≠ 0)
  | .requestTeamMessage, s => s.length = 0 ∨ s.length = 8
  | .stunMessage, s => StunBody heap s

/-- Nothing is left, and no exception but the one that is caught. -/
def Whole (r : Except JavaException Message × List UInt8) : Prop :=
  r.2 = [] ∧ ∀ e, r.1 = .error e → e = .bufferUnderflow

theorem whole_ok (m : Message) (rest : List UInt8) : Whole (.ok m, rest) ↔ rest.length = 0 := by
  rw [Whole, List.length_eq_zero_iff]
  exact ⟨fun h => h.1, fun h => ⟨h, fun e he => absurd he (by simp)⟩⟩

theorem whole_underflow (rest : List UInt8) :
    Whole (.error .bufferUnderflow, rest) ↔ rest.length = 0 := by
  rw [Whole, List.length_eq_zero_iff]
  exact ⟨fun h => h.1, fun h => ⟨h, fun e he => (Except.error.inj he).symm⟩⟩

theorem not_whole {e : JavaException} (he : e ≠ .bufferUnderflow) (rest : List UInt8) :
    ¬ Whole (.error e, rest) := fun h => he (h.2 e rfl)

section Readers

variable {α β : Type} {x : Reader α} {f : α → Reader β} {s rest : List UInt8}

theorem bind_ok {a : α} (h : x s = (.ok a, rest)) : (x >>= f) s = f a rest := by
  simp only [bind, h]

theorem bind_error {e : JavaException} (h : x s = (.error e, rest)) :
    (x >>= f) s = (.error e, rest) := by
  simp only [bind, h]

theorem getRaw_ok {n : ℕ} (h : n ≤ s.length) : getRaw n s = (.ok (s.take n), s.drop n) := if_pos h

theorem getRaw_short {n : ℕ} (h : s.length < n) : getRaw n s = (.error .bufferUnderflow, s) :=
  if_neg (Nat.not_le.mpr h)

theorem getFixedBytes_nat (heap : Heap) {n : ℕ} (hn : n ≤ heap.room) (s : List UInt8) :
    getFixedBytes heap n s = getRaw n s := by
  have hne : ¬ (n : ℤ) = REMAINING := by
    change ¬ (n : ℤ) = -1
    omega
  have hnew : newArray heap n = pure n := by
    rw [newArray, if_neg (by omega), if_neg (by omega), Int.toNat_natCast]
  rw [getFixedBytes, if_neg hne, hnew]
  exact bind_ok rfl

theorem getFixedBytes_remaining (heap : Heap) (hs : s.length ≤ heap.room) :
    getFixedBytes heap REMAINING s = (.ok s, []) := by
  have hraw := getFixedBytes_nat heap hs s
  have hne : ¬ ((s.length : ℕ) : ℤ) = REMAINING := by
    change ¬ ((s.length : ℕ) : ℤ) = -1
    omega
  rw [getFixedBytes, if_neg hne] at hraw
  rw [getFixedBytes, if_pos rfl, hraw, getRaw_ok (Nat.le_refl _),
    List.take_length, List.drop_length]

theorem getFixedBytes_neg (heap : Heap) {length : ℤ} (hne : length ≠ REMAINING) (h : length < 0) :
    getFixedBytes heap length s = (.error .negativeArraySize, s) := by
  rw [getFixedBytes, if_neg hne, newArray, if_pos h]
  rfl

theorem getFixedBytes_large (heap : Heap) {length : ℤ} (h : heap.room < length) :
    getFixedBytes heap length s = (.error .outOfMemory, s) := by
  have hne : length ≠ REMAINING := by
    change length ≠ -1
    omega
  rw [getFixedBytes, if_neg hne, newArray, if_neg (by omega), if_pos h]
  rfl

theorem getByte_ok (h : 1 ≤ s.length) : getByte s = (.ok (s.getD 0 0), s.drop 1) := by
  have hbind : getByte s = _ := bind_ok (getRaw_ok h)
  rw [hbind]
  have hget : (s.take 1).getD 0 0 = s.getD 0 0 := by
    cases s with
    | nil => rfl
    | cons b s => rfl
  rw [← hget]
  rfl

theorem getByte_short (h : s.length < 1) : getByte s = (.error .bufferUnderflow, s) :=
  bind_error (getRaw_short h)

theorem getShort_ok (h : 2 ≤ s.length) : getShort s = (.ok (ofBigEndian (s.take 2)), s.drop 2) :=
  bind_ok (getRaw_ok h)

theorem getShort_short (h : s.length < 2) : getShort s = (.error .bufferUnderflow, s) :=
  bind_error (getRaw_short h)

theorem getId_ok (heap : Heap) (h : 8 ≤ s.length) :
    getId heap s = (.ok (fun i => (s.take 8).getD i.val 0), s.drop 8) := by
  have hroom := heap.room_ge
  have hfixed : getFixedBytes heap 8 s = (.ok (s.take 8), s.drop 8) :=
    (getFixedBytes_nat heap (n := 8) (by omega) s).trans (getRaw_ok h)
  exact bind_ok hfixed

theorem getId_short (heap : Heap) (h : s.length < 8) :
    getId heap s = (.error .bufferUnderflow, s) := by
  have hroom := heap.room_ge
  have hfixed : getFixedBytes heap 8 s = (.error .bufferUnderflow, s) :=
    (getFixedBytes_nat heap (n := 8) (by omega) s).trans (getRaw_short h)
  exact bind_error hfixed

/-- A loop or a factory asks whether bytes remain. -/
theorem bind_hasRemaining_pos {x y : Reader α} (h : 1 ≤ s.length) :
    (hasRemaining >>= fun b => if b = true then x else y) s = x s := by
  have hne : (!s.isEmpty) = true := by
    cases s with
    | nil => exact absurd h (by simp)
    | cons b s => rfl
  change (if (!s.isEmpty) = true then x else y) s = x s
  rw [if_pos hne]

theorem bind_hasRemaining_neg {x y : Reader α} (h : s.length = 0) :
    (hasRemaining >>= fun b => if b = true then x else y) s = y s := by
  rw [List.length_eq_zero_iff.mp h]
  rfl

theorem getLongLoop_spec (ret : BitVec 64) (shift : ℕ) (s : List UInt8) :
    getLongLoop ret shift s = (.error .bufferUnderflow, []) ∨
      ∃ n rest, getLongLoop ret shift s = (.ok n, rest) := by
  induction s generalizing ret shift with
  | nil => exact Or.inl rfl
  | cons val s ih =>
    rw [getLongLoop]
    split
    · exact Or.inr ⟨_, _, rfl⟩
    · exact ih _ _

/-- A number is cut short only by the end of the bytes. -/
theorem getLong_spec (s : List UInt8) :
    (splitLong s = none ∧ getLong s = (.error .bufferUnderflow, [])) ∨
      ∃ n rest, splitLong s = some (n, rest) ∧ getLong s = (.ok n, rest) := by
  rcases getLongLoop_spec 0 0 s with h | ⟨n, rest, h⟩
  · left
    have hlong : getLong s = (.error .bufferUnderflow, []) := h
    exact ⟨by rw [splitLong, hlong], hlong⟩
  · right
    have hlong : getLong s = (.ok n, rest) := h
    exact ⟨n, rest, by rw [splitLong, hlong], hlong⟩

theorem getString_spec (heap : Heap) (hs : s.length ≤ heap.room) :
    getString heap s = (.ok (s.takeWhile (· ≠ 0)), (s.dropWhile (· ≠ 0)).drop 1) := by
  have hlen := (s.takeWhile_sublist (· ≠ 0)).length_le
  have hfixed : getFixedBytes heap (s.takeWhile (· ≠ 0)).length s =
      (.ok (s.takeWhile (· ≠ 0)), s.dropWhile (· ≠ 0)) := by
    rw [getFixedBytes_nat heap (by omega), getRaw_ok hlen]
    have happ := s.takeWhile_append_dropWhile (p := (· ≠ 0))
    have htake : (s.takeWhile (· ≠ 0) ++ s.dropWhile (· ≠ 0)).take (s.takeWhile (· ≠ 0)).length =
        s.takeWhile (· ≠ 0) := List.take_left
    have hdrop : (s.takeWhile (· ≠ 0) ++ s.dropWhile (· ≠ 0)).drop (s.takeWhile (· ≠ 0)).length =
        s.dropWhile (· ≠ 0) := List.drop_left
    rw [happ] at htake hdrop
    rw [htake, hdrop]
  have h0 : getString heap s = _ := bind_ok hfixed
  rw [h0]
  by_cases hend : 1 ≤ (s.dropWhile (· ≠ 0)).length
  · rw [bind_hasRemaining_pos hend]
    exact bind_ok (getByte_ok hend)
  · rw [bind_hasRemaining_neg (by omega), List.drop_of_length_le (by omega : _ ≤ 1)]
    rw [List.eq_nil_of_length_eq_zero (by omega : (s.dropWhile (· ≠ 0)).length = 0)]
    rfl

end Readers

section Bodies

variable (heap : Heap) (s : List UInt8)

theorem whole_header : Whole (createHeader heap s) ↔ BodyOk heap .headerMessage s := by
  rw [BodyOk]
  by_cases hid : 8 ≤ s.length
  · have h0 : createHeader heap s = _ := bind_ok (getId_ok heap hid)
    rw [h0]
    by_cases hflags : 9 ≤ s.length
    · rw [bind_ok (getByte_ok (by rw [List.length_drop]; omega))]
      have hlen : ((s.drop 8).drop 1).length = s.length - 9 := by
        simp only [List.length_drop]
        omega
      by_cases hseq : 1 ≤ ((s.drop 8).drop 1).length
      · rw [bind_hasRemaining_pos hseq]
        by_cases hshort : ((s.drop 8).drop 1).length < 2
        · rw [bind_error (getShort_short hshort), whole_underflow]
          omega
        · rw [bind_ok (getShort_ok (by omega))]
          change Whole (.ok _, _) ↔ _
          rw [whole_ok, List.length_drop]
          omega
      · rw [bind_hasRemaining_neg (by omega)]
        change Whole (.ok _, _) ↔ _
        rw [whole_ok]
        omega
    · rw [bind_error (getByte_short (by rw [List.length_drop]; omega)), whole_underflow,
        List.length_drop]
      omega
  · have h0 : createHeader heap s = _ := bind_error (getId_short heap (by omega))
    rw [h0, whole_underflow]
    omega

omit s in
theorem whole_ackLoop (fuel : ℕ) (links : List LinkAck) (s : List UInt8)
    (hfuel : s.length < fuel) :
    Whole (ackLoop heap fuel links s) ↔ AckBody s := by
  induction fuel generalizing links s with
  | zero => omega
  | succ fuel ih =>
    rw [AckBody]
    by_cases hany : s.length = 0
    · have h0 : ackLoop heap (fuel + 1) links s = (.ok (.ack links), s) :=
        bind_hasRemaining_neg hany
      rw [h0, whole_ok, if_pos (by omega)]
      omega
    · have h0 : ackLoop heap (fuel + 1) links s = _ := bind_hasRemaining_pos (by omega)
      rw [h0]
      by_cases hid : 8 ≤ s.length
      · have hlen := List.length_drop (i := 8) (l := s)
        rw [bind_ok (getId_ok heap hid)]
        by_cases hflags : 1 ≤ (s.drop 8).length
        · have hget : (s.drop 8).getD 0 0 = s.getD 8 0 := by
            simp only [List.getD_eq_getElem?_getD, List.getElem?_drop]
          have hdrop : (s.drop 8).drop 1 = s.drop 9 := List.drop_drop
          have hlen9 := List.length_drop (i := 9) (l := s)
          rw [bind_ok (getByte_ok hflags), hget, hdrop, if_neg (by omega : ¬ s.length < 9)]
          by_cases hbad : 8 ≤ (s.getD 8 0).toNat
          · rw [if_pos hbad, if_pos hbad]
            change Whole (.ok _, _) ↔ _
            rw [whole_ok]
            omega
          · rw [if_neg hbad, if_neg hbad]
            by_cases hseq : (s.getD 8 0).toNat / 4 % 2 = 1
            · rw [if_pos hseq, if_pos hseq]
              by_cases hshort : (s.drop 9).length < 2
              · rw [bind_error (getShort_short hshort), whole_underflow]
                have hcut : s.length ≠ 10 ∧ AckBody (s.drop 11) → s.length = 9 := by
                  rintro ⟨hne, -⟩
                  omega
                constructor
                · intro h
                  exact Or.inl (by omega)
                · rintro (h | h)
                  · omega
                  · have := hcut h
                    omega
              · have hdrop' : (s.drop 9).drop 2 = s.drop 11 := List.drop_drop
                rw [bind_ok (getShort_ok (by omega)), hdrop',
                  ih _ _ (by rw [List.length_drop]; omega)]
                constructor
                · exact fun h => Or.inr ⟨by omega, h⟩
                · rintro (h | h)
                  · omega
                  · exact h.2
            · rw [if_neg hseq, if_neg hseq]
              exact ih _ _ (by omega)
        · rw [bind_error (getByte_short (by omega)), whole_underflow, if_pos (by omega)]
          omega
      · rw [bind_error (getId_short heap (by omega)), whole_underflow, if_pos (by omega)]
        omega

theorem whole_ack : Whole (createAck heap s) ↔ BodyOk heap .ackMessage s :=
  whole_ackLoop heap (s.length + 1) [] s (Nat.lt_succ_self _)

theorem whole_storeState : Whole (createStoreState heap s) ↔
    BodyOk heap .storeStateMessage s := by
  have hroom := heap.room_ge
  rw [BodyOk]
  by_cases hid : 8 ≤ s.length
  · have h0 : createStoreState heap s = _ := bind_ok (getId_ok heap hid)
    rw [h0]
    have hkey : getFixedBytes heap 32 (s.drop 8) = getRaw 32 (s.drop 8) :=
      getFixedBytes_nat heap (n := 32) (by omega) _
    have hlen := List.length_drop (i := 8) (l := s)
    by_cases hshort : (s.drop 8).length < 32
    · rw [bind_error (hkey.trans (getRaw_short hshort)), whole_underflow]
      omega
    · rw [bind_ok (hkey.trans (getRaw_ok (by omega)))]
      change Whole (.ok _, _) ↔ _
      rw [whole_ok, List.length_drop]
      omega
  · have h0 : createStoreState heap s = _ := bind_error (getId_short heap (by omega))
    rw [h0, whole_underflow]
    omega

theorem whole_requestTeam :
    Whole (createRequestTeam heap s) ↔ BodyOk heap .requestTeamMessage s := by
  rw [BodyOk]
  by_cases hid : 8 ≤ s.length
  · have h0 : createRequestTeam heap s = _ := bind_ok (getId_ok heap hid)
    rw [h0]
    change Whole (.ok _, _) ↔ _
    rw [whole_ok, List.length_drop]
    omega
  · have h0 : createRequestTeam heap s = _ := bind_error (getId_short heap (by omega))
    rw [h0, whole_underflow]
    omega

variable (hs : s.length ≤ heap.room)

include hs

theorem whole_syncMsg : Whole (createSyncMsg heap s) := by
  have h0 : createSyncMsg heap s = _ := bind_ok (getFixedBytes_remaining heap hs)
  rw [h0]
  exact (whole_ok _ _).mpr rfl

theorem whole_fileTail {f : BitVec 64 → List UInt8 → Message} : Whole ((do
    let offset ← getLong
    let data ← getFixedBytes heap REMAINING
    return f offset data) s) := by
  rcases getLong_spec s with ⟨-, hcut⟩ | ⟨n, rest, hsplit, hlong⟩
  · rw [bind_error hcut]
    exact (whole_underflow _).mpr rfl
  · have hlen := splitLong_length hsplit
    rw [bind_ok hlong, bind_ok (getFixedBytes_remaining heap (by omega))]
    exact (whole_ok _ _).mpr rfl

theorem whole_requestBlock : Whole (createRequestBlock heap s) := by
  rcases getLong_spec s with ⟨-, hcut⟩ | ⟨n, rest, hsplit, hlong⟩
  · have h0 : createRequestBlock heap s = _ := bind_error hcut
    rw [h0]
    exact (whole_underflow _).mpr rfl
  · have hlen := splitLong_length hsplit
    have h0 : createRequestBlock heap s = _ := bind_ok hlong
    rw [h0]
    exact whole_fileTail heap rest (by omega) (f := fun length filename =>
      .requestBlock filename n length)

theorem whole_fileBlock : Whole (createFileBlock heap s) := by
  have h0 : createFileBlock heap s = _ := bind_ok (getString_spec heap hs)
  have hlen := (s.dropWhile_suffix (· ≠ 0)).length_le
  rw [h0]
  exact whole_fileTail heap _ (by rw [List.length_drop]; omega)

/-- A name is read to the end unless a zero stands before the last byte. -/
theorem whole_name {f : List UInt8 → Message} : Whole ((do
    let name ← getString heap
    return f name) s) ↔ ∀ i, i + 1 < s.length → s.getD i 0 ≠ 0 := by
  rw [bind_ok (getString_spec heap hs)]
  change Whole (.ok _, _) ↔ _
  rw [whole_ok, List.length_drop]
  clear hs
  induction s with
  | nil => simp
  | cons b s ih =>
    by_cases hb : b = 0
    · rw [List.dropWhile_cons_of_neg (by simp [hb])]
      simp only [List.length_cons]
      constructor
      · intro h i hi
        omega
      · intro h
        by_contra hne
        exact h 0 (by omega) (by simp [hb])
    · rw [List.dropWhile_cons_of_pos (by simp [hb]), ih]
      simp only [List.length_cons]
      constructor
      · intro h i hi
        cases i with
        | zero => simpa using hb
        | succ i => exact h i (by omega)
      · intro h i hi
        exact h (i + 1) (by omega)

omit hs s in
theorem getByAddress_spec (addr : List UInt8) :
    (∃ address, getByAddress addr = some address) ↔ addr.length = 4 ∨ addr.length = 16 := by
  rw [getByAddress]
  split
  case isTrue h =>
    exact ⟨fun _ => Or.inl h, fun _ => ⟨_, rfl⟩⟩
  case isFalse hfour =>
    split
    case isTrue h =>
      refine ⟨fun _ => Or.inr h, fun _ => ?_⟩
      split
      · exact ⟨_, rfl⟩
      · exact ⟨_, rfl⟩
    case isFalse hsixteen =>
      exact ⟨fun hno => absurd hno.choose_spec (by simp), fun hno => absurd hno (by omega)⟩

omit hs s in
/-- One address is taken, and the loop goes on behind it. -/
theorem whole_address {fuel : ℕ} {addresses : List InetAddress} {s bytes rest : List UInt8}
    {Q : Prop} (hbytes : getBytes heap s = (.ok bytes, rest)) (hs : 1 ≤ s.length)
    (hnext : ∀ addresses, Whole (stunLoop heap fuel addresses rest) ↔ Q) :
    Whole (stunLoop heap (fuel + 1) addresses s) ↔
    (bytes.length = 4 ∨ bytes.length = 16) ∧ Q := by
  have h0 : stunLoop heap (fuel + 1) addresses s = _ := bind_hasRemaining_pos hs
  rw [h0, bind_ok hbytes]
  cases haddr : getByAddress bytes with
  | none =>
    have hbad : ¬ (bytes.length = 4 ∨ bytes.length = 16) := by
      intro h
      obtain ⟨address, h⟩ := (getByAddress_spec bytes).mpr h
      rw [haddr] at h
      exact absurd h (by simp)
    exact ⟨fun h => absurd h (not_whole (by simp) _), fun h => absurd h.1 hbad⟩
  | some address =>
    have hgood := (getByAddress_spec bytes).mp ⟨address, haddr⟩
    simp only
    rw [hnext]
    exact ⟨fun h => ⟨hgood, h⟩, fun h => h.2⟩

omit hs s in
theorem stunLoop_error {fuel : ℕ} {addresses : List InetAddress} {s rest : List UInt8}
    {e : JavaException} (hbytes : getBytes heap s = (.error e, rest)) (hs : 1 ≤ s.length) :
    stunLoop heap (fuel + 1) addresses s = (.error e, rest) := by
  have h0 : stunLoop heap (fuel + 1) addresses s = _ := bind_hasRemaining_pos hs
  rw [h0]
  exact bind_error hbytes

omit hs s in
theorem whole_stunLoop (fuel : ℕ) (addresses : List InetAddress) (s : List UInt8)
    (hfuel : s.length < fuel) (hs : s.length ≤ heap.room) :
    Whole (stunLoop heap fuel addresses s) ↔ StunBody heap s := by
  induction fuel generalizing addresses s with
  | zero => omega
  | succ fuel ih =>
    by_cases hany : s.length = 0
    · have h0 : stunLoop heap (fuel + 1) addresses s = (.ok (.stun addresses), s) :=
        bind_hasRemaining_neg hany
      rw [h0, whole_ok, List.length_eq_zero_iff.mp hany]
      exact ⟨fun _ => stunBody_none heap rfl, fun _ => rfl⟩
    · rcases getLong_spec s with ⟨hsplit, hcut⟩ | ⟨n, rest, hsplit, hlong⟩
      · rw [stunLoop_error heap (bind_error hcut) (by omega), whole_underflow]
        exact ⟨fun _ => stunBody_none heap hsplit, fun _ => rfl⟩
      · have hlen := splitLong_length hsplit
        generalize hlength : (n.setWidth 32).toInt = length
        have hbytes : getBytes heap s = getFixedBytes heap length rest := by
          have hbind : getBytes heap s = _ := bind_ok hlong
          rw [hbind, hlength]
        rw [stunBody_some heap hsplit hlength]
        by_cases hall : length = REMAINING
        · rw [if_pos hall]
          rw [hall, getFixedBytes_remaining heap (by omega)] at hbytes
          rw [whole_address heap hbytes (by omega) (Q := True) (fun addresses => by
            rw [ih addresses [] (by simp; omega) (Nat.zero_le _)]
            exact iff_true_intro (stunBody_none heap rfl))]
          rw [and_true]
        · rw [if_neg hall]
          by_cases hneg : length < 0
          · rw [getFixedBytes_neg heap hall hneg] at hbytes
            rw [stunLoop_error heap hbytes (by omega), if_neg (by omega)]
            exact ⟨fun h => absurd h (not_whole (by simp) _), fun h => absurd h.1 (by omega)⟩
          · by_cases hlarge : heap.room < length
            · rw [getFixedBytes_large heap hlarge] at hbytes
              rw [stunLoop_error heap hbytes (by omega), if_pos (by omega)]
              exact ⟨fun h => absurd h (not_whole (by simp) _), fun h => absurd h.2 (by omega)⟩
            · obtain ⟨k, rfl⟩ := Int.eq_ofNat_of_zero_le (Int.not_lt.mp hneg)
              rw [getFixedBytes_nat heap (by omega)] at hbytes
              by_cases hshort : rest.length < k
              · rw [getRaw_short hshort] at hbytes
                rw [stunLoop_error heap hbytes (by omega), whole_underflow,
                  if_pos (by exact_mod_cast hshort), List.length_eq_zero_iff]
                exact ⟨fun h => ⟨h, by omega⟩, fun h => h.1⟩
              · rw [getRaw_ok (by omega)] at hbytes
                rw [if_neg (by omega), Int.toNat_natCast, whole_address heap hbytes (by omega)
                  (fun addresses => ih addresses (rest.drop k) (by rw [List.length_drop]; omega)
                    (by rw [List.length_drop]; omega)), List.length_take,
                  Nat.min_eq_left (by omega)]
                norm_cast

theorem whole_stun : Whole (createStun heap s) ↔ BodyOk heap .stunMessage s :=
  whole_stunLoop heap (s.length + 1) [] s (Nat.lt_succ_self _) hs

theorem whole_team : Whole (createTeam heap s) ↔ BodyOk heap .teamMessage s := by
  have hroom := heap.room_ge
  rw [BodyOk]
  by_cases hepoc : 8 ≤ s.length
  · have h0 : createTeam heap s = _ := bind_ok (bind_ok (getRaw_ok hepoc))
    rw [h0]
    have hlen := List.length_drop (i := 8) (l := s)
    by_cases hclosed : (s.drop 8).length = 0
    · rw [bind_hasRemaining_neg hclosed]
      change Whole (.ok _, _) ↔ _
      rw [whole_ok]
      omega
    · rw [bind_hasRemaining_pos (by omega)]
      by_cases hid : 8 ≤ (s.drop 8).length
      · rw [bind_ok (getId_ok heap hid)]
        have hlen' : ((s.drop 8).drop 8).length = s.length - 16 := by
          rw [List.length_drop, hlen]
          omega
        by_cases hleader : 8 ≤ ((s.drop 8).drop 8).length
        · rw [bind_ok (getId_ok heap hleader), whole_name heap _ (by simp; omega)]
          have hget : ∀ i, (((s.drop 8).drop 8).drop 8).getD i 0 = s.getD (24 + i) 0 := by
            intro i
            simp only [List.drop_drop, List.getD_eq_getElem?_getD, List.getElem?_drop]
          have hlen'' : (((s.drop 8).drop 8).drop 8).length = s.length - 24 := by
            rw [List.length_drop, hlen']
            omega
          simp only [hget, hlen'']
          constructor
          · intro h
            refine Or.inr (Or.inr (Or.inr ⟨by omega, ?_⟩))
            intro i hi hlt
            have hi' := h (i - 24) (by omega)
            rwa [show 24 + (i - 24) = i by omega] at hi'
          · rintro (h | h | h | ⟨-, h⟩)
            · omega
            · omega
            · omega
            · exact fun i hi => h (24 + i) (by omega) (by omega)
        · rw [bind_error (getId_short heap (by omega)), whole_underflow]
          omega
      · rw [bind_error (getId_short heap (by omega)), whole_underflow]
        omega
  · have h0 : createTeam heap s = _ := bind_error (bind_error (getRaw_short (by omega)))
    rw [h0, whole_underflow]
    omega

/-- The formats say exactly which bodies are read to their end. -/
theorem whole_iff (type : MessageType) : Whole (create heap type s) ↔ BodyOk heap type s := by
  cases type with
  | headerMessage => exact whole_header heap s
  | ackMessage => exact whole_ack heap s
  | storeStateMessage => exact whole_storeState heap s
  | syncMsgMessage => exact iff_of_true (whole_syncMsg heap s hs) trivial
  | requestBlockMessage => exact iff_of_true (whole_requestBlock heap s hs) trivial
  | fileBlockMessage => exact iff_of_true (whole_fileBlock heap s hs) trivial
  | teamMessage => exact whole_team heap s hs
  | requestTeamMessage => exact whole_requestTeam heap s
  | stunMessage => exact whole_stun heap s hs

end Bodies

def frameLength (s : List UInt8) : ℕ := 3 + ofBigEndian ((s.drop 1).take 2)

def frameType (s : List UInt8) : MessageType := types.getD (s.getD 0 0).toNat .stunMessage

def frameBody (s : List UInt8) : List UInt8 := (s.drop 3).take (frameLength s - 3)

/-- The outcome of parse_message is null, with the position unchanged for
lack of bytes, or exactly one frame is consumed; no exception is thrown. -/
def Framed (heap : Heap) (buff : ByteBuffer) : Prop :=
  ∃ m after, parseMessage heap buff = (.ok m, after) ∧ after.bytes = buff.bytes ∧
    after.limit = buff.limit ∧
    ((m = none ∧ after.position = buff.position ∧
        (buff.remaining < 3 ∨ buff.remaining < frameLength buff.slice)) ∨
      (3 ≤ buff.remaining ∧ frameLength buff.slice ≤ buff.remaining ∧
        after.position = buff.position + frameLength buff.slice))

def readsNothing : MessageType → Bool
  | .ackMessage => true
  | .syncMsgMessage => true
  | .stunMessage => true
  | _ => false

/-- A known type, and a body in the format of its type unless more bytes are
to come. Lengths from 0x8000 on are taken for negative ones, and of these
only minus three leads back to where the frame began. -/
def WellFramed (heap : Heap) (s : List UInt8) : Prop :=
  s.length < 3 ∨ ((s.getD 0 0).toNat < types.length ∧
    ((frameLength s < 3 + 0x8000 ∧
        (s.length < frameLength s ∨ BodyOk heap (frameType s) (frameBody s))) ∨
      (frameLength s = 3 + 0xfffd ∧ s.length < frameLength s ∧
        readsNothing (frameType s) = false)))

section Parsing

variable (heap : Heap) (buff : ByteBuffer)

theorem length_slice : buff.slice.length = buff.remaining := by
  have hpos := buff.position_le
  have hlim := buff.limit_le
  have hrem : buff.remaining = buff.limit - buff.position := rfl
  rw [ByteBuffer.slice, List.length_take, List.length_drop]
  omega

/-- Without any bytes a factory reads none, or meets their end. -/
theorem create_nil (type : MessageType) :
    ∃ m, create heap type [] = (m, []) ∧ (readsNothing type = true → ∃ msg, m = .ok msg) ∧
      (readsNothing type = false → m = .error .bufferUnderflow) := by
  have hid : getId heap [] = (.error .bufferUnderflow, []) := getId_short heap (by simp)
  have hnull : ∀ {type : MessageType}, readsNothing type = false →
      create heap type [] = (.error .bufferUnderflow, []) →
      ∃ m, create heap type [] = (m, []) ∧ (readsNothing type = true → ∃ msg, m = .ok msg) ∧
        (readsNothing type = false → m = .error .bufferUnderflow) := by
    intro type hreads hcreate
    exact ⟨_, hcreate, fun h => absurd (hreads.symm.trans h) (by simp), fun _ => rfl⟩
  cases type with
  | headerMessage => exact hnull rfl (bind_error hid)
  | ackMessage => exact ⟨_, rfl, fun _ => ⟨_, rfl⟩, fun h => absurd h (by simp [readsNothing])⟩
  | storeStateMessage => exact hnull rfl (bind_error hid)
  | syncMsgMessage =>
    exact ⟨_, bind_ok (getFixedBytes_remaining heap (Nat.zero_le _)), fun _ => ⟨_, rfl⟩,
      fun h => absurd h (by simp [readsNothing])⟩
  | requestBlockMessage => exact hnull rfl rfl
  | fileBlockMessage =>
    have hname : create heap .fileBlockMessage [] = _ :=
      bind_ok (getString_spec heap (s := []) (Nat.zero_le _))
    exact hnull rfl (hname.trans rfl)
  | teamMessage => exact hnull rfl (bind_error (bind_error (getRaw_short (by simp))))
  | requestTeamMessage => exact hnull rfl (bind_error hid)
  | stunMessage => exact ⟨_, rfl, fun _ => ⟨_, rfl⟩, fun h => absurd h (by simp [readsNothing])⟩

/-- A body whose bytes are all there. -/
theorem parseBody_nonneg (type : MessageType) (len : ℕ) (hlen : len ≤ buff.remaining) :
    ∃ after, parseBody heap type len buff =
      (caught (create heap type (buff.slice.take len)).1, after) ∧
      after.bytes = buff.bytes ∧ after.limit = buff.limit ∧
      after.position = buff.position + len -
        (create heap type (buff.slice.take len)).2.length := by
  have hpos := buff.position_le
  have hlim := buff.limit_le
  have hrem : buff.remaining = buff.limit - buff.position := rfl
  obtain ⟨body, hbody, hbytes, hposition, hlimit, -⟩ := buff.setLimit_spec (buff.position + len)
    (Nat.le_add_right _ _) (by change _ ≤ buff.bytes.length; omega)
  have hslice : body.slice = buff.slice.take len := by
    have hlen' : body.remaining = len := by
      change body.limit - body.position = len
      omega
    rw [ByteBuffer.slice, ByteBuffer.slice, hlen', hbytes, hposition, List.take_take,
      Nat.min_eq_left hlen]
  rw [parseBody]
  push_cast at hbody
  rw [hbody]
  simp only [hslice]
  generalize create heap type (buff.slice.take len) = r
  obtain ⟨after, hafter, hbytes', hposition', hlimit', -⟩ :=
    (body.leaving r.2.length).setLimit_spec buff.limit
      (by change body.limit - r.2.length ≤ _; omega)
      (by change _ ≤ body.bytes.length; rw [hbytes]; omega)
  rw [hafter, Option.getD_some]
  refine ⟨after, rfl, hbytes'.trans hbytes, hlimit', ?_⟩
  rw [hposition']
  change body.limit - r.2.length = _
  rw [hlimit]

/-- A negative length moves the position back, or is refused. -/
theorem parseBody_neg (type : MessageType) (n : ℕ) (hn : 0 < n) :
    (buff.position < n ∧ ∃ after,
      parseBody heap type (-n) buff = (.error .illegalArgument, after)) ∨
      (n ≤ buff.position ∧ ∃ after,
        parseBody heap type (-n) buff = (caught (create heap type []).1, after) ∧
        after.bytes = buff.bytes ∧ after.limit = buff.limit ∧
        after.position = buff.position - n) := by
  have hpos := buff.position_le
  have hlim := buff.limit_le
  by_cases hback : buff.position < n
  · left
    refine ⟨hback, buff, ?_⟩
    have hnone : buff.setLimit (buff.position + -(n : ℤ)) = none := dif_neg (by omega)
    rw [parseBody, hnone]
  · right
    have hlow : buff.position + -(n : ℤ) = ((buff.position - n : ℕ) : ℤ) := by omega
    obtain ⟨body, hbody, hbytes, hposition, hlimit⟩ : ∃ body,
        buff.setLimit (buff.position + -(n : ℤ)) = some body ∧ body.bytes = buff.bytes ∧
        body.position = buff.position - n ∧ body.limit = buff.position - n := by
      rw [hlow]
      refine ⟨_, dif_pos ⟨by omega, by omega⟩, rfl, ?_, Int.toNat_natCast _⟩
      simp only [Int.toNat_natCast]
      omega
    have hslice : body.slice = [] := by
      apply List.eq_nil_of_length_eq_zero
      rw [length_slice]
      change body.limit - body.position = 0
      omega
    obtain ⟨m, hcreate, -⟩ := create_nil heap type
    obtain ⟨after, hafter, hbytes', hposition', hlimit', -⟩ :=
      (body.leaving 0).setLimit_spec buff.limit
        (by change body.limit - 0 ≤ _; omega)
        (by change _ ≤ body.bytes.length; rw [hbytes]; omega)
    refine ⟨by omega, after, ?_, hbytes'.trans hbytes, hlimit', ?_⟩
    · rw [parseBody, hbody]
      simp only [hslice, hcreate, List.length_nil, hafter, Option.getD_some]
    · rw [hposition']
      change body.limit - 0 = _
      omega

theorem ofBigEndian_two_lt (s : List UInt8) : ofBigEndian (s.take 2) < 0x10000 := by
  have hlength : (s.take 2).length ≤ 2 := List.length_take_le 2 s
  exact (ofBigEndian_lt (s.take 2)).trans_le (Nat.pow_le_pow_right (by decide) hlength)

/-- The type is read. -/
theorem parseMessage_type (h : 3 ≤ buff.remaining) :
    ∃ after, after.bytes = buff.bytes ∧ after.limit = buff.limit ∧
      after.position = buff.position + 1 ∧ after.mark = some buff.position ∧
      parseMessage heap buff =
        if types.length ≤ asByte (buff.slice.getD 0 0) then (.ok none, after)
        else if asByte (buff.slice.getD 0 0) < 0 then (.error .arrayIndexOutOfBounds, after)
        else match after.getShort with
          | none => (.error .bufferUnderflow, after)
          | some (len, buff') =>
            if asShort len > buff'.remaining then (.ok none, buff'.reset.getD buff')
            else parseBody heap (types.getD (asByte (buff.slice.getD 0 0)).toNat .stunMessage)
              (asShort len) buff' := by
  obtain ⟨after, hget, hbytes, hposition, hlimit, hmark⟩ := buff.setMark.get_spec 1
    (by change 1 ≤ buff.remaining; omega)
  refine ⟨after, hbytes, hlimit, hposition, hmark, ?_⟩
  have hbyte : (((buff.setMark.bytes.drop buff.setMark.position).take 1).getD 0 0) =
      buff.slice.getD 0 0 := by
    change ((buff.bytes.drop buff.position).take 1).getD 0 0 =
      ((buff.bytes.drop buff.position).take buff.remaining).getD 0 0
    simp only [List.getD_eq_getElem?_getD, List.getElem?_take]
    rw [if_pos (by omega), if_pos (by omega)]
  rw [parseMessage, if_neg (by omega), hget]
  dsimp only
  rewrite [hbyte]
  rfl

/-- The length is read. -/
theorem parseMessage_length (h : 3 ≤ buff.remaining)
    (htype : (buff.slice.getD 0 0).toNat < types.length) :
    ∃ after, after.bytes = buff.bytes ∧ after.limit = buff.limit ∧
      after.position = buff.position + 3 ∧ after.mark = some buff.position ∧
      parseMessage heap buff =
        if asShort (frameLength buff.slice - 3) > after.remaining then
          (.ok none, after.reset.getD after)
        else parseBody heap (frameType buff.slice)
          (asShort (frameLength buff.slice - 3)) after := by
  have hlim := buff.limit_le
  have hrem : buff.remaining = buff.limit - buff.position := rfl
  have hnine : types.length = 9 := rfl
  obtain ⟨mid, hbytes, hlimit, hposition, hmark, hparse⟩ := parseMessage_type heap buff h
  have hsigned : asByte (buff.slice.getD 0 0) = (buff.slice.getD 0 0).toNat := if_pos (by omega)
  obtain ⟨after, hget, hbytes', hposition', hlimit', hmark'⟩ := mid.get_spec 2
    (by change 2 ≤ mid.limit - mid.position; omega)
  refine ⟨after, hbytes'.trans hbytes, hlimit'.trans hlimit, by omega, hmark'.trans hmark, ?_⟩
  have htwo : (mid.bytes.drop mid.position).take 2 = (buff.slice.drop 1).take 2 := by
    rw [hbytes, hposition, ByteBuffer.slice, List.drop_take, List.take_take, List.drop_drop,
      Nat.min_eq_left (by omega)]
  have hshort : mid.getShort = some (frameLength buff.slice - 3, after) := by
    rw [ByteBuffer.getShort, hget, Option.map_some, htwo, frameLength, Nat.add_sub_cancel_left]
  rw [hparse, hsigned, if_neg (by omega), if_neg (by omega), hshort]
  simp only [Int.toNat_natCast]
  rfl

/-- A known outcome is framed when it leaves the buffer as it was, or takes the frame. -/
theorem framed_iff_of_parse {r : Except JavaException (Option Message)} {after : ByteBuffer}
    (hparse : parseMessage heap buff = (r, after)) (hbytes : after.bytes = buff.bytes)
    (hlimit : after.limit = buff.limit) (h : 3 ≤ buff.remaining) :
    Framed heap buff ↔ ∃ m, r = .ok m ∧
      ((m = none ∧ after.position = buff.position ∧ buff.remaining < frameLength buff.slice) ∨
        (frameLength buff.slice ≤ buff.remaining ∧
          after.position = buff.position + frameLength buff.slice)) := by
  constructor
  · rintro ⟨m, after', hparse', -, -, hcases⟩
    rw [hparse] at hparse'
    obtain ⟨hr, rfl⟩ := Prod.mk.inj hparse'
    refine ⟨m, hr, ?_⟩
    rcases hcases with ⟨hm, hpos, hfew | hshort⟩ | ⟨-, hwhole, hpos⟩
    · omega
    · exact Or.inl ⟨hm, hpos, hshort⟩
    · exact Or.inr ⟨hwhole, hpos⟩
  · rintro ⟨m, rfl, hcases⟩
    refine ⟨m, after, hparse, hbytes, hlimit, ?_⟩
    rcases hcases with ⟨hm, hpos, hshort⟩ | ⟨hwhole, hpos⟩
    · exact Or.inl ⟨hm, hpos, Or.inr hshort⟩
    · exact Or.inr ⟨h, hwhole, hpos⟩

theorem not_framed_of_type (h : 3 ≤ buff.remaining)
    (htype : ¬ (buff.slice.getD 0 0).toNat < types.length) : ¬ Framed heap buff := by
  have hnine : types.length = 9 := rfl
  have hthree : 3 ≤ frameLength buff.slice := Nat.le_add_right _ _
  obtain ⟨after, hbytes, hlimit, hposition, -, hparse⟩ := parseMessage_type heap buff h
  by_cases hneg : (buff.slice.getD 0 0).toNat < 0x80
  · have hsigned : asByte (buff.slice.getD 0 0) = (buff.slice.getD 0 0).toNat := if_pos hneg
    rw [hsigned, if_pos (by omega)] at hparse
    rw [framed_iff_of_parse heap buff hparse hbytes hlimit h]
    rintro ⟨m, -, ⟨-, hpos, -⟩ | ⟨-, hpos⟩⟩
    · omega
    · omega
  · have hlt := (buff.slice.getD 0 0).toNat_lt
    have hsigned : asByte (buff.slice.getD 0 0) = ((buff.slice.getD 0 0).toNat : ℤ) - 0x100 :=
      if_neg hneg
    rw [hsigned, if_neg (by omega), if_pos (by omega)] at hparse
    rw [framed_iff_of_parse heap buff hparse hbytes hlimit h]
    rintro ⟨m, hr, -⟩
    exact absurd hr (by simp)

theorem caught_ok_iff (r : Except JavaException Message) :
    (∃ m, caught r = .ok m) ↔ ∀ e, r = .error e → e = .bufferUnderflow := by
  cases r with
  | ok m => exact iff_of_true ⟨_, rfl⟩ (fun e he => absurd he (by simp))
  | error e => cases e <;> simp [caught]

/-- A frame is not all there yet. -/
theorem parseMessage_wait (h : 3 ≤ buff.remaining)
    (htype : (buff.slice.getD 0 0).toNat < types.length)
    (hlen : frameLength buff.slice < 3 + 0x8000)
    (hshort : buff.remaining < frameLength buff.slice) :
    ∃ after, parseMessage heap buff = (.ok none, after) ∧ after.bytes = buff.bytes ∧
      after.limit = buff.limit ∧ after.position = buff.position := by
  have hpos := buff.position_le
  have hrem : buff.remaining = buff.limit - buff.position := rfl
  obtain ⟨after, hbytes, hlimit, hposition, hmark, hparse⟩ :=
    parseMessage_length heap buff h htype
  have hafter : after.remaining = after.limit - after.position := rfl
  have hsigned : asShort (frameLength buff.slice - 3) = ((frameLength buff.slice - 3 : ℕ) : ℤ) :=
    if_pos (by omega)
  rw [hsigned, if_pos (by omega)] at hparse
  obtain ⟨back, hback, hbytes', hlimit', hposition'⟩ : ∃ back, after.reset = some back ∧
      back.bytes = after.bytes ∧ back.limit = after.limit ∧ back.position = buff.position := by
    rw [ByteBuffer.reset, hmark, Option.bind_some]
    exact ⟨_, dif_pos (by omega), rfl, rfl, rfl⟩
  rw [hback, Option.getD_some] at hparse
  exact ⟨back, hparse, hbytes'.trans hbytes, hlimit'.trans hlimit, hposition'⟩

/-- A frame is all there. -/
theorem parseMessage_whole (h : 3 ≤ buff.remaining)
    (htype : (buff.slice.getD 0 0).toNat < types.length)
    (hlen : frameLength buff.slice < 3 + 0x8000)
    (hwhole : frameLength buff.slice ≤ buff.remaining) :
    ∃ after, parseMessage heap buff =
        (caught (create heap (frameType buff.slice) (frameBody buff.slice)).1, after) ∧
      after.bytes = buff.bytes ∧ after.limit = buff.limit ∧
      after.position = buff.position + frameLength buff.slice -
        (create heap (frameType buff.slice) (frameBody buff.slice)).2.length := by
  have hrem : buff.remaining = buff.limit - buff.position := rfl
  have hthree : 3 ≤ frameLength buff.slice := Nat.le_add_right _ _
  obtain ⟨after, hbytes, hlimit, hposition, -, hparse⟩ := parseMessage_length heap buff h htype
  have hafter : after.remaining = buff.remaining - 3 := by
    change after.limit - after.position = _
    omega
  have hsigned : asShort (frameLength buff.slice - 3) = ((frameLength buff.slice - 3 : ℕ) : ℤ) :=
    if_pos (by omega)
  rw [hsigned, if_neg (by omega)] at hparse
  obtain ⟨last, hbody, hbytes', hlimit', hposition'⟩ := parseBody_nonneg heap after
    (frameType buff.slice) (frameLength buff.slice - 3) (by omega)
  have hcontent : after.slice.take (frameLength buff.slice - 3) = frameBody buff.slice := by
    rw [frameBody, ByteBuffer.slice, ByteBuffer.slice, hafter, hbytes, hposition, List.drop_take,
      List.drop_drop]
  rw [hbody, hcontent] at hparse
  rw [hcontent] at hposition'
  exact ⟨last, hparse, hbytes'.trans hbytes, hlimit'.trans hlimit, by omega⟩

/-- A length of a known type that is not taken for a negative one. -/
theorem framed_iff_of_nonneg (h : 3 ≤ buff.remaining)
    (htype : (buff.slice.getD 0 0).toNat < types.length)
    (hlen : frameLength buff.slice < 3 + 0x8000) :
    Framed heap buff ↔ buff.slice.length < frameLength buff.slice ∨
      BodyOk heap (frameType buff.slice) (frameBody buff.slice) := by
  have hroom := heap.room_ge
  have hslice := length_slice buff
  have hthree : 3 ≤ frameLength buff.slice := Nat.le_add_right _ _
  by_cases hshort : buff.slice.length < frameLength buff.slice
  · obtain ⟨after, hparse, hbytes, hlimit, hposition⟩ :=
      parseMessage_wait heap buff h htype hlen (by omega)
    refine iff_of_true ?_ (Or.inl hshort)
    rw [framed_iff_of_parse heap buff hparse hbytes hlimit h]
    exact ⟨none, rfl, Or.inl ⟨rfl, hposition, by omega⟩⟩
  · obtain ⟨after, hparse, hbytes, hlimit, hposition⟩ :=
      parseMessage_whole heap buff h htype hlen (by omega)
    rw [framed_iff_of_parse heap buff hparse hbytes hlimit h]
    have hsmall : (frameBody buff.slice).length ≤ heap.room := by
      rw [frameBody, List.length_take]
      omega
    rw [← whole_iff heap _ hsmall, Whole, ← caught_ok_iff, ← List.length_eq_zero_iff]
    constructor
    · rintro ⟨m, hm, ⟨-, -, hno⟩ | ⟨-, hpos⟩⟩
      · omega
      · exact Or.inr ⟨by omega, m, hm⟩
    · rintro (hno | ⟨hrest, m, hm⟩)
      · exact absurd hno hshort
      · exact ⟨m, hm, Or.inr ⟨by omega, by omega⟩⟩

/-- A length that is taken for a negative one. -/
theorem framed_iff_of_neg (h : 3 ≤ buff.remaining)
    (htype : (buff.slice.getD 0 0).toNat < types.length)
    (hlen : 3 + 0x8000 ≤ frameLength buff.slice) :
    Framed heap buff ↔ frameLength buff.slice = 3 + 0xfffd ∧
      buff.slice.length < frameLength buff.slice ∧
      readsNothing (frameType buff.slice) = false := by
  have hslice := length_slice buff
  have hframe : frameLength buff.slice < 3 + 0x10000 := by
    have := ofBigEndian_two_lt (buff.slice.drop 1)
    rw [frameLength]
    omega
  obtain ⟨after, hbytes, hlimit, hposition, -, hparse⟩ := parseMessage_length heap buff h htype
  have hsigned : asShort (frameLength buff.slice - 3) =
      -((0x10000 - (frameLength buff.slice - 3) : ℕ) : ℤ) := by
    rw [asShort, if_neg (by omega)]
    omega
  rw [hsigned, if_neg (by omega)] at hparse
  obtain ⟨m, hcreate, hreads, hnot⟩ := create_nil heap (frameType buff.slice)
  rcases parseBody_neg heap after (frameType buff.slice) (0x10000 - (frameLength buff.slice - 3))
    (by omega) with ⟨hback, last, hbody⟩ | ⟨hback, last, hbody, hbytes', hlimit', hposition'⟩
  · refine iff_of_false ?_ (fun hno => by omega)
    rintro ⟨m, last', hno, -⟩
    rw [hparse, hbody] at hno
    exact absurd (Prod.mk.inj hno).1 (by simp)
  · rw [hbody, hcreate] at hparse
    rw [framed_iff_of_parse heap buff hparse (hbytes'.trans hbytes) (hlimit'.trans hlimit) h]
    constructor
    · rintro ⟨m', hm', ⟨rfl, hpos, hshort⟩ | ⟨-, hpos⟩⟩
      · refine ⟨by omega, by omega, ?_⟩
        by_contra hno
        obtain ⟨msg, rfl⟩ := hreads (by simpa using hno)
        exact absurd hm' (by simp [caught])
      · omega
    · rintro ⟨hthree, hshort, hnull⟩
      refine ⟨none, ?_, Or.inl ⟨rfl, by omega, by omega⟩⟩
      rw [hnot hnull]
      rfl

/-- parse_message takes a whole frame or waits for the rest of it, without
an exception, exactly when the bytes that remain are well framed. -/
theorem parseMessage_framed_iff : Framed heap buff ↔ WellFramed heap buff.slice := by
  have hslice := length_slice buff
  rw [WellFramed]
  by_cases hfew : buff.remaining < 3
  · have hparse : parseMessage heap buff = (.ok none, buff) := if_pos hfew
    exact iff_of_true ⟨none, buff, hparse, rfl, rfl, Or.inl ⟨rfl, rfl, Or.inl hfew⟩⟩
      (Or.inl (by omega))
  · rw [or_iff_right (by omega)]
    by_cases htype : (buff.slice.getD 0 0).toNat < types.length
    · rw [and_iff_right htype]
      by_cases hlen : frameLength buff.slice < 3 + 0x8000
      · rw [framed_iff_of_nonneg heap buff (by omega) htype hlen, and_iff_right hlen]
        exact (or_iff_left (fun hno => by omega)).symm
      · rw [framed_iff_of_neg heap buff (by omega) htype (by omega),
          or_iff_right (fun hno => hlen hno.1)]
    · exact iff_of_false (not_framed_of_type heap buff (by omega) htype) (fun hno => htype hno.1)

end Parsing

/-- A type from 0x80 on is an index before the array of types. -/
theorem parseMessage_throws : ¬ ∀ (heap : Heap) (buff : ByteBuffer), Framed heap buff := by
  intro hall
  exact not_framed_of_type ⟨65536, Nat.le_refl _⟩ (ByteBuffer.wrap [0x80, 0, 0]) (by decide)
    (by decide) (hall _ _)

end Succinct.MessageFrames
