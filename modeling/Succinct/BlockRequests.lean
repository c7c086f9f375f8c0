import Succinct.FileBlocks

/-!
The requests of peers for blocks of files. A number that is read from a message
is an int that was widened with its sign, so an offset can be below zero, and
Peer.processRequest only asks whether it is below EOF. The sums of the numbers do
not overflow.
-/
namespace Succinct.BlockRequests

open ByteBuffers Messages FileBlocks

structure Queued where
  filename : List UInt8
  offset : BitVec 64
  length : BitVec 64
  deriving DecidableEq

/-- Peer.processRequest over a file that could be opened; nothing is queued where
it returns early. -/
def processRequest (EOF : BitVec 64) (filename : List UInt8) (offset length : BitVec 64) :
    Option Queued :=
  if EOF.sle offset then none
  else
    let length := if EOF.sle (offset + length) then EOF - offset else length
    if length.sle 0 then none else some ⟨filename, offset, length⟩

section Yields

variable {α β : Type} {P : β → Prop} {Q : α → Prop}

def Yields (P : α → Prop) (x : Reader α) : Prop := ∀ s a rest, x s = (.ok a, rest) → P a

theorem yields_pure {b : β} (h : P b) : Yields P (pure b) := by
  intro s a rest heq
  have hb : b = a := Except.ok.inj (congrArg Prod.fst heq)
  rw [← hb]
  exact h

theorem yields_bind_of {x : Reader α} {f : α → Reader β} (hx : Yields Q x)
    (hf : ∀ a, Q a → Yields P (f a)) : Yields P (x >>= f) := by
  intro s b rest heq
  simp only [bind] at heq
  split at heq
  case h_1 a s' hread =>
    exact hf a (hx s a s' hread) s' b rest heq
  case h_2 =>
    cases congrArg Prod.fst heq

theorem yields_bind {x : Reader α} {f : α → Reader β} (hf : ∀ a, Yields P (f a)) :
    Yields P (x >>= f) :=
  yields_bind_of (Q := fun _ => True) (fun _ _ _ _ => trivial) fun a _ => hf a

theorem yields_ite {c : Prop} [Decidable c] {x y : Reader β} (hx : Yields P x) (hy : Yields P y) :
    Yields P (if c then x else y) := by
  split
  · exact hx
  · exact hy

end Yields

def Narrow (n : BitVec 64) : Prop := -2 ^ 31 ≤ n.toInt ∧ n.toInt < 2 ^ 31

theorem narrow_signExtend (w : BitVec 32) : Narrow (w.signExtend 64) := by
  rw [Narrow, BitVec.toInt_signExtend_of_le (by decide)]
  exact ⟨BitVec.le_toInt w, BitVec.toInt_lt⟩

theorem getLongLoop_narrow (s : List UInt8) (w : BitVec 32) (shift : ℕ) {n : BitVec 64}
    {rest : List UInt8} (h : getLongLoop (w.signExtend 64) shift s = (.ok n, rest)) :
    Narrow n := by
  induction s generalizing w shift with
  | nil => cases congrArg Prod.fst h
  | cons val s ih =>
    rw [getLongLoop, ← BitVec.signExtend_or] at h
    split at h
    · rw [← Except.ok.inj (congrArg Prod.fst h)]
      exact narrow_signExtend _
    · exact ih _ _ h

theorem yields_getLong : Yields Narrow getLong := by
  intro s n rest h
  exact getLongLoop_narrow s 0 0 h

def NarrowRequest : Message → Prop
  | .requestBlock _ offset length => Narrow offset ∧ Narrow length
  | _ => True

theorem yields_ackLoop (heap : Heap) (fuel : ℕ) (links : List LinkAck) :
    Yields NarrowRequest (ackLoop heap fuel links) := by
  induction fuel generalizing links with
  | zero => exact yields_pure trivial
  | succ fuel ih =>
    rw [ackLoop]
    refine yields_bind fun more => yields_ite ?_ (yields_pure trivial)
    refine yields_bind fun id => yields_bind fun flags => ?_
    refine yields_ite (yields_pure trivial) (yields_ite ?_ (ih _))
    exact yields_bind fun seq => ih _

theorem yields_stunLoop (heap : Heap) (fuel : ℕ) (addresses : List InetAddress) :
    Yields NarrowRequest (stunLoop heap fuel addresses) := by
  induction fuel generalizing addresses with
  | zero => exact yields_pure trivial
  | succ fuel ih =>
    rw [stunLoop]
    refine yields_bind fun more => yields_ite ?_ (yields_pure trivial)
    refine yields_bind fun bytes => ?_
    split
    · exact ih _
    · intro s a rest h
      cases congrArg Prod.fst h

theorem yields_create (heap : Heap) (type : MessageType) :
    Yields NarrowRequest (create heap type) := by
  cases type with
  | headerMessage =>
    refine yields_bind fun id => yields_bind fun flags => yields_bind fun more => ?_
    exact yields_ite (yields_bind fun seq => yields_pure trivial) (yields_pure trivial)
  | ackMessage =>
    intro s
    exact yields_ackLoop heap (s.length + 1) [] s
  | storeStateMessage => exact yields_bind fun team => yields_bind fun key => yields_pure trivial
  | syncMsgMessage => exact yields_bind fun blob => yields_pure trivial
  | requestBlockMessage =>
    refine yields_bind_of yields_getLong fun offset hoffset => ?_
    refine yields_bind_of yields_getLong fun length hlength => ?_
    exact yields_bind fun filename => yields_pure ⟨hoffset, hlength⟩
  | fileBlockMessage =>
    refine yields_bind fun filename => yields_bind fun offset => ?_
    exact yields_bind fun data => yields_pure trivial
  | teamMessage =>
    refine yields_bind fun epoc => yields_bind fun more => yields_ite ?_ (yields_pure trivial)
    refine yields_bind fun id => yields_bind fun leader => ?_
    exact yields_bind fun name => yields_pure trivial
  | requestTeamMessage => exact yields_bind fun id => yields_pure trivial
  | stunMessage =>
    intro s
    exact yields_stunLoop heap (s.length + 1) [] s

theorem narrow_of_parseBody {heap : Heap} {type : MessageType} {len : ℤ} {buff after : ByteBuffer}
    {m : Message} (h : parseBody heap type len buff = (.ok (some m), after)) :
    NarrowRequest m := by
  rw [parseBody] at h
  cases hbody : buff.setLimit (↑buff.position + len) with
  | none =>
    rw [hbody] at h
    cases congrArg Prod.fst h
  | some body =>
    rw [hbody] at h
    have hcaught := congrArg Prod.fst h
    dsimp only at hcaught
    cases hresult : create heap type body.slice with
    | mk result rest =>
      rw [hresult] at hcaught
      cases result with
      | error e => cases e <;> cases hcaught
      | ok m' =>
        have hm : m' = m := Option.some.inj (Except.ok.inj hcaught)
        rw [← hm]
        exact yields_create heap type _ _ _ hresult

/-- The numbers of a request that was parsed are ints. -/
theorem narrow_of_parseMessage {heap : Heap} {buff after : ByteBuffer} {m : Message}
    (h : parseMessage heap buff = (.ok (some m), after)) : NarrowRequest m := by
  rw [parseMessage] at h
  split at h
  · cases congrArg Prod.fst h
  split at h
  · cases congrArg Prod.fst h
  dsimp only at h
  split at h
  · cases congrArg Prod.fst h
  split at h
  · cases congrArg Prod.fst h
  split at h
  · cases congrArg Prod.fst h
  split at h
  · cases congrArg Prod.fst h
  · exact narrow_of_parseBody h

/-- A block of bytes below EOF. Whatever room there is for its frames and however
the file grows, none of the reads throws. -/
structure Inside (file : List UInt8) (block : Queued) : Prop where
  offset : 0 ≤ block.offset.toInt
  length : 0 < block.length.toInt
  below : block.offset.toInt + block.length.toInt ≤ file.length
  noOverflow : (block.offset + block.length).toInt = block.offset.toInt + block.length.toInt
  written : ∀ calls, ∃ result, writeAll file
    (.ofFile block.filename block.offset.toInt.toNat block.length.toInt.toNat) calls = .ok result

section Longs

theorem toInt_ofNat_long {n : ℕ} (hn : n < 2 ^ 63) : (BitVec.ofNat 64 n).toInt = n := by
  have hnat : (BitVec.ofNat 64 n).toNat = n := by
    rw [BitVec.toNat_ofNat]
    omega
  rw [BitVec.toInt_eq_toNat_of_lt (by omega), hnat]

variable {x y : BitVec 64}

theorem toInt_add_long (hmin : -2 ^ 63 ≤ x.toInt + y.toInt) (hmax : x.toInt + y.toInt < 2 ^ 63) :
    (x + y).toInt = x.toInt + y.toInt := by
  rw [BitVec.toInt_add]
  exact Int.bmod_eq_of_le hmin hmax

theorem toInt_sub_long (hmin : -2 ^ 63 ≤ x.toInt - y.toInt) (hmax : x.toInt - y.toInt < 2 ^ 63) :
    (x - y).toInt = x.toInt - y.toInt := by
  rw [BitVec.toInt_sub]
  exact Int.bmod_eq_of_le hmin hmax

end Longs

section Requests

variable {file filename : List UInt8} {offset length : BitVec 64} (hfile : file.length < 2 ^ 63)
  (hoffset : Narrow offset) (hlength : Narrow length)

include hfile hoffset hlength

/-- All that processRequest does. -/
theorem processRequest_cases (filename : List UInt8) :
    (processRequest (BitVec.ofNat 64 file.length) filename offset length = none ∧
      (file.length ≤ offset.toInt ∨ length.toInt ≤ 0)) ∨
    (offset.toInt < file.length ∧ 0 < length.toInt ∧ ∃ sent : BitVec 64,
      processRequest (BitVec.ofNat 64 file.length) filename offset length =
        some ⟨filename, offset, sent⟩ ∧
      sent.toInt = min length.toInt (file.length - offset.toInt)) := by
  obtain ⟨homin, homax⟩ := hoffset
  obtain ⟨hlmin, hlmax⟩ := hlength
  have heof := toInt_ofNat_long hfile
  have hsum : (offset + length).toInt = offset.toInt + length.toInt :=
    toInt_add_long (by omega) (by omega)
  have hzero : (0 : BitVec 64).toInt = 0 := rfl
  rw [processRequest]
  simp only [BitVec.sle_iff_toInt_le, heof, hsum, hzero]
  by_cases hbeyond : (file.length : ℤ) ≤ offset.toInt
  · rw [if_pos hbeyond]
    exact Or.inl ⟨rfl, Or.inl hbeyond⟩
  rw [if_neg hbeyond]
  by_cases hclamp : (file.length : ℤ) ≤ offset.toInt + length.toInt
  · have hrest : (BitVec.ofNat 64 file.length - offset).toInt = file.length - offset.toInt := by
      rw [toInt_sub_long (by rw [heof]; omega) (by rw [heof]; omega), heof]
    rw [if_pos hclamp, hrest, if_neg (by omega)]
    exact Or.inr ⟨by omega, by omega, _, rfl, by rw [hrest]; omega⟩
  · rw [if_neg hclamp]
    by_cases hnone : length.toInt ≤ 0
    · rw [if_pos hnone]
      exact Or.inl ⟨rfl, Or.inr hnone⟩
    · rw [if_neg hnone]
      exact Or.inr ⟨by omega, by omega, length, rfl, by omega⟩

theorem inside_iff :
    (∀ block, processRequest (BitVec.ofNat 64 file.length) filename offset length = some block →
      Inside file block) ↔ 0 ≤ offset.toInt ∨ length.toInt ≤ 0 := by
  obtain ⟨homin, homax⟩ := hoffset
  rcases processRequest_cases hfile ⟨homin, homax⟩ hlength filename with
    ⟨hnone, hwhy⟩ | ⟨hbelow, hpos, sent, hsome, hsent⟩
  · rw [hnone]
    refine iff_of_true (fun _ h => by cases h) ?_
    omega
  · rw [hsome]
    constructor
    · intro hinside
      exact Or.inl (hinside _ rfl).offset
    · intro hsafe block hblock
      obtain rfl := Option.some.inj hblock
      have hstart : 0 ≤ offset.toInt := by omega
      have hend : offset.toInt + sent.toInt ≤ file.length := by omega
      refine ⟨hstart, ?_, hend, ?_, ?_⟩
      · change 0 < sent.toInt
        omega
      · exact toInt_add_long (by change -2 ^ 63 ≤ offset.toInt + sent.toInt; omega)
          (by change offset.toInt + sent.toInt < 2 ^ 63; omega)
      · intro calls
        have hwithin : Within file (.ofFile filename offset.toInt.toNat sent.toInt.toNat) := by
          refine ⟨Nat.zero_le _, ?_, ?_⟩
          · change offset.toInt.toNat + sent.toInt.toNat ≤ file.length
            omega
          · change offset.toInt.toNat + sent.toInt.toNat < 2 ^ 63
            omega
        obtain ⟨ws, hws, -⟩ := writeAll_spec calls hwithin []
        rw [List.append_nil] at hws
        exact ⟨_, hws⟩

end Requests

/-- A request that a peer has sent leads to a block inside the file, if it leads
to any, exactly when its offset is not below zero or it asks for no bytes. -/
theorem request_inside_iff (heap : Heap) (buff after : ByteBuffer) (filename : List UInt8)
    (offset length : BitVec 64)
    (hparse : parseMessage heap buff = (.ok (some (.requestBlock filename offset length)), after))
    (file : List UInt8) (hfile : file.length < 2 ^ 63) :
    (∀ block, processRequest (BitVec.ofNat 64 file.length) filename offset length = some block →
      Inside file block) ↔ 0 ≤ offset.toInt ∨ length.toInt ≤ 0 := by
  obtain ⟨hoffset, hlength⟩ := narrow_of_parseMessage hparse
  exact inside_iff hfile hoffset hlength

def requestFrame (offset : List UInt8) : ByteBuffer :=
  .wrap (frame .requestBlockMessage (offset ++ [0x01, 0x61]))

theorem request_inside_start :
    (∃ after, parseMessage ⟨65536, le_refl _⟩ (requestFrame [0x00]) =
      (.ok (some (.requestBlock [0x61] 0 1)), after)) ∧
    ∃ block, processRequest (BitVec.ofNat 64 [7].length) [0x61] 0 1 = some block ∧
    Inside [7] block := by
  have hparse : parseMessage ⟨65536, le_refl _⟩ (requestFrame [0x00]) =
      (.ok (some (.requestBlock [0x61] 0 1)),
        (parseMessage ⟨65536, le_refl _⟩ (requestFrame [0x00])).2) := by
    rfl
  refine ⟨⟨_, hparse⟩, ⟨[0x61], 0, 1⟩, by decide, ?_⟩
  exact (request_inside_iff _ _ _ _ _ _ hparse [7] (by decide)).mpr (by decide) _ (by decide)

/-- Four full groups and a fifth of four bits are an offset of -1. -/
theorem request_before_start :
    (∃ after, parseMessage ⟨65536, le_refl _⟩ (requestFrame [0xff, 0xff, 0xff, 0xff, 0x0f]) =
      (.ok (some (.requestBlock [0x61] (-1) 1)), after)) ∧
    processRequest (BitVec.ofNat 64 [7].length) [0x61] (-1) 1 = some ⟨[0x61], -1, 1⟩ ∧
    ¬ Inside [7] ⟨[0x61], -1, 1⟩ := by
  have hparse : parseMessage ⟨65536, le_refl _⟩ (requestFrame [0xff, 0xff, 0xff, 0xff, 0x0f]) =
      (.ok (some (.requestBlock [0x61] (-1) 1)),
        (parseMessage ⟨65536, le_refl _⟩ (requestFrame [0xff, 0xff, 0xff, 0xff, 0x0f])).2) := by
    rfl
  refine ⟨⟨_, hparse⟩, by decide, ?_⟩
  intro h
  exact absurd h.offset (by decide)

end Succinct.BlockRequests
