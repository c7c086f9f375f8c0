import Succinct.MessageStream

/-!
What Message.write puts into a buffer is read back whole by the factory of
its type. With this, a stream of written messages can be cut into reads
anywhere.
-/
namespace Succinct.MessageWrites

open ByteBuffers Messages MessageFrames MessageStream

theorem put_eq_some {room : ℕ} {src out out' : List UInt8} (h : put room src out = some out') :
    out' = out ++ src ∧ out'.length ≤ room := by
  rw [put] at h
  by_cases hfits : out.length + src.length ≤ room
  · rw [if_pos hfits] at h
    rw [← Option.some.inj h, List.length_append]
    exact ⟨rfl, hfits⟩
  · rw [if_neg hfits] at h
    exact absurd h (by simp)

theorem putString_eq_some {room : ℕ} {value out out' : List UInt8}
    (h : putString room value out = some out') :
    out' = out ++ (value ++ [0]) ∧ out'.length ≤ room := by
  obtain ⟨mid, hput, h⟩ := Option.bind_eq_some_iff.mp h
  obtain ⟨hmid, -⟩ := put_eq_some hput
  obtain ⟨hout, hfits⟩ := put_eq_some h
  rw [hmid, List.append_assoc] at hout
  exact ⟨hout, hfits⟩

section Readers

variable (heap : Heap) (rest : List UInt8)

theorem getId_append (id : PeerId) : getId heap (List.ofFn id ++ rest) = (.ok id, rest) := by
  have hlen : (List.ofFn id).length = 8 := List.length_ofFn
  rw [getId_ok heap (by rw [List.length_append]; omega), List.take_left' hlen,
    List.drop_left' hlen]
  have hid := getD_ofFn id []
  rw [List.append_nil] at hid
  rw [hid]

theorem getByte_cons (b : UInt8) : getByte (b :: rest) = (.ok b, rest) := rfl

theorem getShort_append (n : ℕ) :
    getShort (bigEndian 2 n ++ rest) = (.ok (n % 0x10000), rest) := by
  have hlen := length_bigEndian 2 n
  rw [getShort_ok (by rw [List.length_append]; omega), List.take_left' hlen, List.drop_left' hlen,
    ofBigEndian_bigEndian]
  rfl

omit rest in
theorem getLongLoop_append (fuel value : ℕ) (ret : BitVec 64) (shift : ℕ) :
    ∃ n, ∀ rest, getLongLoop ret shift (longBytes fuel value ++ rest) = (.ok n, rest) := by
  induction fuel generalizing value ret shift with
  | zero =>
    have hlow : (UInt8.ofNat (value % 0x80)).toNat < 0x80 := by
      rw [UInt8.toNat_ofNat']
      omega
    apply Exists.intro
    intro rest
    rw [longBytes, List.singleton_append, getLongLoop, if_pos hlow]
  | succ fuel ih =>
    rw [longBytes]
    split
    · have hhigh : ¬ (UInt8.ofNat (0x80 + value % 0x80)).toNat < 0x80 := by
        rw [UInt8.toNat_ofNat']
        omega
      obtain ⟨n, hn⟩ :=
        ih (value / 0x80) (ret ||| (((UInt8.ofNat (0x80 + value % 0x80)).toBitVec &&&
        0x7f).setWidth 32 <<< (shift % 32)).signExtend 64) (shift + 7)
      refine ⟨n, fun rest => ?_⟩
      rw [List.cons_append, getLongLoop, if_neg hhigh]
      exact hn rest
    · have hlow : (UInt8.ofNat value).toNat < 0x80 := by
        rw [UInt8.toNat_ofNat']
        omega
      apply Exists.intro
      intro rest
      rw [List.singleton_append, getLongLoop, if_pos hlow]

omit rest in
theorem getLong_append (value : ℕ) :
    ∃ n, ∀ rest, getLong (longBytes 9 value ++ rest) = (.ok n, rest) :=
  getLongLoop_append 9 value 0 0

theorem getString_append (name : List UInt8) (hname : ∀ b ∈ name, b ≠ 0)
    (hroom : (name ++ 0 :: rest).length ≤ heap.room) :
    getString heap (name ++ 0 :: rest) = (.ok name, rest) := by
  rw [getString_spec heap hroom, List.takeWhile_append_of_pos (by simpa using hname),
    List.dropWhile_append_of_pos (by simpa using hname)]
  simp

end Readers

def LinkAck.size (link : LinkAck) : ℕ := if 0 ≤ link.seq then 11 else 9

/-- The links that are not passed over, with what has been put before. -/
def kept (room : ℕ) : ℕ → List LinkAck → List LinkAck
  | _, [] => []
  | used, link :: links =>
    if room - used < 9 then kept room used links
      else link :: kept room (used + LinkAck.size link) links

def LinkAck.received (link : LinkAck) : LinkAck :=
  { link with seq := if 0 ≤ link.seq then asShort (link.seq.toNat % 0x10000) else -1 }

def mapped (addr : Fin 16 → UInt8) : Prop :=
  (List.ofFn addr).take 12 = List.replicate 10 0 ++ [0xff, 0xff]

def InetAddress.received (address : InetAddress) : InetAddress :=
  (getByAddress address.getAddress).getD address

/-- What the factory makes of a message that was written with some room; blocks
of files are not treated here. -/
def received (room : ℕ) : Message → Message
  | .header id unicast seq =>
    .header id unicast (if 0 ≤ seq then ((seq.toNat % 0x10000 : ℕ) : ℤ) else -1)
  | .ack links => .ack ((kept room 0 links).map LinkAck.received)
  | .team epoc members => .team (epoc % 256 ^ 8) members
  | .stun addresses => .stun (addresses.map InetAddress.received)
  | m => m

def NulFree : Message → Prop
  | .requestBlock filename _ _ => ∀ b ∈ filename, b ≠ 0
  | .fileBlock filename _ _ => ∀ b ∈ filename, b ≠ 0
  | .team _ (some (_, _, name)) => ∀ b ∈ name, b ≠ 0
  | _ => True

section Factories

variable {heap : Heap} {room : ℕ} {body : List UInt8}

theorem creates_header {id : PeerId} {unicast : Bool} {seq : ℤ}
    (h : serialise room (.header id unicast seq) = some body) :
    create heap .headerMessage body = (.ok (received room (.header id unicast seq)), []) := by
  obtain ⟨out, hid, h⟩ := Option.bind_eq_some_iff.mp h
  obtain ⟨out', hflags, h⟩ := Option.bind_eq_some_iff.mp h
  obtain ⟨rfl, -⟩ := put_eq_some hid
  obtain ⟨rfl, -⟩ := put_eq_some hflags
  have hbit : decide ((if unicast then (1 : UInt8) else 0).toNat % 2 = 1) = unicast := by
    cases unicast <;> rfl
  rw [putSeq] at h
  rw [received]
  by_cases hseq : 0 ≤ seq
  · rw [if_pos hseq] at h
    obtain ⟨rfl, -⟩ := put_eq_some h
    rw [List.nil_append, List.append_assoc]
    rw [create, createHeader, bind_ok (getId_append heap _ id), List.singleton_append,
      bind_ok (getByte_cons _ _), bind_hasRemaining_pos (by simp),
      ← List.append_nil (bigEndian 2 _), bind_ok (getShort_append [] _), hbit, if_pos hseq]
    rfl
  · rw [if_neg hseq] at h
    rw [← Option.some.inj h, List.nil_append]
    rw [create, createHeader, bind_ok (getId_append heap _ id), bind_ok (getByte_cons _ _),
      bind_hasRemaining_neg rfl, hbit, if_neg hseq]
    rfl

theorem creates_storeState {teamId : PeerId} {key : Fin 32 → UInt8}
    (h : serialise room (.storeState teamId key) = some body) :
    create heap .storeStateMessage body = (.ok (.storeState teamId key), []) := by
  have hroom := heap.room_ge
  obtain ⟨out, hid, h⟩ := Option.bind_eq_some_iff.mp h
  obtain ⟨rfl, -⟩ := put_eq_some hid
  obtain ⟨rfl, -⟩ := put_eq_some h
  have hkey : getFixedBytes heap 32 (List.ofFn key) = (.ok (List.ofFn key), []) := by
    have hlen : (List.ofFn key).length = 32 := List.length_ofFn
    have hraw := getFixedBytes_nat heap (n := 32) (by omega) (List.ofFn key)
    rw [getRaw_ok (Nat.le_of_eq hlen.symm), List.take_of_length_le (Nat.le_of_eq hlen),
      List.drop_of_length_le (Nat.le_of_eq hlen)] at hraw
    exact hraw
  have hread := getD_ofFn key []
  rw [List.append_nil] at hread
  rw [List.nil_append]
  rw [create, createStoreState, bind_ok (getId_append heap _ teamId), bind_ok hkey, hread]
  rfl

theorem creates_requestTeam {teamId : PeerId}
    (h : serialise room (.requestTeam teamId) = some body) :
    create heap .requestTeamMessage body = (.ok (.requestTeam teamId), []) := by
  obtain ⟨rfl, -⟩ := put_eq_some h
  rw [List.nil_append, ← List.append_nil (List.ofFn teamId)]
  exact bind_ok (getId_append heap [] teamId)

variable (hroom : room ≤ MTU)

include hroom

theorem creates_syncMsg {blob : List UInt8} (h : serialise room (.syncMsg blob) = some body) :
    create heap .syncMsgMessage body = (.ok (.syncMsg blob), []) := by
  have hmtu : MTU = 1200 := rfl
  have hheap := heap.room_ge
  obtain ⟨rfl, hlen⟩ := put_eq_some h
  exact bind_ok (getFixedBytes_remaining heap (by omega))

/-- A request is read with the numbers that getLong makes of its own. -/
theorem create_requestBlock {filename : List UInt8} {offset length n n' : BitVec 64}
    (hn : ∀ rest, getLong (longBytes 9 offset.toNat ++ rest) = (.ok n, rest))
    (hn' : ∀ rest, getLong (longBytes 9 length.toNat ++ rest) = (.ok n', rest))
    (h : serialise room (.requestBlock filename offset length) = some body) :
    create heap .requestBlockMessage body = (.ok (.requestBlock filename n n'), []) := by
  have hmtu : MTU = 1200 := rfl
  have hheap := heap.room_ge
  obtain ⟨out, hoffset, h⟩ := Option.bind_eq_some_iff.mp h
  obtain ⟨out', hlength, h⟩ := Option.bind_eq_some_iff.mp h
  obtain ⟨rfl, -⟩ := put_eq_some hoffset
  obtain ⟨rfl, -⟩ := put_eq_some hlength
  obtain ⟨rfl, hfits⟩ := put_eq_some h
  simp only [List.length_append, List.nil_append, List.append_assoc] at hfits ⊢
  rw [create, createRequestBlock, bind_ok (hn _), bind_ok (hn' _),
    bind_ok (getFixedBytes_remaining heap (by omega))]
  rfl

theorem create_fileBlock {filename : List UInt8} {offset n : BitVec 64} {data : List UInt8}
    (hname : ∀ b ∈ filename, b ≠ 0)
    (hn : ∀ rest, getLong (longBytes 9 offset.toNat ++ rest) = (.ok n, rest))
    (h : serialise room (.fileBlock filename offset data) = some body) :
    ∃ data', create heap .fileBlockMessage body = (.ok (.fileBlock filename n data'), []) := by
  have hmtu : MTU = 1200 := rfl
  have hheap := heap.room_ge
  obtain ⟨out, hstring, h⟩ := Option.bind_eq_some_iff.mp h
  obtain ⟨out', hoffset, h⟩ := Option.bind_eq_some_iff.mp h
  obtain ⟨rfl, -⟩ := putString_eq_some hstring
  obtain ⟨rfl, hfits⟩ := put_eq_some hoffset
  rw [← Option.some.inj h]
  generalize hdata : data.take _ = some'
  have hsome := congrArg List.length hdata
  rw [List.length_take] at hsome
  simp only [List.length_append, List.nil_append, List.append_assoc, List.length_cons,
    List.cons_append] at hfits hsome ⊢
  have hlong : (filename ++ 0 :: (longBytes 9 offset.toNat ++ some')).length ≤ heap.room := by
    simp only [List.length_append, List.length_cons]
    omega
  refine ⟨some', ?_⟩
  rw [create, createFileBlock, bind_ok (getString_append heap _ filename hname hlong),
    bind_ok (hn _), bind_ok (getFixedBytes_remaining heap (by omega))]
  rfl

omit hroom in
theorem getRawLong_append (epoc : ℕ) (rest : List UInt8) :
    getRawLong (bigEndian 8 epoc ++ rest) = (.ok (epoc % 256 ^ 8), rest) := by
  have hlen := length_bigEndian 8 epoc
  have hraw : getRaw 8 (bigEndian 8 epoc ++ rest) = (.ok (bigEndian 8 epoc), rest) := by
    rw [getRaw_ok (by rw [List.length_append]; omega), List.take_left' hlen, List.drop_left' hlen]
  rw [getRawLong, bind_ok hraw, ofBigEndian_bigEndian]
  rfl

theorem creates_team {epoc : ℕ} {members : Option (PeerId × PeerId × List UInt8)}
    (hname : NulFree (.team epoc members))
    (h : serialise room (.team epoc members) = some body) :
    create heap .teamMessage body = (.ok (received room (.team epoc members)), []) := by
  have hmtu : MTU = 1200 := rfl
  have hheap := heap.room_ge
  obtain ⟨out, hput, h⟩ := Option.bind_eq_some_iff.mp h
  obtain ⟨rfl, -⟩ := put_eq_some hput
  rw [List.nil_append] at h
  rw [received]
  rcases members with _ | ⟨id, leader, name⟩
  · rw [← Option.some.inj h, create, createTeam, ← List.append_nil (bigEndian 8 epoc),
      bind_ok (getRawLong_append epoc []), bind_hasRemaining_neg rfl]
    rfl
  · obtain ⟨out, hid, h⟩ := Option.bind_eq_some_iff.mp h
    obtain ⟨out', hleader, h⟩ := Option.bind_eq_some_iff.mp h
    obtain ⟨rfl, -⟩ := put_eq_some hid
    obtain ⟨rfl, -⟩ := put_eq_some hleader
    obtain ⟨rfl, hfits⟩ := putString_eq_some h
    simp only [List.length_append, List.append_assoc, List.length_singleton] at hfits ⊢
    have hlong : (name ++ [0]).length ≤ heap.room := by
      rw [List.length_append, List.length_singleton]
      omega
    rw [create, createTeam, bind_ok (getRawLong_append epoc _), bind_hasRemaining_pos (by simp),
      bind_ok (getId_append heap _ id), bind_ok (getId_append heap _ leader),
      bind_ok (getString_append heap [] name hname hlong)]
    rfl

omit hroom in
theorem link_flags (link : LinkAck) :
    ¬ 8 ≤ link.flags.toNat ∧ (link.flags.toNat / 4 % 2 = 1 ↔ 0 ≤ link.seq) ∧
      decide (link.flags.toNat / 2 % 2 = 1) = link.broadcast ∧
        decide (link.flags.toNat % 2 = 1) = link.unicast := by
  rw [LinkAck.flags]
  by_cases hseq : 0 ≤ link.seq
  · rw [if_pos hseq]
    cases link.broadcast <;> cases link.unicast <;> simp [hseq]
  · rw [if_neg hseq]
    cases link.broadcast <;> cases link.unicast <;> simp [hseq]

omit hroom in
/-- Links are written one behind the other, and read so. -/
theorem creates_links (links : List LinkAck) {out : List UInt8}
    (h : links.foldlM (LinkAck.serialise room) out = some body) :
    ∃ tail, body = out ++ tail ∧
    tail.length = ((kept room out.length links).map LinkAck.size).sum ∧
      ∀ fuel read, tail.length < fuel → ackLoop heap fuel read tail =
        (.ok (.ack (read ++ (kept room out.length links).map LinkAck.received)), []) := by
  induction links generalizing out with
  | nil =>
    refine ⟨[], ?_, rfl, ?_⟩
    · rw [List.append_nil]
      exact (Option.some.inj h).symm
    · intro fuel read hfuel
      cases fuel with
      | zero => omega
      | succ fuel =>
        rw [kept, List.map_nil, List.append_nil]
        rfl
  | cons link links ih =>
    rw [List.foldlM_cons] at h
    obtain ⟨next, hlink, h⟩ := Option.bind_eq_some_iff.mp h
    obtain ⟨tail, rfl, hsum, htail⟩ := ih h
    rw [LinkAck.serialise] at hlink
    rw [kept]
    by_cases hfull : room - out.length < 9
    · rw [if_pos hfull] at hlink
      rw [← Option.some.inj hlink] at hsum htail ⊢
      rw [if_pos hfull]
      exact ⟨tail, rfl, hsum, htail⟩
    · rw [if_neg hfull] at hlink
      obtain ⟨out', hid, hlink⟩ := Option.bind_eq_some_iff.mp hlink
      obtain ⟨out'', hflags, hlink⟩ := Option.bind_eq_some_iff.mp hlink
      obtain ⟨rfl, -⟩ := put_eq_some hid
      obtain ⟨rfl, -⟩ := put_eq_some hflags
      obtain ⟨hsmall, hnumber, hbroadcast, hunicast⟩ := link_flags link
      have hid : (List.ofFn link.id).length = 8 := List.length_ofFn
      rw [if_neg hfull, List.map_cons, List.map_cons, List.sum_cons]
      rw [putSeq] at hlink
      by_cases hseq : 0 ≤ link.seq
      · rw [if_pos hseq] at hlink
        obtain ⟨rfl, -⟩ := put_eq_some hlink
        have hused : (out ++ List.ofFn link.id ++ [link.flags] ++
          bigEndian 2 link.seq.toNat).length =
            out.length + LinkAck.size link := by
          simp [LinkAck.size, hseq]
        rw [hused] at hsum htail
        refine ⟨List.ofFn link.id ++
          (link.flags :: (bigEndian 2 link.seq.toNat ++ tail)), by simp, ?_, ?_⟩
        · rw [← hsum, LinkAck.size, if_pos hseq]
          simp
          omega
        · intro fuel read hfuel
          simp only [List.length_append, List.length_cons] at hfuel
          cases fuel with
          | zero => omega
          | succ fuel =>
            rw [ackLoop, bind_hasRemaining_pos (by simp), bind_ok (getId_append heap _ link.id),
              bind_ok (getByte_cons _ _), if_neg hsmall, if_pos (hnumber.mpr hseq),
              bind_ok (getShort_append _ _), htail fuel _ (by omega), hbroadcast, hunicast,
              List.append_assoc, List.singleton_append, LinkAck.received, if_pos hseq]
      · rw [if_neg hseq] at hlink
        obtain rfl := Option.some.inj hlink
        have hused : (out ++ List.ofFn link.id ++ [link.flags]).length =
            out.length + LinkAck.size link := by
          simp [LinkAck.size, hseq]
        rw [hused] at hsum htail
        refine ⟨List.ofFn link.id ++ (link.flags :: tail), by simp, ?_, ?_⟩
        · rw [← hsum, LinkAck.size, if_neg hseq]
          simp
          omega
        · intro fuel read hfuel
          simp only [List.length_append, List.length_cons] at hfuel
          cases fuel with
          | zero => omega
          | succ fuel =>
            rw [ackLoop, bind_hasRemaining_pos (by simp), bind_ok (getId_append heap _ link.id),
              bind_ok (getByte_cons _ _), if_neg hsmall,
                if_neg (fun hno => hseq (hnumber.mp hno)),
              htail fuel _ (by omega), hbroadcast, hunicast,
              List.append_assoc, List.singleton_append, LinkAck.received, if_neg hseq]

omit hroom in
/-- Addresses are written one behind the other, and read so. -/
theorem creates_addresses (addresses : List InetAddress) {out : List UInt8}
    (h : addresses.foldlM (putAddress room) out = some body) :
    ∃ tail, body = out ++ tail ∧ ∀ fuel read, tail.length < fuel → stunLoop heap fuel read tail =
      (.ok (.stun (read ++ addresses.map InetAddress.received)), []) := by
  have hheap := heap.room_ge
  induction addresses generalizing out with
  | nil =>
    refine ⟨[], ?_, ?_⟩
    · rw [List.append_nil]
      exact (Option.some.inj h).symm
    · intro fuel read hfuel
      cases fuel with
      | zero => omega
      | succ fuel =>
        rw [List.map_nil, List.append_nil]
        rfl
  | cons address addresses ih =>
    rw [List.foldlM_cons] at h
    obtain ⟨next, haddress, h⟩ := Option.bind_eq_some_iff.mp h
    obtain ⟨tail, rfl, htail⟩ := ih h
    obtain ⟨out', hlength, haddress⟩ := Option.bind_eq_some_iff.mp haddress
    obtain ⟨rfl, -⟩ := put_eq_some hlength
    obtain ⟨rfl, -⟩ := put_eq_some haddress
    have hsize : address.getAddress.length = 4 ∨ address.getAddress.length = 16 := by
      cases address with
      | inet4 addr => exact Or.inl List.length_ofFn
      | inet6 addr => exact Or.inr List.length_ofFn
    have hread : getBytes heap (longBytes 9 (address.getAddress.length : BitVec 64).toNat ++
        (address.getAddress ++ tail)) = (.ok address.getAddress, tail) := by
      have hlong : getLong (longBytes 9 (address.getAddress.length : BitVec 64).toNat ++
          (address.getAddress ++ tail)) =
            (.ok address.getAddress.length, address.getAddress ++ tail) := by
        rcases hsize with hsize | hsize <;> rw [hsize] <;> rfl
      have hint : ((address.getAddress.length : BitVec 64).setWidth 32).toInt =
          (address.getAddress.length : ℤ) := by
        rcases hsize with hsize | hsize <;> rw [hsize] <;> rfl
      rw [getBytes, bind_ok hlong, hint, getFixedBytes_nat heap (by omega),
        getRaw_ok (by rw [List.length_append]; omega), List.take_left, List.drop_left]
    obtain ⟨read', hread'⟩ := (getByAddress_spec address.getAddress).mpr hsize
    refine ⟨longBytes 9 (address.getAddress.length : BitVec 64).toNat ++
      (address.getAddress ++ tail), by simp, ?_⟩
    intro fuel read hfuel
    simp only [List.length_append] at hfuel
    cases fuel with
    | zero => omega
    | succ fuel =>
      rw [stunLoop, bind_hasRemaining_pos (by simp only [List.length_append]; omega),
        bind_ok hread, hread']
      dsimp only
      rw [htail fuel _ (by omega), List.append_assoc, List.singleton_append, List.map_cons,
        InetAddress.received, hread', Option.getD_some]

def Whole : Message → Prop
  | .requestBlock _ _ _ => False
  | .fileBlock _ _ _ => False
  | _ => True

theorem creates_received {m : Message} (hwhole : Whole m) (hname : NulFree m)
    (h : serialise room m = some body) :
    create heap m.type body = (.ok (received room m), []) := by
  cases m with
  | header id unicast seq => exact creates_header h
  | ack links =>
    obtain ⟨tail, rfl, -, htail⟩ := creates_links links h
    exact htail _ _ (Nat.lt_succ_self _)
  | storeState teamId key => exact creates_storeState h
  | syncMsg blob => exact creates_syncMsg hroom h
  | requestBlock filename offset length => exact hwhole.elim
  | fileBlock filename offset data => exact hwhole.elim
  | team epoc members => exact creates_team hroom hname h
  | requestTeam teamId => exact creates_requestTeam h
  | stun addresses =>
    obtain ⟨tail, rfl, htail⟩ := creates_addresses addresses h
    exact htail _ _ (Nat.lt_succ_self _)

end Factories

structure Writing where
  message : Message
  buff : ByteBuffer
  capacity_eq : buff.capacity = MTU

def Writing.written (w : Writing) : List UInt8 :=
  let after := (write w.buff w.message).2
  (after.bytes.drop w.buff.position).take (after.position - w.buff.position)

/-- Nothing is written, and write says so, or a whole frame. -/
theorem written_spec (w : Writing) : (w.written = [] ∧ (write w.buff w.message).1 = false) ∨
    ∃ body, w.buff.remaining - 3 ≤ MTU ∧ serialise (w.buff.remaining - 3) w.message = some body ∧
      w.written = frame w.message.type body ∧ w.written.length ≤ MTU := by
  have hpos := w.buff.position_le
  have hlim := w.buff.limit_le
  have hcap : w.buff.bytes.length = 1200 := w.capacity_eq
  have hmtu : MTU = 1200 := rfl
  have hrem : w.buff.remaining = w.buff.limit - w.buff.position := rfl
  have hnothing : ∀ b, write w.buff w.message = (false, b) → b.position = w.buff.position →
      w.written = [] ∧ (write w.buff w.message).1 = false := by
    intro b hb hposition
    rw [Writing.written, hb]
    dsimp only
    rw [hposition, Nat.sub_self, List.take_zero]
    exact ⟨rfl, rfl⟩
  by_cases hfew : w.buff.remaining < 3
  · left
    exact hnothing w.buff (by rw [write, if_pos hfew]) rfl
  · cases hbody : serialise (w.buff.remaining - 3) w.message with
    | none =>
      left
      exact hnothing w.buff.setMark (by simp only [write, if_neg hfew, hbody]) rfl
    | some body =>
      by_cases hfits : (frame w.message.type body).length ≤ w.buff.setMark.remaining
      · right
        obtain ⟨after, hput, hposition, -, hcapacity, hwritten⟩ :=
          w.buff.setMark.put_spec (frame w.message.type body) hfits
        change after.position = w.buff.position + _ at hposition
        have hafter : (write w.buff w.message).2 = after := by
          simp only [write, if_neg hfew, hbody, hput]
        have hframe : w.written = frame w.message.type body := by
          rw [Writing.written, hafter]
          have hpre : after.bytes.take after.position =
              w.buff.bytes.take w.buff.position ++ frame w.message.type body := hwritten
          have hdrop := congrArg (List.drop w.buff.position) hpre
          rw [List.drop_take, List.drop_left' (by rw [List.length_take]; omega)] at hdrop
          exact hdrop
        change _ ≤ w.buff.remaining at hfits
        exact ⟨body, by omega, rfl, hframe, by rw [hframe]; omega⟩
      · left
        have hput : w.buff.setMark.put (frame w.message.type body) = none := dif_neg hfits
        exact hnothing w.buff.setMark (by simp only [write, if_neg hfew, hbody, hput]) rfl

def sent (ws : List Writing) : List Writing := ws.filter fun w => w.written ≠ []

def framesOf (ws : List Writing) : List (List UInt8) := (sent ws).map Writing.written

theorem slice_wrap (f : List UInt8) : (ByteBuffer.wrap f).slice = f := by
  rw [ByteBuffer.slice]
  exact List.take_length

def writeFresh (m : Message) : Writing :=
  { message := m, buff := ByteBuffer.wrap (List.replicate MTU 0),
    capacity_eq := List.length_replicate }

def smallHeap : Heap := ⟨65536, Nat.le_refl _⟩

def receiver : Receiver :=
  { heap := smallHeap, myId := fun _ => 2, throws := fun i => i = 1 }

end Succinct.MessageWrites
