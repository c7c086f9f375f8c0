import Succinct.ByteBuffers
import Succinct.DescendingWalks

/-!
IPInterface.java: the walk through the addresses of a subnet. The arrays of an
interface are of one length, that of the address.
-/
namespace Succinct.SubnetWalks

open ByteBuffers DescendingWalks

structure IPInterface where
  addrBytes : List UInt8
  broadcastAddrBytes : List UInt8
  prefixLength : ℕ
  nextAddr : List UInt8
  firstAddr : List UInt8
  deriving DecidableEq

/-- (byte)(0xFF00 >> p). -/
def maskByte (p : ℕ) : UInt8 := UInt8.ofNat (0xFF00 / 2 ^ p)

def firstBytes : ℕ → List UInt8 → List UInt8
  | _, [] => []
  | p, b :: rest =>
    if p ≥ 8 then b :: firstBytes (p - 8) rest
    else (if p > 0 then b &&& maskByte p else 0) :: List.replicate rest.length 0

def isAddress (bytes : List UInt8) : Bool := bytes.length = 4 || bytes.length = 16

/-- None is an exception. -/
def newIPInterface (addr broadcast : List UInt8) (prefixLength : ℕ) : Option IPInterface :=
  if prefixLength > 8 * addr.length ∨ !isAddress addr ∨ !isAddress broadcast then none
  else some ⟨addr, broadcast, prefixLength, addr, firstBytes prefixLength addr⟩

def decrFrom : List UInt8 → List UInt8
  | [] => []
  | b :: rest => (b - 1) :: if b = 0 then decrFrom rest else rest

def decr (bytes : List UInt8) : List UInt8 := (decrFrom bytes.reverse).reverse

def nextAddress (ip : IPInterface) : IPInterface × List UInt8 :=
  let next := decr ip.nextAddr
  let next :=
    if next = ip.firstAddr then decr (ip.broadcastAddrBytes.take ip.nextAddr.length) else next
  let next := if next = ip.addrBytes then decr next else next
  ({ ip with nextAddr := next }, next)

def samePrefix : ℕ → List UInt8 → List UInt8 → Bool
  | len, t :: test, a :: addr =>
    if len > 8 then t = a && samePrefix (len - 8) test addr
    else if len > 0 then t &&& maskByte len = a &&& maskByte len
    else true
  | _, _, _ => true

def isInSubnet (ip : IPInterface) (test : List UInt8) : Bool :=
  test.length = ip.addrBytes.length && samePrefix ip.prefixLength test ip.addrBytes

def address (ip : IPInterface) (calls : ℕ) : List UInt8 :=
  (nextAddress ((fun ip => (nextAddress ip).1)^[calls] ip)).2

section Numbers

theorem ofBigEndian_concat (bytes : List UInt8) (b : UInt8) :
    ofBigEndian (bytes ++ [b]) = ofBigEndian bytes * 256 + b.toNat := by
  rw [ofBigEndian, List.foldl_append]
  rfl

theorem ofBigEndian_cons (b : UInt8) (rest : List UInt8) :
    ofBigEndian (b :: rest) = b.toNat * 256 ^ rest.length + ofBigEndian rest := by
  induction rest using List.reverseRecOn with
  | nil => simp [ofBigEndian]
  | append_singleton rest last ih =>
    rw [← List.cons_append, ofBigEndian_concat, ofBigEndian_concat, ih, List.length_append,
      List.length_singleton, pow_succ]
    ring

theorem ofBigEndian_injective {one two : List UInt8} (hlength : one.length = two.length)
    (h : ofBigEndian one = ofBigEndian two) : one = two := by
  induction one using List.reverseRecOn generalizing two with
  | nil => exact (List.length_eq_zero_iff.mp hlength.symm).symm
  | append_singleton rest last ih =>
    rcases List.eq_nil_or_concat two with rfl | ⟨rest', last', rfl⟩
    · simp at hlength
    · rw [List.concat_eq_append] at hlength h ⊢
      rw [ofBigEndian_concat, ofBigEndian_concat] at h
      have hlast := last.toNat_lt
      have hlast' := last'.toNat_lt
      have hrest : rest = rest' := ih (by simpa using hlength) (by omega)
      have hbyte : last = last' := UInt8.toNat_inj.mp (by rw [hrest] at h; omega)
      rw [hrest, hbyte]

theorem length_decr (bytes : List UInt8) : (decr bytes).length = bytes.length := by
  have hfrom : ∀ l : List UInt8, (decrFrom l).length = l.length := by
    intro l
    induction l with
    | nil => rfl
    | cons b rest ih =>
      rw [decrFrom, List.length_cons, List.length_cons]
      split
      · rw [ih]
      · rfl
  rw [decr, List.length_reverse, hfrom, List.length_reverse]

/-- The borrow goes from byte to byte. -/
theorem ofBigEndian_decrFrom (l : List UInt8) (hpos : 0 < ofBigEndian l.reverse) :
    ofBigEndian (decrFrom l).reverse = ofBigEndian l.reverse - 1 := by
  induction l with
  | nil => exact absurd hpos (lt_irrefl 0)
  | cons b rest ih =>
    rw [List.reverse_cons, ofBigEndian_concat] at hpos ⊢
    rw [decrFrom, List.reverse_cons, ofBigEndian_concat]
    by_cases hzero : b = 0
    · subst hzero
      have hbyte : (0 - 1 : UInt8).toNat = 255 := rfl
      have hnull : (0 : UInt8).toNat = 0 := rfl
      rw [if_pos rfl, ih (by omega), hbyte]
      omega
    · have hbyte : b.toNat ≠ 0 := fun h => hzero (UInt8.toNat_inj.mp h)
      have hone : (1 : UInt8) ≤ b := UInt8.le_iff_toNat_le.mpr (Nat.one_le_iff_ne_zero.mpr hbyte)
      have hnext : (b - 1).toNat = b.toNat - 1 := UInt8.toNat_sub_of_le b 1 hone
      rw [if_neg hzero, hnext]
      omega

theorem ofBigEndian_decr {bytes : List UInt8} (hpos : 0 < ofBigEndian bytes) :
    ofBigEndian (decr bytes) = ofBigEndian bytes - 1 := by
  rw [decr, ofBigEndian_decrFrom _ (by rw [List.reverse_reverse]; exact hpos),
    List.reverse_reverse]

theorem toNat_maskByte : ∀ p ≤ 8, ∀ n < 256, (UInt8.ofNat n &&& maskByte p).toNat =
    n / 2 ^ (8 - p) * 2 ^ (8 - p) := by
  decide +kernel

theorem toNat_and_maskByte (b : UInt8) {p : ℕ} (hp : p ≤ 8) :
    (b &&& maskByte p).toNat = b.toNat / 2 ^ (8 - p) * 2 ^ (8 - p) := by
  have hmask := toNat_maskByte p hp b.toNat b.toNat_lt
  rwa [UInt8.ofNat_toNat] at hmask

theorem pow_bytes (m : ℕ) : 256 ^ m = 2 ^ (8 * m) := by
  rw [pow_mul]
  rfl

/-- The bits of a number in front of the last ones, of which some are in the last bytes. -/
theorem front_bits {a v k m : ℕ} (hk : k ≤ m) :
    (a * 2 ^ m + v) / 2 ^ k = a * 2 ^ (m - k) + v / 2 ^ k := by
  have hpow : a * 2 ^ m = a * 2 ^ (m - k) * 2 ^ k := by
    rw [Nat.mul_assoc, ← pow_add, Nat.sub_add_cancel hk]
  rw [hpow, Nat.add_comm, Nat.add_mul_div_right _ _ (Nat.two_pow_pos k), Nat.add_comm]

/-- The bits of a number in front of the last bytes and of some bits more. -/
theorem front_byte {a v k m : ℕ} (hv : v < 2 ^ m) :
    (a * 2 ^ m + v) / 2 ^ (m + k) = a / 2 ^ k := by
  rw [pow_add, ← Nat.div_div_eq_div_mul, Nat.add_comm,
    Nat.add_mul_div_right _ _ (Nat.two_pow_pos m), Nat.div_eq_of_lt hv, Nat.zero_add]

theorem ofBigEndian_replicate (m : ℕ) : ofBigEndian (List.replicate m 0) = 0 := by
  induction m with
  | zero => rfl
  | succ m ih =>
    rw [List.replicate_succ, ofBigEndian_cons, ih]
    exact Nat.zero_mul _

theorem length_firstBytes (p : ℕ) (l : List UInt8) : (firstBytes p l).length = l.length := by
  induction l generalizing p with
  | nil => rw [firstBytes]
  | cons b rest ih =>
    rw [firstBytes]
    split
    · rw [List.length_cons, ih, List.length_cons]
    · rw [List.length_cons, List.length_replicate, List.length_cons]

/-- The network of an address, as a number. -/
theorem ofBigEndian_firstBytes {p : ℕ} {l : List UInt8} (hp : p ≤ 8 * l.length) :
    ofBigEndian (firstBytes p l) =
      ofBigEndian l / 2 ^ (8 * l.length - p) * 2 ^ (8 * l.length - p) := by
  induction l generalizing p with
  | nil =>
    obtain rfl := Nat.le_zero.mp hp
    rfl
  | cons b rest ih =>
    have hrest := ofBigEndian_lt rest
    rw [List.length_cons] at hp
    rw [firstBytes, ofBigEndian_cons b rest, List.length_cons]
    rw [pow_bytes] at hrest ⊢
    by_cases hfull : p ≥ 8
    · have hbits : 8 * (rest.length + 1) - p = 8 * rest.length - (p - 8) := by omega
      have hle : 8 * rest.length - (p - 8) ≤ 8 * rest.length := Nat.sub_le _ _
      rw [if_pos hfull, ofBigEndian_cons, ih (by omega), length_firstBytes, pow_bytes, hbits,
        front_bits hle, Nat.add_mul, Nat.mul_assoc b.toNat, ← pow_add, Nat.sub_add_cancel hle]
    · have hbits : 8 * (rest.length + 1) - p = 8 * rest.length + (8 - p) := by omega
      have hbyte : (if p > 0 then b &&& maskByte p else 0).toNat =
        b.toNat / 2 ^ (8 - p) * 2 ^ (8 - p) := by
        by_cases hzero : p > 0
        · rw [if_pos hzero]
          exact toNat_and_maskByte b (by omega)
        · rw [if_neg hzero]
          obtain rfl := Nat.eq_zero_of_not_pos hzero
          rw [Nat.div_eq_of_lt b.toNat_lt, Nat.zero_mul]
          rfl
      rw [if_neg hfull, ofBigEndian_cons, hbyte, List.length_replicate,
        ofBigEndian_replicate, pow_bytes, hbits, front_byte hrest, pow_add]
      ring

theorem digits_iff {b x x' y y' : ℕ} (hy : y < b) (hy' : y' < b) : x * b + y = x' * b + y' ↔
    x = x' ∧ y = y' := by
  constructor
  · intro h
    have hpos : 0 < b := Nat.zero_lt_of_lt hy
    have hdiv : (b * x + y) / b = (b * x' + y') / b := by
      rw [Nat.mul_comm b x, h, Nat.mul_comm b x']
    rw [Nat.mul_add_div hpos, Nat.mul_add_div hpos, Nat.div_eq_of_lt hy,
      Nat.div_eq_of_lt hy', Nat.add_zero, Nat.add_zero] at hdiv
    refine ⟨hdiv, ?_⟩
    rw [hdiv] at h
    exact Nat.add_left_cancel h
  · rintro ⟨rfl, rfl⟩
    rfl

theorem and_maskByte_eq_iff (t a : UInt8) {p : ℕ} (hp : p ≤ 8) :
    t &&& maskByte p = a &&& maskByte p ↔ t.toNat / 2 ^ (8 - p) = a.toNat / 2 ^ (8 - p) := by
  rw [← UInt8.toNat_inj, toNat_and_maskByte t hp, toNat_and_maskByte a hp]
  exact Nat.mul_left_inj (Nat.two_pow_pos _).ne'

/-- Two addresses with the same first bits. -/
theorem samePrefix_iff {p : ℕ} {one two : List UInt8} (hlength : one.length = two.length)
    (hp : p ≤ 8 * one.length) : samePrefix p one two = true ↔
      ofBigEndian one / 2 ^ (8 * one.length - p) =
        ofBigEndian two / 2 ^ (8 * one.length - p) := by
  induction one generalizing p two with
  | nil =>
    obtain rfl := List.length_eq_zero_iff.mp hlength.symm
    exact iff_of_true rfl rfl
  | cons t test ih =>
    cases two with
    | nil => cases hlength
    | cons a addr =>
      have hlength' : test.length = addr.length := Nat.succ_injective hlength
      have htest := ofBigEndian_lt test
      have haddr := ofBigEndian_lt addr
      rw [← hlength'] at haddr
      rw [List.length_cons] at hp
      rw [samePrefix, ofBigEndian_cons t test, ofBigEndian_cons a addr,
        List.length_cons, ← hlength']
      rw [pow_bytes] at htest haddr ⊢
      by_cases hmore : p > 8
      · have hbits : 8 * (test.length + 1) - p = 8 * test.length - (p - 8) := by omega
        have hle : 8 * test.length - (p - 8) ≤ 8 * test.length := Nat.sub_le _ _
        have hbelow : ∀ v < 2 ^ (8 * test.length), v / 2 ^ (8 * test.length - (p - 8)) <
            2 ^ (8 * test.length - (8 * test.length - (p - 8))) := by
          intro v hv
          rw [Nat.div_lt_iff_lt_mul (Nat.two_pow_pos _), ← pow_add, Nat.sub_add_cancel hle]
          exact hv
        rw [if_pos hmore, Bool.and_eq_true, decide_eq_true_eq, ih hlength' (by omega), hbits,
          front_bits hle, front_bits hle,
          digits_iff (hbelow _ htest) (hbelow _ haddr), UInt8.toNat_inj]
      · have hbits : 8 * (test.length + 1) - p = 8 * test.length + (8 - p) := by omega
        rw [if_neg hmore, hbits, front_byte htest, front_byte haddr]
        by_cases hsome : p > 0
        · rw [if_pos hsome, decide_eq_true_eq, and_maskByte_eq_iff t a (by omega)]
        · obtain rfl := Nat.eq_zero_of_not_pos hsome
          rw [if_neg hsome, Nat.div_eq_of_lt t.toNat_lt, Nat.div_eq_of_lt a.toNat_lt]
          exact iff_of_true rfl rfl

end Numbers

def network (addr : List UInt8) (p : ℕ) : ℕ := ofBigEndian addr / 2 ^ (32 - p) * 2 ^ (32 - p)

/-- An IPv4 host address of a network of at least four addresses, the last of which is
the broadcast address. -/
structure Host (addr broadcast : List UInt8) (p : ℕ) : Prop where
  length : addr.length = 4
  longest : 1 ≤ p
  shortest : p ≤ 30
  low : network addr p < ofBigEndian addr
  high : ofBigEndian addr < ofBigEndian broadcast
  broadcastLength : broadcast.length = 4
  last : ofBigEndian broadcast = network addr p + (2 ^ (32 - p) - 1)

structure Visitable (ip : IPInterface) (a : List UInt8) : Prop where
  inside : isInSubnet ip a = true
  notNetwork : ofBigEndian a ≠ network ip.addrBytes ip.prefixLength
  notBroadcast : a ≠ ip.broadcastAddrBytes
  notOwn : a ≠ ip.addrBytes

/-- Every call returns an address to be visited, and so many calls in a row return each
of these once. -/
def Scans (ip : IPInterface) : Prop :=
  (∀ k, Visitable ip (address ip k)) ∧
    ∀ k, ((List.range (2 ^ (32 - ip.prefixLength) - 3)).map fun i => address ip (k + i)).Nodup ∧
      ∀ a, Visitable ip a → a ∈ (List.range (2 ^ (32 - ip.prefixLength) - 3)).map
        fun i => address ip (k + i)

section Walks

variable {addr broadcast : List UInt8} {p : ℕ} {ip : IPInterface} (h : Host addr broadcast p)
  (hip : newIPInterface addr broadcast p = some ip)

structure At (addr broadcast : List UInt8) (p : ℕ) (ip : IPInterface) (v : ℕ) : Prop where
  addr_eq : ip.addrBytes = addr
  broadcast_eq : ip.broadcastAddrBytes = broadcast
  prefix_eq : ip.prefixLength = p
  first_eq : ip.firstAddr = firstBytes p addr
  length : ip.nextAddr.length = 4
  value : ofBigEndian ip.nextAddr = v

include h

theorem Host.first : ofBigEndian (firstBytes p addr) = network addr p := by
  have hp := h.shortest
  rw [ofBigEndian_firstBytes (by rw [h.length]; omega), h.length]
  rfl

/-- The addresses of a subnet are numbers in a row. -/
theorem Host.subnet_iff {v : ℕ} : v / 2 ^ (32 - p) = ofBigEndian addr / 2 ^ (32 - p) ↔
    network addr p ≤ v ∧ v ≤ ofBigEndian broadcast := by
  have hpos : 0 < 2 ^ (32 - p) := Nat.two_pow_pos _
  rw [h.last, network, Nat.div_eq_iff hpos]
  omega

theorem Host.cycle_eq : cycle (network addr p) (ofBigEndian broadcast) = 2 ^ (32 - p) - 3 := by
  rw [cycle, h.last]
  omega

theorem Host.cycle_pos : 0 < cycle (network addr p) (ofBigEndian broadcast) := by
  have hshort := h.shortest
  have hcycle := h.cycle_eq
  have hpow : 2 ^ 2 ≤ 2 ^ (32 - p) := Nat.pow_le_pow_right (by omega) (by omega)
  omega

omit h in
theorem At.next_length {v : ℕ} (hat : At addr broadcast p ip v) :
    (decr ip.nextAddr).length = 4 := by
  rw [length_decr, hat.length]

/-- A call is a step of the walk. -/
theorem Host.step {v : ℕ} (hpos : 0 < v) (hat : At addr broadcast p ip v) :
    At addr broadcast p (nextAddress ip).1
      (walkStep (network addr p) (ofBigEndian addr) (ofBigEndian broadcast) v) := by
  have hlow := h.low
  have hhigh := h.high
  have hvalue : ofBigEndian (decr ip.nextAddr) = v - 1 := by
    rw [ofBigEndian_decr (by rw [hat.value]; exact hpos), hat.value]
  have hfirst : decr ip.nextAddr = ip.firstAddr ↔ v - 1 = network addr p := by
    rw [hat.first_eq, ← hvalue, ← h.first]
    refine ⟨congrArg ofBigEndian, ofBigEndian_injective ?_⟩
    rw [hat.next_length, length_firstBytes, h.length]
  have hlast : decr (ip.broadcastAddrBytes.take ip.nextAddr.length) = decr broadcast := by
    rw [hat.broadcast_eq, hat.length, List.take_of_length_le h.broadcastLength.le]
  -- the address behind the first test
  obtain ⟨next, hnext, hlength, hbelow⟩ : ∃ next : List UInt8,
      (if decr ip.nextAddr = ip.firstAddr
        then decr (ip.broadcastAddrBytes.take ip.nextAddr.length)
        else decr ip.nextAddr) = next ∧ next.length = 4 ∧
      ofBigEndian next = if v - 1 = network addr p then ofBigEndian broadcast - 1 else v - 1 := by
    by_cases hcase : v - 1 = network addr p
    · refine ⟨decr broadcast, ?_, ?_, ?_⟩
      · rw [if_pos (hfirst.mpr hcase), hlast]
      · rw [length_decr, h.broadcastLength]
      · rw [if_pos hcase, ofBigEndian_decr (by omega)]
    · exact ⟨decr ip.nextAddr, if_neg fun heq =>
        hcase (hfirst.mp heq), hat.next_length, by rw [if_neg hcase, hvalue]⟩
  have hown : next = ip.addrBytes ↔ ofBigEndian next = ofBigEndian addr := by
    rw [hat.addr_eq]
    exact ⟨congrArg ofBigEndian, ofBigEndian_injective (hlength.trans h.length.symm)⟩
  refine ⟨hat.addr_eq, hat.broadcast_eq, hat.prefix_eq, hat.first_eq, ?_, ?_⟩
  · change (if (if _ then _ else _) = ip.addrBytes then decr _ else _ : List UInt8).length = 4
    rw [hnext]
    split
    · rw [length_decr, hlength]
    · exact hlength
  · change ofBigEndian (if (if _ then _ else _) = ip.addrBytes
      then decr _ else _ : List UInt8) = _
    rw [hnext, walkStep, ← hbelow]
    by_cases hcase : ofBigEndian next = ofBigEndian addr
    · rw [if_pos (hown.mpr hcase), if_pos hcase, ofBigEndian_decr (by omega)]
    · rw [if_neg fun heq => hcase (hown.mp heq), if_neg hcase]

include hip

theorem Host.start : At addr broadcast p ip (ofBigEndian addr) := by
  rw [newIPInterface] at hip
  split at hip
  · cases hip
  · obtain rfl := Option.some.inj hip
    exact ⟨rfl, rfl, rfl, rfl, h.length, rfl⟩

/-- The interface behind so many calls, as long as the walk does not come to 0. -/
theorem Host.iterate {k : ℕ}
    (hpos : ∀ j < k, 0 < (walkStep (network addr p) (ofBigEndian addr)
      (ofBigEndian broadcast))^[j] (ofBigEndian addr)) :
    At addr broadcast p ((fun ip => (nextAddress ip).1)^[k] ip)
      ((walkStep (network addr p) (ofBigEndian addr) (ofBigEndian broadcast))^[k]
        (ofBigEndian addr)) := by
  induction k with
  | zero => exact h.start hip
  | succ k ih =>
    rw [Function.iterate_succ_apply', Function.iterate_succ_apply']
    exact h.step (hpos k (Nat.lt_succ_self k)) (ih fun j hj => hpos j (Nat.lt_succ_of_lt hj))

/-- The address that a call returns. -/
theorem Host.address {k : ℕ}
    (hpos : ∀ j ≤ k, 0 < (walkStep (network addr p) (ofBigEndian addr)
      (ofBigEndian broadcast))^[j] (ofBigEndian addr)) :
    (address ip k).length = 4 ∧ ofBigEndian (address ip k) =
      (walkStep (network addr p) (ofBigEndian addr) (ofBigEndian broadcast))^[k + 1]
        (ofBigEndian addr) := by
  have hat := h.iterate hip (k := k + 1) fun j hj => hpos j (Nat.le_of_lt_succ hj)
  rw [Function.iterate_succ_apply'] at hat
  exact ⟨hat.length, hat.value⟩

theorem Host.visitable_iff {a : List UInt8} : Visitable ip a ↔
    a.length = 4 ∧ network addr p < ofBigEndian a ∧
    ofBigEndian a < ofBigEndian broadcast ∧ ofBigEndian a ≠ ofBigEndian addr := by
  have hp := h.shortest
  obtain ⟨haddr, hbroadcast, hwidth, -, -, -⟩ := h.start hip
  have hinside : isInSubnet ip a = true ↔
      a.length = 4 ∧ network addr p ≤ ofBigEndian a ∧ ofBigEndian a ≤ ofBigEndian broadcast := by
    rw [isInSubnet, haddr, hwidth, h.length, Bool.and_eq_true, decide_eq_true_eq,
      and_congr_right_iff]
    intro hlength
    rw [samePrefix_iff (hlength.trans h.length.symm) (by rw [hlength]; omega), hlength]
    exact h.subnet_iff
  have hequal : ∀ b : List UInt8, b.length = 4 → a.length = 4 →
    (a ≠ b ↔ ofBigEndian a ≠ ofBigEndian b) :=
    fun b hb ha => not_congr ⟨congrArg ofBigEndian, ofBigEndian_injective (ha.trans hb.symm)⟩
  constructor
  · rintro ⟨hin, hnetwork, hlast, hown⟩
    obtain ⟨hlength, hle, hge⟩ := hinside.mp hin
    rw [haddr, hwidth] at hnetwork
    rw [hbroadcast, hequal broadcast h.broadcastLength hlength] at hlast
    rw [haddr, hequal addr h.length hlength] at hown
    exact ⟨hlength, by omega, by omega, hown⟩
  · rintro ⟨hlength, hlow, hhigh, hown⟩
    refine ⟨hinside.mpr ⟨hlength, hlow.le, hhigh.le⟩, ?_, ?_, ?_⟩
    · rw [haddr, hwidth]
      exact hlow.ne'
    · rw [hbroadcast, hequal broadcast h.broadcastLength hlength]
      exact hhigh.ne
    · rw [haddr, hequal addr h.length hlength]
      exact hown

/-- From the first address behind the network address the walk comes back to the own one. -/
theorem Host.not_scans (hfirst : ofBigEndian addr = network addr p + 1) : ¬ Scans ip := by
  rintro ⟨hall, -⟩
  have hlow := h.low
  have hroom := h.cycle_pos
  have hpos : ∀ j ≤ cycle (network addr p) (ofBigEndian broadcast),
      0 < (walkStep (network addr p) (ofBigEndian addr) (ofBigEndian broadcast))^[j]
        (ofBigEndian addr) := by
    intro j hj
    cases j with
    | zero => exact Nat.zero_lt_of_lt hlow
    | succ j =>
      rw [iterate_from_lowest hfirst hj]
      rw [cycle] at hj
      omega
  have hreturned := (h.address hip hpos).2
  rw [iterate_to_first hfirst hroom] at hreturned
  have hvisitable :=
    (h.visitable_iff hip).mp (hall (cycle (network addr p) (ofBigEndian broadcast)))
  omega

theorem Host.scans (hne : ofBigEndian addr ≠ network addr p + 1) : Scans ip := by
  have hlow := h.low
  have hroom := h.cycle_pos
  have hwidth : ip.prefixLength = p := (h.start hip).prefix_eq
  have hbetween : Between (network addr p) (ofBigEndian addr) (ofBigEndian broadcast) :=
    ⟨by omega, h.high, hroom⟩
  have hpos : ∀ j, 0 < (walkStep (network addr p) (ofBigEndian addr) (ofBigEndian broadcast))^[j]
      (ofBigEndian addr) := by
    intro j
    cases j with
    | zero => exact Nat.zero_lt_of_lt hlow
    | succ j =>
      rw [iterate_walkStep hbetween]
      exact Nat.zero_lt_of_lt (place_between hbetween (Nat.mod_lt j hroom)).1
  have haddress := fun k => h.address hip (k := k) fun j _ => hpos j
  refine ⟨?_, ?_⟩
  · intro k
    obtain ⟨hlength, hvalue⟩ := haddress k
    rw [h.visitable_iff hip, hvalue, iterate_walkStep hbetween]
    exact ⟨hlength, place_between hbetween (Nat.mod_lt k hroom)⟩
  · intro k
    rw [hwidth, ← h.cycle_eq]
    refine ⟨?_, ?_⟩
    · have hnodup := window_nodup hbetween k
      refine List.Nodup.of_map ofBigEndian ?_
      rw [List.map_map]
      convert hnodup using 2
      funext i
      exact (haddress (k + i)).2
    · intro a ha
      obtain ⟨hlength, hfirst, hlast, hown⟩ := (h.visitable_iff hip).mp ha
      obtain ⟨i, hi, hvalue⟩ := mem_window hbetween k hfirst hlast hown
      refine List.mem_map.mpr ⟨i, List.mem_range.mpr hi, ?_⟩
      obtain ⟨hlength', hvalue'⟩ := haddress (k + i)
      exact ofBigEndian_injective (hlength'.trans hlength.symm) (hvalue'.trans hvalue)

end Walks

/-- The walk stays in the subnet and comes to every address where the address of the
interface is not the first one behind the network address. -/
theorem scans_iff (addr broadcast : List UInt8) (p : ℕ) (ip : IPInterface)
    (h : Host addr broadcast p)
    (hip : newIPInterface addr broadcast p = some ip) : Scans ip ↔
    ofBigEndian addr ≠ network addr p + 1 :=
  ⟨fun hscans hfirst => h.not_scans hip hfirst hscans, h.scans hip⟩

/-- The interface of the test of the source. -/
theorem scans_iff_test :
    Scans ⟨[192, 168, 100, 185], [192, 168, 101, 255], 23, [192, 168, 100, 185],
      [192, 168, 100, 0]⟩ ↔
    ofBigEndian [192, 168, 100, 185] ≠ network [192, 168, 100, 185] 23 + 1 :=
  scans_iff [192, 168, 100, 185] [192, 168, 101, 255] 23 _
    ⟨rfl, by decide, by decide, by decide, by decide, rfl, by decide⟩ (by decide)

/-- A network of two hosts: the second call returns its address. -/
theorem lowest_host_escapes : ¬ ∀ (addr broadcast : List UInt8) (p : ℕ) (ip : IPInterface),
    Host addr broadcast p → newIPInterface addr broadcast p = some ip → Scans ip := by
  intro h
  have hscans :=
    h [10, 0, 0, 1] [10, 0, 0, 3] 30
      ⟨[10, 0, 0, 1], [10, 0, 0, 3], 30, [10, 0, 0, 1], [10, 0, 0, 0]⟩
    ⟨rfl, by decide, by decide, by decide, by decide, rfl, by decide⟩ (by decide)
  exact (hscans.1 1).notNetwork (by decide)

end Succinct.SubnetWalks
