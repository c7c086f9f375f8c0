import Mathlib.Data.Fintype.Pi

/-!
The key tree of app/src/main/cpp/sync_keys.cpp. A node pointer is a value of
type Node, null included; a function that walks a tree through a pointer to
a pointer returns the tree it leaves. A failed assertion and a null pointer
dereference give none. Lengths in bits are natural numbers: no tree or
message here has one that its eight-bit field could not hold.

Left out: the context pointers, which are only handed on to the callbacks.
-/
namespace Succinct.SyncKeys

def KEY_LEN : ℕ := 8

def KEY_LEN_BITS : ℕ := 64

def PREFIX_STEP_BITS : ℕ := 1

abbrev SyncKey := Fin 8 → UInt8

structure KeyMessage where
  minPrefixLen : ℕ
  stored : Bool
  prefixLen : ℕ
  key : SyncKey
  deriving DecidableEq

inductive Node where
  | null
  | mk (message : KeyMessage) (child0 child1 : Node)
  deriving DecidableEq

def Node.child : Node → ℕ → Node
  | .null, _ => .null
  | .mk _ c0 c1, i => if i = 0 then c0 else c1

def Node.setChild (message : KeyMessage) (c0 c1 : Node) (i : ℕ) (child : Node) : Node :=
  if i = 0 then .mk message child c1 else .mk message c0 child

def keyByte (key : SyncKey) (i : ℕ) : UInt8 := if h : i < 8 then key ⟨i, h⟩ else 0

def overlapMask (bits : ℕ) : UInt8 := UInt8.ofNat (0xff00 >>> bits)

/-- Byte i of the destination: the leading prefixLen bits are copied from
the source, the remaining bits are XOR'd. In the byte of overlap the copied
bits keep what was set before. -/
def xorByte (prefixLen : ℕ) (i : Fin 8) (src dest : UInt8) : UInt8 :=
  if i.val < prefixLen / 8 then src
  else if prefixLen % 8 ≠ 0 ∧ i.val = prefixLen / 8 then
    (overlapMask (prefixLen % 8) &&& src) ||| (dest ^^^ src)
  else dest ^^^ src

def syncXor (srcKey : SyncKey) (destKey : KeyMessage) : Option KeyMessage :=
  if destKey.prefixLen < KEY_LEN_BITS then
    some { destKey with key := fun i => xorByte destKey.prefixLen i (srcKey i) (destKey.key i) }
  else none

def syncGetBits (offset len : ℕ) (key : SyncKey) : Option ℕ :=
  if len ≤ 8 ∧ offset + len < KEY_LEN_BITS then
    let startByte := offset / 8
    let context := (keyByte key startByte).toNat * 256 +
      (if startByte + 1 < KEY_LEN then (keyByte key (startByte + 1)).toNat else 0)
    some (context / 2 ^ (16 - offset % 8 - len) % 2 ^ len)
  else none

def sameBytes (a b : SyncKey) (start n : ℕ) : Bool :=
  decide (∀ i : Fin 8, start ≤ i.val → i.val < start + n → a i = b i)

/-- True when cmp_message returns zero. -/
def cmpMessage (first second : KeyMessage) : Bool :=
  let commonPrefixLen := min first.prefixLen second.prefixLen
  let firstXorBegin :=
    if first.prefixLen = KEY_LEN_BITS then first.minPrefixLen else first.prefixLen
  let secondXorBegin :=
    if second.prefixLen = KEY_LEN_BITS then second.minPrefixLen else second.prefixLen
  let xorBeginOffset := max firstXorBegin secondXorBegin
  if commonPrefixLen < xorBeginOffset then
    if commonPrefixLen ≥ 8 ∧ !sameBytes first.key second.key 0 (commonPrefixLen / 8) then false
    else
      let xorBeginByte := (xorBeginOffset + 7) / 8
      !(decide (xorBeginByte < KEY_LEN) &&
        !sameBytes first.key second.key xorBeginByte (KEY_LEN - xorBeginByte))
  else sameBytes first.key second.key 0 KEY_LEN

def xorChildren : Node → KeyMessage → Option KeyMessage
  | .null, dest => some dest
  | .mk message c0 c1, dest =>
    if message.prefixLen = KEY_LEN_BITS then syncXor message.key dest
    else do
      let dest ← xorChildren c0 dest
      xorChildren c1 dest

def leafNode (key : SyncKey) (minPrefixLen : ℕ) (stored : Bool) : Node :=
  .mk { minPrefixLen := minPrefixLen, stored := stored, prefixLen := KEY_LEN_BITS, key := key }
    .null .null

def addLoop (key : SyncKey) (stored : Bool) : ℕ → Node → ℕ → ℕ → Option Node
  | 0, _, _, _ => none
  | _ + 1, .null, _, minPrefixLen => some (leafNode key minPrefixLen stored)
  | fuel + 1, .mk message c0 c1, prefixLen, minPrefixLen => do
    let childIndex ← syncGetBits prefixLen PREFIX_STEP_BITS key
    if message.prefixLen = prefixLen then
      let message ← syncXor key message
      let next := prefixLen + PREFIX_STEP_BITS
      let child ← addLoop key stored fuel ((Node.mk message c0 c1).child childIndex) next next
      some (Node.setChild message c0 c1 childIndex child)
    else
      let nodeChildIndex ← syncGetBits prefixLen PREFIX_STEP_BITS message.key
      if childIndex = nodeChildIndex then
        addLoop key stored fuel (.mk message c0 c1) (prefixLen + PREFIX_STEP_BITS) minPrefixLen
      else
        -- a new node represents the range of prefix bits before the mismatch
        let next := prefixLen + PREFIX_STEP_BITS
        guard (next ≤ message.prefixLen)
        let parent : KeyMessage :=
          { minPrefixLen := minPrefixLen, stored := stored, prefixLen := prefixLen,
            key := fun _ => 0 }
        let old := Node.mk { message with minPrefixLen := next } c0 c1
        let parent ← xorChildren (Node.setChild parent .null .null nodeChildIndex old) parent
        addLoop key stored fuel (Node.setChild parent .null .null nodeChildIndex old)
          prefixLen next

/-- Each turn of the loop moves on by a bit, except for one that splits. -/
def addKey (root : Node) (key : SyncKey) (stored : Bool) : Option Node :=
  addLoop key stored (KEY_LEN_BITS + 2) root 0 0

/-- The loop of remove_key at one node pointer, and what is done to the
last parent once the leaf is freed. -/
def removeLoop (key : SyncKey) : ℕ → Node → ℕ → Option Node
  | 0, _, _ => none
  | _ + 1, .null, _ => none
  | fuel + 1, .mk message c0 c1, prefixLen =>
    if message.prefixLen = KEY_LEN_BITS then some .null
    else do
      let childIndex ← syncGetBits prefixLen PREFIX_STEP_BITS key
      if prefixLen < message.prefixLen then
        let nodeChildIndex ← syncGetBits prefixLen PREFIX_STEP_BITS message.key
        guard (childIndex = nodeChildIndex)
        removeLoop key fuel (.mk message c0 c1) (prefixLen + PREFIX_STEP_BITS)
      else
        let message ← syncXor key message
        let child ← removeLoop key fuel ((Node.mk message c0 c1).child childIndex)
          (prefixLen + PREFIX_STEP_BITS)
        match child with
        | .mk _ _ _ => some (Node.setChild message c0 c1 childIndex child)
        | .null =>
          -- this was the leaf's parent: its other child takes its place
          match (Node.mk message c0 c1).child (1 - childIndex) with
          | .null => none
          | .mk m d0 d1 => some (.mk { m with minPrefixLen := message.minPrefixLen } d0 d1)

def removeKey (root : Node) (key : SyncKey) : Option Node :=
  removeLoop key (KEY_LEN_BITS + 1) root 0

def findLoop (message : KeyMessage) : ℕ → Node → ℕ → Option Node
  | 0, _, _ => none
  | _ + 1, .null, _ => some .null
  | fuel + 1, .mk m c0 c1, prefixLen =>
    if cmpMessage m message then some (.mk m c0 c1)
    else if m.prefixLen = KEY_LEN_BITS then some .null
    else do
      let childIndex ← syncGetBits prefixLen PREFIX_STEP_BITS message.key
      if prefixLen < m.prefixLen then
        let nodeIndex ← syncGetBits prefixLen PREFIX_STEP_BITS m.key
        if nodeIndex ≠ childIndex then some .null
        else findLoop message fuel (.mk m c0 c1) (prefixLen + PREFIX_STEP_BITS)
      else
        findLoop message fuel ((Node.mk m c0 c1).child childIndex) (prefixLen + PREFIX_STEP_BITS)

/-- The search starts behind the prefix of the root, which is not compared. -/
def findMessage (node : Node) (message : KeyMessage) : Option Node :=
  match node with
  | .null => some .null
  | .mk m c0 c1 => findLoop message (KEY_LEN_BITS + 1) (.mk m c0 c1) m.prefixLen

end Succinct.SyncKeys
