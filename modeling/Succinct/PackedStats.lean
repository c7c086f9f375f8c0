import Succinct.Charset
import Succinct.RangeCodecs

/-!
The tree of letter statistics in a packed file, of forms/packed_stats.c. A
node is decoded at its address: the counts of the characters that follow a
context, and the addresses of the nodes of the longer contexts. The tree is
either loaded as a whole, or the nodes of one context are read on demand. A
context is the list of its code units, and is followed from its end.

Left out: the header of the file, the cache of its blocks, and the address of
a dummy file, which nothing sets. Outside of the file, where the source would
read past its buffer, bytes are 0.
-/
namespace Succinct.PackedStats

open Arithmetic RangeMessages RangeCodecs Charset

structure StatsHandle where
  buffer : List UInt8
  rootNodeAddress : ℕ
  totalCount : ℕ
  maximumOrder : ℕ

/-- A missing child is NULL. -/
inductive Node where
  | mk (count : ℕ) (counts : List ℕ) (children : List (Option Node))

def Node.count : Node → ℕ
  | .mk count _ _ => count

def Node.counts : Node → List ℕ
  | .mk _ counts _ => counts

def Node.child : Node → ℕ → Option Node
  | .mk _ _ children, i => children.getD i none

def toUnsigned (z : ℤ) : ℕ := (z % 0x100000000).toNat

def decodeInt (alphabetSize : ℤ) : Decoder ℤ := fun d => rangeDecodeEquiprobable d alphabetSize

/-- The probability that the next of these characters is none of those left. -/
def absent (left : ℕ) (present : ℤ) : ℕ := toUnsigned (((left - present) * 0xffffff).tdiv left)

def decodeCounts (totalCount : ℕ) : ℕ → ℤ → ℕ → Decoder (List ℕ × ℕ)
  | 0, _, progressiveCount => pure ([], progressiveCount)
  | left + 1, children, progressiveCount => do
    let countPresent ← decodeSym [absent (left + 1) children] 2
    if countPresent ≠ 0 then do
      let thisCount ← decodeInt (toInt (u32 (0x100000000 + totalCount - progressiveCount + 1)))
      let (counts, sum) ← decodeCounts totalCount left (children - 1)
        (u32 (progressiveCount + toUnsigned thisCount))
      pure (toUnsigned thisCount :: counts, sum)
    else do
      let (counts, sum) ← decodeCounts totalCount left children progressiveCount
      pure (0 :: counts, sum)

def decodeAddresses (highAddr : ℕ) : ℕ → ℤ → ℕ → Decoder (List (Option ℕ))
  | 0, _, _ => pure []
  | left + 1, storedChildren, lowAddr => do
    let addrP ← decodeSym [absent (left + 1) storedChildren] 2
    if addrP ≠ 0 then do
      let distance ← decodeInt (toInt (u32 (0x100000000 + highAddr - lowAddr + 1)))
      let childAddress := u32 (lowAddr + toUnsigned distance)
      let rest ← decodeAddresses highAddr left (storedChildren - 1) childAddress
      pure (some childAddress :: rest)
    else do
      let rest ← decodeAddresses highAddr left storedChildren lowAddr
      pure (none :: rest)

structure Stored where
  totalCount : ℕ
  counts : List ℕ
  progressiveCount : ℕ
  addresses : List (Option ℕ)

def getCompressedBytes (h : StatsHandle) (start : ℤ) : Option (List UInt8) :=
  if start < 0 ∨ h.buffer.length ≤ start then none else some (h.buffer.drop start.toNat)

def decodeNode (h : StatsHandle) (nodeAddress : ℕ) (count : ℤ) : Stored :=
  let decode : Decoder Stored := do
    let totalCount ← decodeInt (count + 1)
    let children ← decodeInt (CHARCOUNT + 1)
    let storedChildren ← decodeInt (CHARCOUNT + 1)
    let (counts, progressiveCount) ← decodeCounts (toUnsigned totalCount) CHARCOUNT children 0
    let addresses ← decodeAddresses nodeAddress CHARCOUNT storedChildren 0
    pure ⟨toUnsigned totalCount, counts, progressiveCount, addresses⟩
  (decode.run (rangeDecodePrefetch
    (decoderOn ((getCompressedBytes h (toInt nodeAddress)).getD []) (1024 * 8)))).1

def lastChar (s : List ℕ) (len : ℤ) : ℕ := s.getD (len - 1).toNat 0

/-- Where not all nodes are extracted, the last child that is not NULL takes
the place of its parent. Every call lowers len, so that fuel for the calls
down to the maximum order is enough. -/
def extractNodeAt (h : StatsHandle) (s : List ℕ) (extractAllP : Bool) :
    ℕ → ℤ → ℕ → ℤ → Option Node
  | 0, _, _, _ => none
  | fuel + 1, len, nodeAddress, count =>
    if len < -h.maximumOrder then none
    -- the first 700 bytes are the header
    else if nodeAddress < 700 then none
    else
      let stored := decodeNode h nodeAddress count
      let children := (List.range CHARCOUNT).map fun i =>
        (stored.addresses.getD i none).bind fun childAddress =>
          if extractAllP = true ∨ (0 < len ∧ chars.getD i 0 = lastChar s len) then
            extractNodeAt h s extractAllP fuel (len - 1) childAddress
              (toInt stored.progressiveCount)
          else none
      let n := Node.mk stored.totalCount stored.counts children
      some (if extractAllP then n else children.foldl (fun ret child => child.getD ret) n)

def fuelFor (h : StatsHandle) (len : ℤ) : ℕ := (len + h.maximumOrder + 1).toNat

def statsLoadTree (h : StatsHandle) : Option Node :=
  extractNodeAt h [] true (fuelFor h 0) 0 h.rootNodeAddress (toInt h.totalCount)

/-- The loop over the tree; none is an index before the array of children. -/
def walkTree (s : List ℕ) : ℕ → Node → Option Node
  | 0, n => some n
  | i + 1, n =>
    let class_ := charIdx (s.getD i 0)
    if class_ < 0 then none
    else
      match n.child class_.toNat with
      | none => some n
      | some child => walkTree s i child

def extractNode (h : StatsHandle) (tree : Option Node) (s : List ℕ) : Option Node :=
  match tree with
  | some n => walkTree s s.length n
  | none =>
    extractNodeAt h s false (fuelFor h s.length) s.length h.rootNodeAddress (toInt h.totalCount)

end Succinct.PackedStats
