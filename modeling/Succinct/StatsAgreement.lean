import Succinct.PackedStats

/-!
Nodes read on demand against the nodes of the loaded tree. The tree is walked
by the class of each character, where all digits are one class and all units
above 0x7f another; on demand, a child is read for the character that stands
for a class only. The two part where the context has another member of a
class that the tree goes on with, and characters without a class have no
place in the tree at all.
-/
namespace Succinct.StatsAgreement

open Arithmetic PackedStats Charset

/-- The nodes of the file: depth, address and the count of the parent. -/
inductive At (h : StatsHandle) : ℕ → ℕ → ℤ → Prop
  | root : At h 0 h.rootNodeAddress (toInt h.totalCount)
  | child {depth address childAddress i : ℕ} {count : ℤ} (hparent : At h depth address count)
      (hi : i < CHARCOUNT) (hstored : (decodeNode h address count).addresses.getD i none =
        some childAddress) :
      At h (depth + 1) childAddress (toInt (decodeNode h address count).progressiveCount)

def WellFormed (h : StatsHandle) : Prop :=
  ∀ depth address count, At h depth address count → depth ≤ h.maximumOrder ∧ 700 ≤ address

def SameCounts (n m : Node) : Prop := n.count = m.count ∧ n.counts = m.counts

def Agree (h : StatsHandle) (s : List ℕ) : Prop :=
  ∃ n m, extractNode h (statsLoadTree h) s = some n ∧
    extractNode h none s = some m ∧ SameCounts n m

/-- The node that is stored for the classes of the characters, as far as there
is one, has the counts of n. -/
def Alike (n : Node) (s : List ℕ) : ℕ → Node → Prop
  | 0, m => SameCounts m n
  | i + 1, m =>
    0 ≤ charIdx (s.getD i 0) ∧
      match m.child (charIdx (s.getD i 0)).toNat with
      | none => SameCounts m n
      | some child => Alike n s i child

/-- From the end of the context on, the stored nodes are met by characters that
stand for themselves. At another one, nothing is stored for its class, or only
nodes that have the same counts as the node where it is met. -/
def Direct (s : List ℕ) : ℕ → Node → Prop
  | 0, _ => True
  | i + 1, n =>
    if s.getD i 0 ∈ chars then
      match n.child (charIdx (s.getD i 0)).toNat with
      | none => True
      | some child => Direct s i child
    else
      0 ≤ charIdx (s.getD i 0) ∧
        match n.child (charIdx (s.getD i 0)).toNat with
        | none => True
        | some child => Alike n s i child

/-- The walk on demand, on the tree. -/
def plainWalk (s : List ℕ) : ℕ → Node → Node
  | 0, n => n
  | i + 1, n =>
    if s.getD i 0 ∈ chars then
      match n.child (charIdx (s.getD i 0)).toNat with
      | none => n
      | some child => plainWalk s i child
    else n

section Walks

theorem alike_iff (n : Node) (s : List ℕ) (len : ℕ) (m : Node) :
    (∃ e, walkTree s len m = some e ∧ SameCounts e n) ↔ Alike n s len m := by
  induction len generalizing m with
  | zero => simp [walkTree, Alike]
  | succ i ih =>
    rw [walkTree, Alike]
    by_cases hclass : charIdx (s.getD i 0) < 0
    · rw [if_pos hclass]
      constructor
      · rintro ⟨e, hno, -⟩
        cases hno
      · rintro ⟨hno, -⟩
        omega
    · rw [if_neg hclass, and_iff_right (by omega)]
      cases m.child (charIdx (s.getD i 0)).toNat with
      | none => simp
      | some child => exact ih child

theorem charIdx_of_mem {c : ℕ} (hc : c ∈ chars) : charIdx c = chars.idxOf c := by
  have hplain : ∀ c ∈ chars, ¬ c > 0x7f ∧ ¬ (49 ≤ c ∧ c ≤ 57) := by decide
  obtain ⟨h1, h2⟩ := hplain c hc
  rw [charIdx, if_neg h1, if_neg h2, indexIn, if_pos hc]

/-- The induction is on the length of the context: the walks go on together as
long as the characters stand for themselves. -/
theorem walks_agree_iff (s : List ℕ) (len : ℕ) (n : Node) :
    (∃ e, walkTree s len n = some e ∧ SameCounts e (plainWalk s len n)) ↔ Direct s len n := by
  induction len generalizing n with
  | zero => simp [walkTree, plainWalk, Direct, SameCounts]
  | succ i ih =>
    rw [walkTree, plainWalk, Direct]
    by_cases hmem : s.getD i 0 ∈ chars
    · have hclass : ¬ charIdx (s.getD i 0) < 0 := by
        rw [charIdx_of_mem hmem]
        omega
      rw [if_neg hclass, if_pos hmem, if_pos hmem]
      cases n.child (charIdx (s.getD i 0)).toNat with
      | none => simp [SameCounts]
      | some child => exact ih child
    · rw [if_neg hmem, if_neg hmem]
      by_cases hclass : charIdx (s.getD i 0) < 0
      · rw [if_pos hclass]
        constructor
        · rintro ⟨e, hno, -⟩
          cases hno
        · rintro ⟨hno, -⟩
          omega
      · rw [if_neg hclass, and_iff_right (by omega)]
        cases n.child (charIdx (s.getD i 0)).toNat with
        | none => simp [SameCounts]
        | some child => exact alike_iff n s i child

end Walks

section OnDemand

variable {h : StatsHandle}

/-- Of the children, at most the one for the character is extracted. -/
theorem foldl_children (f : ℕ → Option Node) (k : ℕ) (is : List ℕ)
    (hother : ∀ i ∈ is, i ≠ k → f i = none)
    (n : Node) : (is.map f).foldl (fun ret child => child.getD ret) n =
      if k ∈ is then (f k).getD n else n := by
  induction is generalizing n with
  | nil => simp
  | cons i is ih =>
    have hrest := ih (fun j hj => hother j (List.mem_cons_of_mem _ hj))
    rw [List.map_cons, List.foldl_cons, hrest]
    by_cases hik : i = k
    · subst hik
      cases f i <;> simp
    · have hnone : f i = none := hother i List.mem_cons_self hik
      have hmem : k ∈ i :: is ↔ k ∈ is := by simp [Ne.symm hik]
      rw [hnone]
      simp only [hmem, Option.getD_none]

def childrenAt (h : StatsHandle) (s : List ℕ) (extractAllP : Bool) (fuel : ℕ)
    (len : ℤ) (address : ℕ) (count : ℤ) (i : ℕ) : Option Node :=
  ((decodeNode h address count).addresses.getD i none).bind fun childAddress =>
    if extractAllP = true ∨ (0 < len ∧ chars.getD i 0 = lastChar s len) then
      extractNodeAt h s extractAllP fuel (len - 1) childAddress
        (toInt (decodeNode h address count).progressiveCount)
    else none

def nodeAt (h : StatsHandle) (s : List ℕ) (extractAllP : Bool) (fuel : ℕ) (len : ℤ) (address : ℕ)
    (count : ℤ) : Node :=
  .mk (decodeNode h address count).totalCount (decodeNode h address count).counts
    ((List.range CHARCOUNT).map (childrenAt h s extractAllP fuel len address count))

theorem extractNodeAt_succ (s : List ℕ) (extractAllP : Bool) (fuel : ℕ) (len : ℤ)
    (address : ℕ) (count : ℤ) (hlen : -(h.maximumOrder : ℤ) ≤ len) (haddress : 700 ≤ address) :
    extractNodeAt h s extractAllP (fuel + 1) len address count =
      some (if extractAllP then nodeAt h s extractAllP fuel len address count
        else ((List.range CHARCOUNT).map
          (childrenAt h s extractAllP fuel len address count)).foldl
          (fun ret child => child.getD ret) (nodeAt h s extractAllP fuel len address count)) := by
  rw [extractNodeAt, if_neg (by omega), if_neg (by omega)]
  rfl

theorem child_nodeAt (s : List ℕ) (extractAllP : Bool) (fuel : ℕ) (len : ℤ) (address : ℕ)
    (count : ℤ) {i : ℕ}
    (hi : i < CHARCOUNT) : (nodeAt h s extractAllP fuel len address count).child i =
      childrenAt h s extractAllP fuel len address count i := by
  change ((List.range CHARCOUNT).map _).getD i none = _
  rw [List.getD_eq_getElem _ _ (by rwa [List.length_map, List.length_range]), List.getElem_map,
    List.getElem_range]

theorem fuelFor_succ (len : ℤ) (hlen : -(h.maximumOrder : ℤ) ≤ len) :
    fuelFor h len = fuelFor h (len - 1) + 1 := by
  unfold fuelFor
  omega

def treeAt (h : StatsHandle) (depth address : ℕ) (count : ℤ) : Node :=
  nodeAt h [] true (fuelFor h (-depth - 1)) (-depth) address count

theorem extractNodeAt_all (hwf : WellFormed h) {depth address : ℕ} {count : ℤ}
    (hat : At h depth address count) :
    extractNodeAt h [] true (fuelFor h (-depth)) (-depth) address count =
      some (treeAt h depth address count) := by
  obtain ⟨hdepth, haddress⟩ := hwf depth address count hat
  rw [fuelFor_succ _ (by omega), extractNodeAt_succ _ _ _ _ _ _ (by omega) haddress]
  rfl

theorem child_treeAt (hwf : WellFormed h) {depth address : ℕ} {count : ℤ}
    (hat : At h depth address count)
    {i : ℕ} (hi : i < CHARCOUNT) : (treeAt h depth address count).child i =
      ((decodeNode h address count).addresses.getD i none).map fun childAddress =>
        treeAt h (depth + 1) childAddress
          (toInt (decodeNode h address count).progressiveCount) := by
  rw [treeAt, child_nodeAt _ _ _ _ _ _ hi, childrenAt]
  cases hstored : (decodeNode h address count).addresses.getD i none with
  | none => rfl
  | some childAddress =>
    have hall := extractNodeAt_all hwf (At.child hat hi hstored)
    have hlen : (-((depth + 1 : ℕ) : ℤ)) = -(depth : ℤ) - 1 := by omega
    rw [hlen] at hall
    rw [Option.bind_some, if_pos (Or.inl rfl), hall]
    rfl

theorem childrenAt_other (s : List ℕ) (fuel : ℕ) (len : ℤ) (address : ℕ) (count : ℤ) {i : ℕ}
    (hother : ¬ (0 < len ∧ chars.getD i 0 = lastChar s len)) :
    childrenAt h s false fuel len address count i = none := by
  rw [childrenAt]
  cases (decodeNode h address count).addresses.getD i none with
  | none => rfl
  | some childAddress =>
    rw [Option.bind_some, if_neg]
    rintro (hno | hsame)
    · cases hno
    · exact hother hsame

/-- On demand, a node gives the child for the last character, or itself. -/
theorem extractNodeAt_one (s : List ℕ) (len : ℕ) {address : ℕ} {count : ℤ}
    (haddress : 700 ≤ address) (k : ℕ)
    (hk : ∀ i < CHARCOUNT, i ≠ k → ¬ (0 < (len : ℤ) ∧ chars.getD i 0 = lastChar s len)) :
    extractNodeAt h s false (fuelFor h len) len address count =
      some (if k < CHARCOUNT then
          (childrenAt h s false (fuelFor h (len - 1)) len address count k).getD
            (nodeAt h s false (fuelFor h (len - 1)) len address count)
        else nodeAt h s false (fuelFor h (len - 1)) len address count) := by
  rw [fuelFor_succ _ (by omega), extractNodeAt_succ _ _ _ _ _ _ (by omega) haddress,
    foldl_children _ k _ (fun i hi hne =>
      childrenAt_other s _ _ _ _ (hk i (List.mem_range.mp hi) hne))]
  simp only [List.mem_range, Bool.false_eq_true, if_false]

theorem counts_nodeAt (s : List ℕ) (extractAllP : Bool) (fuel : ℕ) (len : ℤ)
    (address : ℕ) (count : ℤ) :
    (nodeAt h s extractAllP fuel len address count).count =
      (decodeNode h address count).totalCount ∧
      (nodeAt h s extractAllP fuel len address count).counts =
        (decodeNode h address count).counts :=
  ⟨rfl, rfl⟩

theorem sameCounts_treeAt (s : List ℕ) (fuel : ℕ) (len : ℤ) (depth address : ℕ) (count : ℤ) :
    SameCounts (nodeAt h s false fuel len address count) (treeAt h depth address count) := by
  obtain ⟨hcount, hcounts⟩ := counts_nodeAt (h := h) s false fuel len address count
  obtain ⟨hcount', hcounts'⟩ :=
    counts_nodeAt (h := h) [] true (fuelFor h (-depth - 1)) (-depth) address count
  exact ⟨hcount.trans hcount'.symm, hcounts.trans hcounts'.symm⟩

theorem chars_getD_eq_iff {c i : ℕ} (hc : c ∈ chars) (hi : i < CHARCOUNT) :
    chars.getD i 0 = c ↔ i = chars.idxOf c := by
  have hnodup : chars.Nodup := by decide
  have hlt : i < chars.length := by rwa [length_chars]
  rw [List.getD_eq_getElem _ _ hlt]
  constructor
  · rintro rfl
    exact (hnodup.idxOf_getElem i hlt).symm
  · rintro rfl
    exact List.getElem_idxOf _

theorem lastChar_succ (s : List ℕ) (len : ℕ) : lastChar s ((len + 1 : ℕ) : ℤ) = s.getD len 0 := by
  rw [lastChar]
  congr 1
  omega

/-- On demand, a character outside the alphabet ends the descent. -/
theorem extractNodeAt_unknown (s : List ℕ) (len : ℕ) {address : ℕ} {count : ℤ}
    (haddress : 700 ≤ address)
    (hmem : s.getD len 0 ∉ chars) :
    extractNodeAt h s false (fuelFor h (len + 1 : ℕ)) (len + 1 : ℕ) address count =
      some (nodeAt h s false (fuelFor h ((len + 1 : ℕ) - 1)) (len + 1 : ℕ) address count) := by
  rw [extractNodeAt_one s (len + 1) haddress CHARCOUNT, if_neg (Nat.lt_irrefl _)]
  rintro i hi - ⟨-, hchar⟩
  rw [lastChar_succ] at hchar
  apply hmem
  rw [← hchar, List.getD_eq_getElem _ _ (by rwa [length_chars])]
  exact List.getElem_mem _

/-- A character of the alphabet leads to its child, if there is one. -/
theorem extractNodeAt_known (s : List ℕ) (len : ℕ) {address : ℕ} {count : ℤ}
    (haddress : 700 ≤ address)
    (hmem : s.getD len 0 ∈ chars) :
    extractNodeAt h s false (fuelFor h (len + 1 : ℕ)) (len + 1 : ℕ) address count =
      some ((childrenAt h s false (fuelFor h ((len + 1 : ℕ) - 1)) (len + 1 : ℕ) address count
          (chars.idxOf (s.getD len 0))).getD
        (nodeAt h s false (fuelFor h ((len + 1 : ℕ) - 1)) (len + 1 : ℕ) address count)) := by
  have hk : chars.idxOf (s.getD len 0) < CHARCOUNT := by
    rw [← length_chars]
    exact List.idxOf_lt_length_of_mem hmem
  rw [extractNodeAt_one s (len + 1) haddress (chars.idxOf (s.getD len 0)), if_pos hk]
  rintro i hi hne ⟨-, hchar⟩
  rw [lastChar_succ] at hchar
  exact hne ((chars_getD_eq_iff hmem hi).mp hchar)

/-- The induction is on the length of the context that is left: on demand, a
node of the file gives what the plain walk finds in the tree below it. -/
theorem onDemand (hwf : WellFormed h) (s : List ℕ) (len : ℕ) {depth address : ℕ} {count : ℤ}
    (hat : At h depth address count) :
    ∃ m, extractNodeAt h s false (fuelFor h len) len address count = some m ∧
      SameCounts m (plainWalk s len (treeAt h depth address count)) := by
  induction len generalizing depth address count with
  | zero =>
    obtain ⟨-, haddress⟩ := hwf depth address count hat
    refine ⟨_, extractNodeAt_one s 0 haddress CHARCOUNT (fun i _ _ hno => by simp at hno), ?_⟩
    rw [if_neg (Nat.lt_irrefl _)]
    exact sameCounts_treeAt s _ _ depth address count
  | succ len ih =>
    obtain ⟨-, haddress⟩ := hwf depth address count hat
    rw [plainWalk]
    by_cases hmem : s.getD len 0 ∈ chars
    · have hk : chars.idxOf (s.getD len 0) < CHARCOUNT := by
        rw [← length_chars]
        exact List.idxOf_lt_length_of_mem hmem
      rw [if_pos hmem, charIdx_of_mem hmem, Int.toNat_natCast,
        extractNodeAt_known s len haddress hmem, child_treeAt hwf hat hk, childrenAt]
      cases hstored : (decodeNode h address count).addresses.getD
        (chars.idxOf (s.getD len 0)) none with
      | none => exact ⟨_, rfl, sameCounts_treeAt s _ _ depth address count⟩
      | some childAddress =>
        obtain ⟨m, hm, hsame⟩ := ih (At.child hat hk hstored)
        have hlen : (((len + 1 : ℕ) : ℤ) - 1) = len := by omega
        have hlast : 0 < ((len + 1 : ℕ) : ℤ) ∧
            chars.getD (chars.idxOf (s.getD len 0)) 0 = lastChar s ((len + 1 : ℕ) : ℤ) := by
          rw [lastChar_succ]
          exact ⟨by omega, (chars_getD_eq_iff hmem hk).mpr rfl⟩
        rw [Option.bind_some, if_pos (Or.inr hlast), hlen, hm]
        exact ⟨m, rfl, hsame⟩
    · rw [if_neg hmem, extractNodeAt_unknown s len haddress hmem]
      exact ⟨_, rfl, sameCounts_treeAt s _ _ depth address count⟩

theorem statsLoadTree_eq (hwf : WellFormed h) :
    statsLoadTree h = some (treeAt h 0 h.rootNodeAddress (toInt h.totalCount)) :=
  extractNodeAt_all hwf At.root

end OnDemand

/-- For a well-formed file and a context, the two ways agree exactly where the
context meets the stored nodes directly. -/
theorem agree_iff (h : StatsHandle) (hwf : WellFormed h) (s : List ℕ) :
    Agree h s ↔ ∃ tree, statsLoadTree h = some tree ∧ Direct s s.length tree := by
  have htree := statsLoadTree_eq hwf
  generalize treeAt h 0 h.rootNodeAddress (toInt h.totalCount) = tree at htree
  obtain ⟨m, hdemand, hsame⟩ := onDemand hwf s s.length At.root
  have hroot := statsLoadTree_eq hwf
  rw [htree] at hroot
  rw [← Option.some.inj hroot] at hsame
  have hnull : extractNode h none s = some m := hdemand
  have hloaded : extractNode h (some tree) s = walkTree s s.length tree := rfl
  rw [Agree, htree, hnull, hloaded]
  constructor
  · rintro ⟨n, m', hwalk, hm, hcount, hcounts⟩
    rw [← Option.some.inj hm] at hcount hcounts
    exact ⟨tree, rfl, (walks_agree_iff s s.length tree).mp
      ⟨n, hwalk, hcount.trans hsame.1, hcounts.trans hsame.2⟩⟩
  · rintro ⟨tree', htree', hdirect⟩
    rw [← Option.some.inj htree'] at hdirect
    obtain ⟨e, hwalk, hcount, hcounts⟩ := (walks_agree_iff s s.length tree).mpr hdirect
    exact ⟨e, m, hwalk, rfl, hcount.trans hsame.1.symm, hcounts.trans hsame.2.symm⟩

section Sample

def sample : StatsHandle where
  buffer := List.replicate 700 0 ++ [86, 165, 84, 171, 250, 223, 118, 83]
  rootNodeAddress := 703
  totalCount := 2
  maximumOrder := 1

theorem sample_root : (decodeNode sample 703 2).addresses =
      (List.range 65).map (fun i => if i = 62 then some 700 else none) ∧
    (decodeNode sample 703 2).progressiveCount = 2 := by decide +kernel

theorem sample_leaf : (decodeNode sample 700 2).addresses = List.replicate 65 none := by
  decide +kernel

theorem sample_wellFormed : WellFormed sample := by
  intro depth address count hat
  have hnodes : (depth = 0 ∧ address = 703 ∧ count = 2) ∨
    (depth = 1 ∧ address = 700 ∧ count = 2) := by
    induction hat with
    | root => exact Or.inl ⟨rfl, rfl, rfl⟩
    | child hparent hi hstored ih =>
      rcases ih with ⟨rfl, rfl, rfl⟩ | ⟨rfl, rfl, rfl⟩
      · rw [sample_root.1, List.getD_eq_getElem _ _ (by rwa [List.length_map, List.length_range]),
          List.getElem_map] at hstored
        rw [sample_root.2]
        split at hstored
        · exact Or.inr ⟨rfl, (Option.some.inj hstored).symm, rfl⟩
        · cases hstored
      · rw [sample_leaf, List.getD_replicate _ (by exact hi)] at hstored
        cases hstored
  rcases hnodes with ⟨rfl, rfl, -⟩ | ⟨rfl, rfl, -⟩
  · exact ⟨by decide, by decide⟩
  · exact ⟨by decide, by decide⟩

/-- The digit that stands for all of them is met directly. -/
theorem agree_zero : Agree sample [48] := by
  apply (agree_iff sample sample_wellFormed [48]).mpr
  refine ⟨_, statsLoadTree_eq sample_wellFormed, ?_⟩
  change Direct [48] 1 _
  rw [Direct, if_pos (by decide)]
  split
  · trivial
  · trivial

/-- After a five, the loaded tree gives the node of the digits, and reading on
demand the root. After a capital, the loop reads before the array of children. -/
theorem five_differs : WellFormed sample ∧
    (extractNode sample (statsLoadTree sample) [53]).map Node.count = some 1 ∧
    (extractNode sample none [53]).map Node.count = some 2 ∧ ¬ Agree sample [53] ∧
    (extractNode sample (statsLoadTree sample) [65]).map Node.count = none ∧
    ¬ Agree sample [65] := by
  have hloaded : (extractNode sample (statsLoadTree sample) [53]).map Node.count = some 1 := by
    decide +kernel
  have hread : (extractNode sample none [53]).map Node.count = some 2 := by decide +kernel
  have hcapital : (extractNode sample (statsLoadTree sample) [65]).map Node.count = none := by
    decide +kernel
  refine ⟨sample_wellFormed, hloaded, hread, ?_, hcapital, ?_⟩
  · rintro ⟨n, m, hn, hm, hcount, -⟩
    rw [hn, Option.map_some] at hloaded
    rw [hm, Option.map_some] at hread
    rw [Option.some.inj hloaded, Option.some.inj hread] at hcount
    exact absurd hcount (by decide)
  · rintro ⟨n, m, hn, -⟩
    rw [hn] at hcapital
    cases hcapital

end Sample

end Succinct.StatsAgreement
