import Succinct.RecordRefinement

/-!
File blocks that arrive duplicated, overlapping or out of order. As long as
every block is cut from the same bytes, what a RecordStore has on disk is
always a prefix of them, whatever its transfers commit or roll back.
-/
namespace Succinct.ReceivedBlocks

open NativeStore RecordStore RecordRefinement ByteBuffers

inductive Event where
  | block (offset length : ℕ) (commits : Bool)
  | setTranfer (transfer : PeerTransfer)
  | cancel (transfer : PeerTransfer)

def cut (D : List UInt8) (offset length : ℕ) : List UInt8 := (D.drop offset).take length

def Event.Within (D : List UInt8) : Event → Prop
  | .block offset length _ => offset + length ≤ D.length
  | _ => True

def receive (D : List UInt8) (s : Store) : Event → Store
  | .block offset length commits => (appendAt s offset (cut D offset length) commits).store
  | .setTranfer transfer => setTranfer s transfer
  | .cancel transfer => cancel s transfer

def receiveAll (D : List UInt8) (s : Store) (events : List Event) : Store :=
  events.foldl (receive D) s

/-- appendAt before the possible flush. -/
def stored (s : Store) (fileOffset : ℤ) (bytes : List UInt8) : Call :=
  append s bytes (toInt (s.appendOffset - fileOffset))
    (toInt (bytes.length - toInt (s.appendOffset - fileOffset)))

theorem length_cut (D : List UInt8) (offset length : ℕ) (h : offset + length ≤ D.length) :
    (cut D offset length).length = length := by
  rw [cut, List.length_take, List.length_drop]
  omega

section Block

variable {D : List UInt8} (hD : D.length < 2147483648) {s : Store} {a : AppendOnly}
  (hs : Mirrors s a) (hstart : a.committed ++ a.pending <+: D)

include hs hstart

theorem offset_le : s.appendOffset ≤ D.length := by
  rw [hs.offset_eq]
  exact hstart.length_le

include hD

/-- A block behind the end of what is stored. -/
theorem stored_old (o n : ℕ) (hcut : o + n ≤ D.length) (hold : o + n ≤ s.appendOffset) :
    stored s o (cut D o n) = ⟨true, [], s⟩ := by
  have hle := offset_le hs hstart
  rw [stored, length_cut D o n hcut, toInt_small _ (by omega) (by omega),
    toInt_small _ (by omega) (by omega), append, if_pos (by omega)]

/-- A block that begins in what is stored, or right after it, and goes on. -/
theorem stored_new (o n : ℕ) (hcut : o + n ≤ D.length) (hle : o ≤ s.appendOffset)
    (hlt : s.appendOffset < o + n) :
    ∃ data, stored s o (cut D o n) = ⟨true, [.append data],
        { s with disk := writeAt s.disk s.appendOffset data
                 appendOffset := o + n
                 file := fileAppend s.file data }⟩ ∧
      a.committed ++ a.pending ++ data = D.take (o + n) := by
  have hmax := offset_le hs hstart
  have hoffset := hs.offset_eq
  refine ⟨(D.drop s.appendOffset).take (o + n - s.appendOffset), ?_, ?_⟩
  · have hdata : ((cut D o n).drop ((s.appendOffset : ℤ) - o).toNat).take
        ((n : ℤ) - (s.appendOffset - o)).toNat =
          (D.drop s.appendOffset).take (o + n - s.appendOffset) := by
      rw [cut, List.drop_take, List.drop_drop, List.take_take]
      congr 1
      · omega
      · congr 1
        omega
    have hlen : ((D.drop s.appendOffset).take (o + n - s.appendOffset)).length =
        o + n - s.appendOffset := by
      rw [List.length_take, List.length_drop]
      omega
    have hend : s.appendOffset + (o + n - s.appendOffset) = o + n := by omega
    rw [stored, length_cut D o n hcut, toInt_small (s.appendOffset - o) (by omega) (by omega),
      toInt_small _ (by omega) (by omega), append, if_neg (by omega),
      if_neg (by rw [length_cut D o n hcut]; omega)]
    simp only [hdata, hlen, hend]
  · obtain ⟨rest, hrest⟩ := hstart
    have hdrop : D.drop s.appendOffset = rest := by
      rw [← hrest, hoffset, List.drop_left]
    have hpart : D.take s.appendOffset = a.committed ++ a.pending := by
      rw [← hrest, hoffset, List.take_left]
    rw [← hpart, ← List.take_add]
    congr 1
    omega

end Block

def Holding (D : List UInt8) (s : Store) : Prop :=
  ∃ a, Mirrors s a ∧ a.committed ++ a.pending <+: D

theorem apply_flush_prefix {D : List UInt8} {a : AppendOnly} (h : a.committed ++ a.pending <+: D)
    (expectedHash : Option (List UInt8)) (ret : ℤ) :
    (a.apply (.flush expectedHash ret)).committed ++ (a.apply (.flush expectedHash ret)).pending
      <+: D := by
  rw [AppendOnly.apply]
  split
  · rw [List.append_nil]
    exact h
  · rw [List.append_nil]
    exact (List.prefix_append _ _).trans h

theorem finishTransfer_holding {D : List UInt8} {s : Store} (h : Holding D s) (commits : Bool) :
    Holding D (finishTransfer s commits).store := by
  obtain ⟨a, hs, hstart⟩ := h
  have hafter := finishTransfer_mirrors hs commits
  refine ⟨_, hafter, ?_⟩
  rcases finishTransfer_ends hs commits with heffects | ⟨expectedHash, ret, heffects, -⟩
  · rw [heffects]
    exact hstart
  · rw [heffects]
    exact apply_flush_prefix hstart expectedHash ret

theorem appendAt_eq (s : Store) (fileOffset : ℤ) (bytes : List UInt8) (commits : Bool)
    (hle : fileOffset ≤ s.appendOffset)
    (hreturned : (stored s fileOffset bytes).returned = true) :
    (appendAt s fileOffset bytes commits).store =
        (finishTransfer (stored s fileOffset bytes).store commits).store ∧
      (appendAt s fileOffset bytes commits).returned =
        (finishTransfer (stored s fileOffset bytes).store commits).returned := by
  rw [appendAt, if_neg (by omega)]
  rw [stored] at hreturned ⊢
  simp only [hreturned, Bool.not_true, Bool.false_eq_true, if_false]
  exact ⟨trivial, trivial⟩

/-- What a block that is cut from D does to a store that holds a prefix of D. -/
structure Receipt (D : List UInt8) (s : Store) (o n : ℕ) (commits : Bool) : Prop where
  beyond : s.appendOffset < o →
    (appendAt s o (cut D o n) commits).returned = false ∧
      (appendAt s o (cut D o n) commits).store = s
  old : o + n ≤ s.appendOffset → (stored s o (cut D o n)).store = s
  new : o ≤ s.appendOffset → s.appendOffset < o + n →
    (stored s o (cut D o n)).store.appendOffset = o + n
  flush : o ≤ s.appendOffset →
    (stored s o (cut D o n)).returned = true ∧
      (appendAt s o (cut D o n) commits).store =
        (finishTransfer (stored s o (cut D o n)).store commits).store

section Steps

variable {D : List UInt8} (hD : D.length < 2147483648)

include hD

theorem stored_holding {s : Store} (h : Holding D s) (o n : ℕ) (hcut : o + n ≤ D.length)
    (hle : o ≤ s.appendOffset) :
    (stored s o (cut D o n)).returned = true ∧ Holding D (stored s o (cut D o n)).store := by
  obtain ⟨a, hs, hstart⟩ := h
  by_cases hold : o + n ≤ s.appendOffset
  · rw [stored_old hD hs hstart o n hcut hold]
    exact ⟨rfl, a, hs, hstart⟩
  · obtain ⟨data, hstored, hcontent⟩ := stored_new hD hs hstart o n hcut hle (by omega)
    have hmirrors := append_mirrors hs (cut D o n) (toInt (s.appendOffset - o))
      (toInt ((cut D o n).length - toInt (s.appendOffset - o)))
    change Mirrors (stored s o (cut D o n)).store
      (a.applyAll (stored s o (cut D o n)).effects) at hmirrors
    rw [hstored] at hmirrors ⊢
    refine ⟨rfl, _, hmirrors, ?_⟩
    change a.committed ++ (a.pending ++ data) <+: D
    rw [← List.append_assoc, hcontent]
    exact List.take_prefix _ _

theorem appendAt_receipt {s : Store} (h : Holding D s) (o n : ℕ) (hcut : o + n ≤ D.length)
    (commits : Bool) : Receipt D s o n commits := by
  have hflush := fun hle => stored_holding hD h o n hcut hle
  obtain ⟨a, hs, hstart⟩ := h
  refine ⟨?_, ?_, ?_, ?_⟩
  · intro hlt
    rw [appendAt, if_pos (by omega)]
    exact ⟨rfl, rfl⟩
  · intro hold
    rw [stored_old hD hs hstart o n hcut hold]
  · intro hle hlt
    obtain ⟨data, hstored, -⟩ := stored_new hD hs hstart o n hcut hle hlt
    rw [hstored]
  · intro hle
    obtain ⟨hreturned, -⟩ := hflush hle
    exact ⟨hreturned, (appendAt_eq s o _ commits (by omega) hreturned).1⟩

theorem receive_holding {s : Store} (h : Holding D s) (event : Event) (hin : event.Within D) :
    Holding D (receive D s event) := by
  cases event with
  | block o n commits =>
    have hreceipt := appendAt_receipt hD h o n hin commits
    by_cases hle : o ≤ s.appendOffset
    · rw [receive, (hreceipt.flush hle).2]
      exact finishTransfer_holding (stored_holding hD h o n hin hle).2 commits
    · rw [receive, (hreceipt.beyond (by omega)).2]
      exact h
  | setTranfer transfer =>
    obtain ⟨a, hs, hstart⟩ := h
    exact ⟨a, call_mirrors hs (.setTranfer transfer), hstart⟩
  | cancel transfer =>
    obtain ⟨a, hs, hstart⟩ := h
    exact ⟨a, call_mirrors hs (.cancel transfer), hstart⟩

theorem receiveAll_holding {s : Store} (h : Holding D s) (events : List Event)
    (hin : ∀ event ∈ events, event.Within D) : Holding D (receiveAll D s events) := by
  induction events generalizing s with
  | nil => exact h
  | cons event rest ih =>
    exact ih (receive_holding hD h event (hin event (List.mem_cons_self ..)))
      (fun x hx => hin x (List.mem_cons_of_mem _ hx))

omit hD in
theorem Holding.disk {s : Store} (h : Holding D s) :
    s.appendOffset ≤ D.length ∧ s.disk.take s.appendOffset = D.take s.appendOffset := by
  obtain ⟨a, hs, hstart⟩ := h
  refine ⟨offset_le hs hstart, ?_⟩
  rw [hs.offset_eq]
  obtain ⟨rest, hrest⟩ := hs.disk
  obtain ⟨rest', hrest'⟩ := hstart
  rw [← hrest, ← hrest', List.take_left, List.take_left]

/-- A store is opened over any committed content and used in any way until it
has no pending bytes and holds a prefix of D; then blocks of D arrive. -/
theorem blocks_extend_prefix (state : DbState) (name : Name) (disk content : List UInt8)
    (hnone : state.db.files (fileKey name) = none → content = [])
    (hsome : ∀ record, state.db.files (fileKey name) = some record → Holds record content)
    (hdisk : content <+: disk) (s₀ : Store) (hopen : openStore state disk name = some s₀)
    (ops : List Op) (hpending : (run ops s₀).2.appendOffset = (run ops s₀).2.EOF)
    (hcontent : (run ops s₀).2.disk.take (run ops s₀).2.EOF = D.take (run ops s₀).2.EOF)
    (events : List Event) (hin : ∀ event ∈ events, event.Within D) (o n : ℕ)
    (hcut : o + n ≤ D.length) (commits : Bool) :
    let s := receiveAll D (run ops s₀).2 events
    s.disk.take s.appendOffset = D.take s.appendOffset ∧ Receipt D s o n commits := by
  intro s
  have hmirrors := run_mirrors ops (openStore_mirrors hopen hnone hsome hdisk)
  have hstart : Holding D (run ops s₀).2 := by
    refine ⟨_, hmirrors, ?_⟩
    have hoffset := hmirrors.offset_eq
    obtain ⟨rest, hrest⟩ := hmirrors.disk
    rw [← hpending, hoffset, ← hrest, List.take_left] at hcontent
    rw [hcontent]
    exact List.take_prefix _ _
  have hholding := receiveAll_holding hD hstart events hin
  exact ⟨hholding.disk.2, appendAt_receipt hD hholding o n hcut commits⟩

end Steps

def overlapping : List Event :=
  [.block 0 2 true, .setTranfer ⟨1, 4, [0]⟩, .block 1 3 true, .block 0 3 true]

theorem blocks_extend_prefix_new : ∃ s₀, openStore (openDb emptyDatabase) [] [0x61] = some s₀ ∧
    let s := receiveAll [1, 2, 3, 4, 5] (run [] s₀).2 overlapping
    s.disk.take s.appendOffset = [1, 2, 3, 4, 5].take s.appendOffset ∧
      Receipt [1, 2, 3, 4, 5] s 2 3 true := by
  obtain ⟨s₀, hopen, hoffset, hzero⟩ :
    ∃ s₀, openStore (openDb emptyDatabase) [] [0x61] = some s₀ ∧
      s₀.appendOffset = s₀.EOF ∧ s₀.EOF = 0 := ⟨_, rfl, rfl, rfl⟩
  have hin : ∀ event ∈ overlapping, event.Within [1, 2, 3, 4, 5] := by
    intro event hevent
    simp only [overlapping, List.mem_cons, List.not_mem_nil, or_false] at hevent
    rcases hevent with rfl | rfl | rfl | rfl
    · exact (by decide : 0 + 2 ≤ 5)
    · trivial
    · exact (by decide : 1 + 3 ≤ 5)
    · exact (by decide : 0 + 3 ≤ 5)
  have hcontent : s₀.disk.take s₀.EOF = [1, 2, 3, 4, 5].take s₀.EOF := by
    rw [hzero]
    rfl
  exact ⟨s₀, hopen, blocks_extend_prefix (by decide) (openDb emptyDatabase) [0x61] [] []
    (fun _ => rfl) (fun _ h => by cases h) List.prefix_rfl s₀ hopen
      [] hoffset hcontent overlapping
    hin 2 3 (by decide) true⟩

end Succinct.ReceivedBlocks
