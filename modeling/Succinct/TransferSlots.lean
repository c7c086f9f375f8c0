import Succinct.RecordRefinement

/-!
The slot for the transfer of a file from a peer. It is released by the block that
completes the transfer, if the flush that follows it succeeds. A block that goes
past the announced length releases nothing, and neither does one whose flush
fails.
-/
namespace Succinct.TransferSlots

open NativeStore RecordStore RecordRefinement

def skipped (s : Store) (fileOffset : ℤ) : ℤ := toInt (s.appendOffset - fileOffset)

def taken (s : Store) (fileOffset : ℤ) (bytes : List UInt8) : List UInt8 :=
  if toInt (bytes.length - skipped s fileOffset) ≤ 0 then []
  else (bytes.drop (skipped s fileOffset).toNat).take
    (toInt (bytes.length - skipped s fileOffset)).toNat

/-- A block that starts within the file, and of which no byte outside the array is
asked for. -/
structure Accepts (s : Store) (fileOffset : ℤ) (bytes : List UInt8) : Prop where
  start : fileOffset ≤ s.appendOffset
  bounds : toInt (bytes.length - skipped s fileOffset) ≤ 0 ∨ (0 ≤ skipped s fileOffset ∧
    skipped s fileOffset + toInt (bytes.length - skipped s fileOffset) ≤ bytes.length)

def reached (s : Store) (fileOffset : ℤ) (bytes : List UInt8) : ℕ :=
  s.appendOffset + (taken s fileOffset bytes).length

def Announced (s : Store) (fileOffset : ℤ) (bytes : List UInt8)
    (transfer : PeerTransfer) : Prop :=
  transfer.expectedHash =
    (hashMemory { s.file.toFileRecord with
      hash := Sha256.hash (s.disk.take s.appendOffset ++ taken s fileOffset bytes) }).take
        transfer.expectedHash.length

/-- A block does not go past the announced length; and if it reaches that, there
is nothing to be flushed, or the flush succeeds. -/
def Completes (s : Store) (fileOffset : ℤ) (bytes : List UInt8) (commits : Bool)
    (transfer : PeerTransfer) : Prop :=
  reached s fileOffset bytes ≤ transfer.newLength ∧
    (transfer.newLength = reached s fileOffset bytes → reached s fileOffset bytes = s.EOF ∨
      (commits = true ∧ Announced s fileOffset bytes transfer))

instance decidableAnnounced (s : Store) (fileOffset : ℤ) (bytes : List UInt8)
    (transfer : PeerTransfer) :
    Decidable (Announced s fileOffset bytes transfer) :=
  inferInstanceAs (Decidable (_ = _))

instance decidableCompletes (s : Store) (fileOffset : ℤ) (bytes : List UInt8) (commits : Bool)
    (transfer : PeerTransfer) : Decidable (Completes s fileOffset bytes commits transfer) :=
  inferInstanceAs (Decidable (_ ∧ (_ → _ ∨ (_ ∧ _))))

structure Appended (s : Store) (a : AppendOnly) (data : List UInt8) (s' : Store) : Prop where
  mirrors : Mirrors s' { a with pending := a.pending ++ data }
  eof : s'.EOF = s.EOF
  offset : s'.appendOffset = s.appendOffset + data.length
  record : s'.file.toFileRecord = s.file.toFileRecord
  transfer : s'.activeTransfer = s.activeTransfer

theorem append_appended {s : Store} {a : AppendOnly} (h : Mirrors s a) {fileOffset : ℤ}
    {bytes : List UInt8} (haccepts : Accepts s fileOffset bytes) :
    (append s bytes (skipped s fileOffset)
      (toInt (bytes.length - skipped s fileOffset))).returned = true ∧
      Appended s a (taken s fileOffset bytes)
        (append s bytes (skipped s fileOffset)
          (toInt (bytes.length - skipped s fileOffset))).store := by
  have hmirrors := append_mirrors h bytes (skipped s fileOffset)
    (toInt (bytes.length - skipped s fileOffset))
  rw [append] at hmirrors ⊢
  rw [taken]
  by_cases hnone : toInt (bytes.length - skipped s fileOffset) ≤ 0
  · rw [if_pos hnone, if_pos hnone]
    refine ⟨rfl, ?_, rfl, rfl, rfl, rfl⟩
    rw [List.append_nil]
    exact h
  · have hinside : ¬ (skipped s fileOffset < 0 ∨
        skipped s fileOffset + toInt (bytes.length - skipped s fileOffset) > bytes.length) := by
      rcases haccepts.bounds with hle | ⟨hstart, hend⟩
      · exact absurd hle hnone
      · omega
    rw [if_neg hnone, if_neg hinside] at hmirrors ⊢
    rw [if_neg hnone]
    exact ⟨rfl, hmirrors, rfl, rfl, rfl, rfl⟩

theorem flush_activeTransfer (s : Store) (expectedHash : Option (List UInt8)) (commits : Bool) :
    (flush s expectedHash commits).store.activeTransfer = s.activeTransfer := by
  unfold flush jniFlush
  dsimp only
  split <;> rfl

/-- The slot after the flush of appendAt. -/
theorem finishTransfer_activeTransfer (s : Store) (commits : Bool) {transfer : PeerTransfer}
    (hactive : s.activeTransfer = some transfer) :
    (finishTransfer s commits).store.activeTransfer = none ↔ transfer.newLength = s.appendOffset ∧
      (flush s (some transfer.expectedHash) commits).returned = true := by
  rw [finishTransfer, hactive]
  dsimp only
  by_cases hcomplete : transfer.newLength = ↑s.appendOffset
  · rw [if_pos hcomplete]
    dsimp only
    by_cases hreturned : (flush s (some transfer.expectedHash) commits).returned = true
    · rw [if_pos hreturned]
      exact iff_of_true rfl ⟨hcomplete, hreturned⟩
    · rw [if_neg hreturned]
      refine iff_of_false ?_ (fun h => hreturned h.2)
      rw [flush_activeTransfer, hactive]
      exact Option.some_ne_none transfer
  · rw [if_neg hcomplete]
    refine iff_of_false ?_ (fun h => hcomplete h.1)
    rw [hactive]
    exact Option.some_ne_none transfer

/-- The slot after a block that is accepted. -/
theorem appendAt_activeTransfer {s : Store} {a : AppendOnly} (h : Mirrors s a) {fileOffset : ℤ}
    {bytes : List UInt8} (haccepts : Accepts s fileOffset bytes) (commits : Bool)
    {transfer : PeerTransfer} (hactive : s.activeTransfer = some transfer) :
    (appendAt s fileOffset bytes commits).store.activeTransfer = none ↔
      transfer.newLength = reached s fileOffset bytes ∧ (reached s fileOffset bytes = s.EOF ∨
        (commits = true ∧ Announced s fileOffset bytes transfer)) := by
  obtain ⟨hreturned, happended⟩ := append_appended h haccepts
  have hcontent : a.committed ++ a.pending = s.disk.take s.appendOffset := by
    obtain ⟨rest, hdisk⟩ := h.disk
    rw [h.offset_eq, ← hdisk, List.take_left]
  have hstart : ¬ fileOffset > s.appendOffset := by
    have hle := haccepts.start
    omega
  have hcall : (appendAt s fileOffset bytes commits).store =
      (finishTransfer (append s bytes (skipped s fileOffset)
        (toInt (bytes.length - skipped s fileOffset))).store commits).store := by
    rw [skipped] at hreturned
    rw [appendAt, if_neg hstart]
    dsimp only
    rw [if_neg (by rw [hreturned]; decide)]
    rfl
  rw [hcall, finishTransfer_activeTransfer _ commits (happended.transfer.trans hactive),
    flush_returned_iff happended.mirrors, Option.getD_some, happended.offset,
      happended.eof, happended.record]
  dsimp only
  rw [← List.append_assoc, hcontent]
  rfl

/-- After any calls, a block that is accepted releases the slot of a transfer
whose end it reaches or passes, exactly when it does not pass the end, and the
content has the announced hash and is committed, or nothing is left to commit. -/
theorem slot_released_iff (state : DbState) (name : Name) (disk content : List UInt8)
    (hnone : state.db.files (fileKey name) = none → content = [])
    (hsome : ∀ record, state.db.files (fileKey name) = some record → Holds record content)
    (hdisk : content <+: disk) (s₀ : Store) (hopen : openStore state disk name = some s₀)
    (ops : List Op) (s : Store) (hrun : (run ops s₀).2 = s) (fileOffset : ℤ) (bytes : List UInt8)
    (commits : Bool) (haccepts : Accepts s fileOffset bytes) (transfer : PeerTransfer)
    (hactive : s.activeTransfer = some transfer) :
    (transfer.newLength ≤ reached s fileOffset bytes →
        (appendAt s fileOffset bytes commits).store.activeTransfer = none) ↔
      Completes s fileOffset bytes commits transfer := by
  subst hrun
  have hmirrors := run_mirrors ops (openStore_mirrors hopen hnone hsome hdisk)
  rw [appendAt_activeTransfer hmirrors haccepts commits hactive, Completes]
  constructor
  · intro hreleased
    refine ⟨?_, fun heq => (hreleased (le_of_eq heq)).2⟩
    by_contra hpast
    have heq := (hreleased (by omega)).1
    omega
  · rintro ⟨hle, hflush⟩ hge
    have heq : transfer.newLength = reached _ fileOffset bytes := le_antisymm hge hle
    exact ⟨heq, hflush heq⟩

def awaiting (expectedHash : List UInt8) : Option Store :=
  (openStore (openDb emptyDatabase) [] [0x61]).map fun s =>
    (run [.setTranfer ⟨0, 1, expectedHash⟩] s).2

/-- The byte that was announced. -/
theorem slot_released_complete : ∃ s₀ s, openStore (openDb emptyDatabase) [] [0x61] = some s₀ ∧
    (run [.setTranfer ⟨0, 1, syncKey (Sha256.hash [7])⟩] s₀).2 = s ∧
    s.activeTransfer = some ⟨0, 1, syncKey (Sha256.hash [7])⟩ ∧
    (appendAt s 0 [7] true).store.activeTransfer = none := by
  have hends : (awaiting (syncKey (Sha256.hash [7]))).map (fun s =>
      decide (Completes s 0 [7] true ⟨0, 1, syncKey (Sha256.hash [7])⟩) &&
        decide (1 ≤ (reached s 0 [7] : ℤ))) = some true := by
    decide +kernel
  obtain ⟨s, hs, hcompletes⟩ := Option.map_eq_some_iff.mp hends
  obtain ⟨s₀, hopen, hrun⟩ := Option.map_eq_some_iff.mp hs
  obtain ⟨hcompletes, hreached⟩ := Bool.and_eq_true_iff.mp hcompletes
  have hactive : s.activeTransfer = some ⟨0, 1, syncKey (Sha256.hash [7])⟩ := by
    rw [← hrun, ← Option.some.inj hopen]
    rfl
  have haccepts : Accepts s 0 [7] := by
    rw [← hrun, ← Option.some.inj hopen]
    exact ⟨by decide, Or.inr ⟨by decide, by decide⟩⟩
  refine ⟨s₀, s, hopen, hrun, hactive, ?_⟩
  exact (slot_released_iff (openDb emptyDatabase) [0x61] [] [] (fun _ => rfl)
    (fun _ h => by cases h)
    List.prefix_rfl s₀ hopen _ s hrun 0 [7] true haccepts _ hactive).mpr
      (of_decide_eq_true hcompletes) (of_decide_eq_true hreached)

/-- One byte too many, and a byte that is not the announced one. -/
theorem slot_kept :
    (awaiting (syncKey (Sha256.hash [7]))).map (fun s =>
      ((appendAt s 0 [7, 7] true).returned, (appendAt s 0 [7, 7] true).store.appendOffset,
        (appendAt s 0 [7, 7] true).store.activeTransfer)) =
      some (true, 2, some ⟨0, 1, syncKey (Sha256.hash [7])⟩) ∧
    (awaiting (syncKey (Sha256.hash [7]))).map (fun s =>
      ((appendAt s 0 [8] true).returned, (appendAt s 0 [8] true).store.activeTransfer)) =
      some (false, some ⟨0, 1, syncKey (Sha256.hash [7])⟩) := by
  decide +kernel

end Succinct.TransferSlots
