import Succinct.PeerSlots

/-!
What a block of a file does when it is received: by a store that holds a prefix
of the file, and by a team. The bytes that are new are appended, and if they are
the last ones of the transfer that has the slot, they are committed or dropped.
-/
namespace Succinct.BlockReceipts

open NativeStore RecordStore RecordRefinement ReceivedBlocks TeamRestarts TeamCalls

/-- A transfer ends: its bytes are committed and the slot is released, or they
are dropped. -/
inductive Ended (s : Store) (a a' : AppendOnly) (commits : Bool) (x : PeerTransfer)
    (slot' : Option PeerTransfer) : Prop where
  | committed (hcommitted : a'.committed = a.committed ++ a.pending) (hpending : a'.pending = [])
      (hslot : slot' = none)
  | refused (hcommitted : a'.committed = a.committed) (hpending : a'.pending = [])
      (hslot : slot' = some x)
      (hmismatch : commits = true → x.expectedHash ≠ (hashMemory { s.file.toFileRecord with
        hash := Sha256.hash (a.committed ++ a.pending) }).take x.expectedHash.length)

inductive Finished (s : Store) (a a' : AppendOnly) (commits : Bool)
    (slot' : Option PeerTransfer) :
    Prop where
  | waiting (hwaiting : ∀ x, s.activeTransfer = some x →
    x.newLength ≠ s.appendOffset) (hsame : a' = a)
      (hslot : slot' = s.activeTransfer)
  | ended (x : PeerTransfer) (hactive : s.activeTransfer = some x)
    (hlength : x.newLength = s.appendOffset)
      (hended : Ended s a a' commits x slot')

theorem finishTransfer_finished {s : Store} {a : AppendOnly} (h : Mirrors s a) (commits : Bool) :
    Finished s a (a.applyAll (finishTransfer s commits).effects) commits
      (finishTransfer s commits).store.activeTransfer := by
  cases hactive : s.activeTransfer with
  | none =>
    have hfinish : finishTransfer s commits = ⟨true, [], s⟩ := by
      rw [finishTransfer, hactive]
    rw [hfinish]
    refine .waiting ?_ rfl rfl
    intro x hx
    rw [hactive] at hx
    cases hx
  | some x =>
    by_cases hlength : x.newLength = s.appendOffset
    · have hfinish : finishTransfer s commits =
          { flush s (some x.expectedHash) commits with
            store := if (flush s (some x.expectedHash) commits).returned then
                { (flush s (some x.expectedHash) commits).store with activeTransfer := none }
              else (flush s (some x.expectedHash) commits).store } := by
        rw [finishTransfer, hactive]
        exact if_pos hlength
      refine .ended x hactive hlength ?_
      rw [hfinish]
      dsimp only
      have hiff := flush_returned_iff h (some x.expectedHash) commits
      have hslot := TransferSlots.flush_activeTransfer s (some x.expectedHash) commits
      obtain ⟨ret, heffects, hresult⟩ := flush_ends h (some x.expectedHash) commits
      rw [heffects]
      rcases hresult with ⟨rfl, hpending, hreturned⟩ | ⟨rfl, -,
        hreturned⟩ | ⟨rfl, -, hreturned, -⟩
      · refine .committed ?_ rfl ?_
        · rw [hpending, List.append_nil]
          rfl
        · rw [if_pos hreturned]
      · refine .committed rfl rfl ?_
        rw [if_pos hreturned]
      · refine .refused rfl rfl ?_ ?_
        · rw [if_neg (by rw [hreturned]; decide), hslot, hactive]
        · rintro rfl hmatch
          rw [hiff.mpr (Or.inr ⟨rfl, hmatch⟩)] at hreturned
          cases hreturned
    · have hfinish : finishTransfer s commits = ⟨true, [], s⟩ := by
        rw [finishTransfer, hactive]
        exact if_neg hlength
      rw [hfinish]
      refine .waiting ?_ rfl rfl
      intro y hy
      rw [hactive] at hy
      rw [← Option.some.inj hy]
      exact hlength

structure Extended (D : List UInt8) (s : Store) (a : AppendOnly) (o n : ℕ) (s₁ : Store)
    (a₁ : AppendOnly) : Prop where
  mirrors : Mirrors s₁ a₁
  committed : a₁.committed = a.committed
  content : a₁.committed ++ a₁.pending = D.take (max s.appendOffset (o + n))
  slot : s₁.activeTransfer = s.activeTransfer

section Blocks

variable {D : List UInt8} (hD : D.length < 2147483648) {s : Store}
    {a : AppendOnly} (hs : Mirrors s a)
  (hstart : a.committed ++ a.pending <+: D) (o n : ℕ) (hcut : o + n ≤ D.length)

include hD hs hstart hcut

theorem stored_extended (hle : o ≤ s.appendOffset) :
    (stored s o (cut D o n)).returned = true ∧ Extended D s a o n (stored s o (cut D o n)).store
      (a.applyAll (stored s o (cut D o n)).effects) := by
  have hslot : (stored s o (cut D o n)).store.activeTransfer = s.activeTransfer :=
    PeerSlots.append_slot s _ _ _
  have hmirrors : Mirrors (stored s o (cut D o n)).store
    (a.applyAll (stored s o (cut D o n)).effects) :=
    append_mirrors hs _ _ _
  have hoffset := hs.offset_eq
  by_cases hold : o + n ≤ s.appendOffset
  · rw [stored_old hD hs hstart o n hcut hold] at hmirrors ⊢
    refine ⟨rfl, hmirrors, rfl, ?_, rfl⟩
    rw [max_eq_left hold, hoffset]
    exact List.prefix_iff_eq_take.mp hstart
  · obtain ⟨data, hstored, hcontent⟩ := stored_new hD hs hstart o n hcut hle (by omega)
    rw [hstored] at hmirrors hslot ⊢
    refine ⟨rfl, hmirrors, rfl, ?_, hslot⟩
    rw [max_eq_right (by omega), ← hcontent, List.append_assoc]
    rfl

/-- A block that starts beyond the end changes nothing; another one is stored,
and may end a transfer. -/
theorem appendAt_finished (commits : Bool) :
    (s.appendOffset < o ∧ (appendAt s o (cut D o n) commits).effects = [] ∧
      (appendAt s o (cut D o n) commits).store = s) ∨
    (o ≤ s.appendOffset ∧ ∃ s₁ a₁, Extended D s a o n s₁ a₁ ∧
      Finished s₁ a₁ (a.applyAll (appendAt s o (cut D o n) commits).effects) commits
        (appendAt s o (cut D o n) commits).store.activeTransfer) := by
  by_cases hle : o ≤ s.appendOffset
  · right
    obtain ⟨hreturned, hextended⟩ := stored_extended hD hs hstart o n hcut hle
    refine ⟨hle, _, _, hextended, ?_⟩
    have hfinished := finishTransfer_finished hextended.mirrors commits
    have hcall : appendAt s o (cut D o n) commits =
        { finishTransfer (stored s o (cut D o n)).store commits with
          effects := (stored s o (cut D o n)).effects ++
            (finishTransfer (stored s o (cut D o n)).store commits).effects } := by
      rw [appendAt, if_neg (by omega)]
      rw [stored] at hreturned
      simp only [hreturned, Bool.not_true, Bool.false_eq_true, if_false]
      rfl
    rw [hcall, AppendOnly.applyAll_append]
    exact hfinished
  · left
    have hcall : appendAt s o (cut D o n) commits = ⟨false, [], s⟩ := by
      rw [appendAt, if_pos (by omega)]
    rw [hcall]
    exact ⟨by omega, rfl, rfl⟩

theorem not_outside : PeerTransfers.outside s o (cut D o n) = false := by
  by_cases hle : o ≤ s.appendOffset
  · have hreturned := (stored_extended hD hs hstart o n hcut hle).1
    rw [stored] at hreturned
    rw [PeerTransfers.outside, TransferSlots.skipped, hreturned]
    exact Bool.and_false _
  · rw [PeerTransfers.outside, decide_eq_false (by omega)]
    exact Bool.false_and _

end Blocks

/-- What a block does to its file: nothing; or the bytes that are new are kept;
or, if they complete the transfer that has the slot, they are all committed; or
they are dropped together with what was pending. -/
inductive Receipt (D : List UInt8) (reached : ℕ) (commits : Bool) (before after : List UInt8)
    (pending' : List UInt8) (slot slot' : Option PeerTransfer) : Prop where
  | kept (hwaiting : ∀ x, slot = some x → x.newLength ≠ (D.take reached).length)
      (hcommitted : after = before) (hcontent : before ++ pending' = D.take reached)
        (hslot : slot' = slot)
  | completed (x : PeerTransfer) (hactive : slot = some x)
    (hlength : x.newLength = (D.take reached).length)
      (hcommitted : after = D.take reached) (hpending : pending' = []) (hslot : slot' = none)
  | dropped (x : PeerTransfer) (hactive : slot = some x)
    (hlength : x.newLength = (D.take reached).length)
      (hcommitted : after = before) (hpending : pending' = []) (hslot : slot' = some x)
      (hmismatch : commits = true → x.expectedHash.length ≤ 32 →
        x.expectedHash ≠ (Sha256.hash (D.take reached)).take x.expectedHash.length)

section Teams

variable {Path : Type} [DecidableEq Path] {resolve : Name → Path} {names : List Name}
  {t t' : Provenance.Team Path} {name : Name}

/-- A block of the file that the team has a prefix of. -/
theorem appendAt_receipt (h : Kept resolve names t) (hdistinct : Distinct resolve names)
    (hname : name ∈ names) {D : List UInt8} (hD : D.length < 2147483648)
    (hstart : content t name <+: D) (o n : ℕ) (hcut : o + n ≤ D.length) {commits : Bool}
    (hstep : Provenance.teamStep resolve t
      (.call name (.appendAt o (cut D o n) commits)) = some t') :
    ((content t name).length < o ∧ Same t t' ∧ slot t' = slot t) ∨
    (o ≤ (content t name).length ∧ Receipt D (max (content t name).length (o + n)) commits
      (committed t name) (committed t' name) (pending t' name) (slot t name) (slot t' name)) := by
  obtain ⟨hkept, s, hcalled⟩ := call_spec h hdistinct hname hstep
  have hmirrors := hcalled.shows.mirrors
  obtain ⟨version, heffects⟩ := hcalled.effects
  rcases appendAt_finished hD hmirrors hstart o n hcut commits with
    ⟨hbeyond, hnone, hstore⟩ | ⟨hle, s₁, a₁, hextended, hfinished⟩
  · left
    rw [hcalled.shows.offset] at hbeyond
    refine ⟨hbeyond, hcalled.same hnone (by rw [call, hstore]), ?_⟩
    funext m
    by_cases hne : m = name
    · rw [hne, hcalled.slot, call, hstore, hcalled.shows.slot]
    · exact (hcalled.others m hne).2.2
  · right
    rw [hcalled.shows.offset] at hle
    refine ⟨hle, ?_⟩
    have hcall : call s (.appendAt o (cut D o n) commits) =
      appendAt s o (cut D o n) commits := rfl
    have hslot := hcalled.slot
    rw [hcall] at heffects hslot
    rw [heffects, ← hslot] at hfinished
    have hcontent := hextended.content
    rw [hcalled.shows.offset] at hcontent
    have hreached : s₁.appendOffset = (D.take (max (content t name).length (o + n))).length := by
      rw [hextended.mirrors.offset_eq, hcontent]
    have hbefore : slot t name = s₁.activeTransfer := by
      rw [hextended.slot, hcalled.shows.slot]
    cases hfinished with
    | waiting hwaiting hsame hkeep =>
      refine .kept ?_ ?_ ?_ ?_
      · intro x hx
        rw [← hreached]
        exact hwaiting x (hbefore.symm.trans hx)
      · exact (congrArg AppendOnly.committed hsame).trans hextended.committed
      · rw [← hcontent, hextended.committed, ← hsame]
      · rw [hkeep, hbefore]
    | ended x hactive hlength hended =>
      rw [hreached] at hlength
      cases hended with
      | committed hcommitted hpending hnone =>
        exact .completed x (hbefore.trans hactive) hlength
          (hcommitted.trans hcontent) hpending hnone
      | refused hcommitted hpending hsome hmismatch =>
        refine .dropped x (hbefore.trans hactive) hlength
          (hcommitted.trans hextended.committed) hpending
          hsome ?_
        intro hcommits hshort hmatch
        apply hmismatch hcommits
        rw [hcontent, hashMemory, List.take_append_of_le_length (by
          change _ ≤ (Sha256.hash _).length
          rw [Sha256.length_hash]
          exact hshort)]
        exact hmatch

end Teams

end Succinct.BlockReceipts
