import Mathlib.Data.List.Infix
import Mathlib.Data.Set.Insert
import Mathlib.Logic.Relation

/-!
Logs with one author each, and replicas of them. The author of a log appends to
it. A replica sends pieces of what it has, and a piece may reach any replica, at
any time and any number of times; it is taken if it starts within what is there.
A replica that is not the author may lose the end of what it has.
-/
namespace Succinct.AuthoredLogs

variable {Replica Log α : Type}

structure Piece (Log α : Type) where
  log : Log
  offset : ℕ
  data : List α

structure State (Replica Log α : Type) where
  content : Replica → Log → List α
  sent : Set (Piece Log α)

def Piece.Of (p : Piece Log α) (content : List α) : Prop := p.data <+: content.drop p.offset

/-- The content with a piece that starts within it. -/
def extend (content : List α) (p : Piece Log α) : List α :=
  content ++ p.data.drop (content.length - p.offset)

section Steps

variable [DecidableEq Replica] [DecidableEq Log]

def State.put (s : State Replica Log α) (r : Replica) (l : Log) (content : List α) :
    State Replica Log α :=
  { s with content := Function.update s.content r (Function.update (s.content r) l content) }

inductive Step (author : Log → Replica) : State Replica Log α → State Replica Log α → Prop where
  | append (s : State Replica Log α) (l : Log) (data : List α) :
    Step author s (s.put (author l) l (s.content (author l) l ++ data))
  | send (s : State Replica Log α) (r : Replica) (p : Piece Log α)
    (h : p.Of (s.content r p.log)) :
    Step author s { s with sent := insert p s.sent }
  | receive (s : State Replica Log α) (r : Replica) (p : Piece Log α) (hsent : p ∈ s.sent)
    (hstart : p.offset ≤ (s.content r p.log).length) :
    Step author s (s.put r p.log (extend (s.content r p.log) p))
  | lose (s : State Replica Log α) (r : Replica) (kept : Log → List α)
    (hkept : ∀ l, kept l <+: s.content r l) (hown : ∀ l, author l = r → kept l = s.content r l) :
    Step author s { s with content := Function.update s.content r kept }

end Steps

/-- Every replica has a prefix of what the author has, and every piece that was
sent is one of that. -/
structure Follows (author : Log → Replica) (s : State Replica Log α) : Prop where
  content : ∀ r l, s.content r l <+: s.content (author l) l
  sent : ∀ p ∈ s.sent, p.Of (s.content (author p.log) p.log)

theorem Piece.Of.mono {p : Piece Log α} {content content' : List α} (h : p.Of content)
    (hstarts : content <+: content') : p.Of content' := by
  obtain ⟨rest, rfl⟩ := hstarts
  rw [Piece.Of, List.drop_append]
  exact h.trans (List.prefix_append _ _)

/-- The piece continues what a prefix of the log has. -/
theorem extend_starts {content whole : List α} {p : Piece Log α} (h : content <+: whole)
    (hp : p.Of whole) (hstart : p.offset ≤ content.length) : extend content p <+: whole := by
  obtain ⟨rest, rfl⟩ := h
  have hdrop : (content ++ rest).drop p.offset = content.drop p.offset ++ rest := by
    rw [List.drop_append_of_le_length hstart]
  have hrest : p.data.drop (content.length - p.offset) <+: rest := by
    have hcut := List.IsPrefix.drop hp (content.length - p.offset)
    rw [hdrop, ← List.length_drop, List.drop_left] at hcut
    rwa [List.length_drop] at hcut
  exact (List.prefix_append_right_inj content).mpr hrest

theorem starts_extend (content : List α) (p : Piece Log α) : content <+: extend content p :=
  List.prefix_append _ _

/-- With a piece of the log, a prefix has all up to the end of the piece. -/
theorem extend_eq_take {content whole : List α} {p : Piece Log α} (h : content <+: whole)
    (hp : p.Of whole) (hstart : p.offset ≤ content.length) :
    extend content p = whole.take (max content.length (p.offset + p.data.length)) := by
  have hlength : (extend content p).length = max content.length (p.offset + p.data.length) := by
    rw [extend, List.length_append, List.length_drop]
    omega
  rw [← hlength]
  exact List.prefix_iff_eq_take.mp (extend_starts h hp hstart)

section Follows

variable [DecidableEq Replica] [DecidableEq Log] {author : Log → Replica}
    {s s' : State Replica Log α}

theorem content_put (s : State Replica Log α) (r r' : Replica) (l l' : Log) (content : List α) :
    (s.put r l content).content r' l' =
      if r' = r ∧ l' = l then content else s.content r' l' := by
  rw [State.put]
  by_cases hr : r' = r
  · subst hr
    by_cases hl : l' = l
    · subst hl
      simp
    · simp [hl]
  · simp [hr]

omit [DecidableEq Replica] [DecidableEq Log] in
/-- No author changes what it has. -/
theorem Follows.others (h : Follows author s)
    (hauthor : ∀ l, s'.content (author l) l = s.content (author l) l)
    (hcontent : ∀ r l, s'.content r l = s.content r l ∨ s'.content r l <+: s.content (author l) l)
    (hsent : s'.sent = s.sent) : Follows author s' := by
  refine ⟨?_, ?_⟩
  · intro r l
    rw [hauthor]
    rcases hcontent r l with heq | hstarts
    · rw [heq]
      exact h.content r l
    · exact hstarts
  · intro p hp
    rw [hauthor]
    exact h.sent p (hsent ▸ hp)

theorem Follows.append (h : Follows author s) (l : Log) (data : List α) :
    Follows author (s.put (author l) l (s.content (author l) l ++ data)) := by
  have hauthor : ∀ l', s.content (author l') l' <+:
      (s.put (author l) l (s.content (author l) l ++ data)).content (author l') l' := by
    intro l'
    rw [content_put]
    split
    case isTrue heq =>
      obtain ⟨-, rfl⟩ := heq
      exact List.prefix_append _ _
    case isFalse =>
      exact List.prefix_rfl
  refine ⟨?_, ?_⟩
  · intro r' l'
    by_cases heq : r' = author l ∧ l' = l
    · obtain ⟨rfl, rfl⟩ := heq
      exact List.prefix_rfl
    · rw [content_put _ _ r', if_neg heq]
      exact (h.content r' l').trans (hauthor l')
  · intro p hp
    exact (h.sent p hp).mono (hauthor p.log)

theorem Follows.step (h : Follows author s) (hstep : Step author s s') : Follows author s' := by
  cases hstep with
  | append l data => exact h.append l data
  | send r p hp =>
    refine ⟨h.content, ?_⟩
    intro q hq
    rcases Set.mem_insert_iff.mp hq with rfl | hq
    · exact hp.mono (h.content r q.log)
    · exact h.sent q hq
  | receive r p hsent hstart =>
    have hextended := extend_starts (h.content r p.log) (h.sent p hsent) hstart
    refine h.others ?_ ?_ rfl
    · intro l
      rw [content_put]
      split
      case isTrue heq =>
        obtain ⟨rfl, rfl⟩ := heq
        exact hextended.eq_of_length_le (starts_extend _ p).length_le
      case isFalse =>
        rfl
    · intro r' l
      rw [content_put]
      by_cases heq : r' = r ∧ l = p.log
      · rw [if_pos heq]
        obtain ⟨-, rfl⟩ := heq
        exact Or.inr hextended
      · rw [if_neg heq]
        exact Or.inl rfl
  | lose r kept hkept hown =>
    refine h.others ?_ ?_ rfl
    · intro l
      dsimp only
      by_cases hr : author l = r
      · rw [hr, Function.update_self, hown l hr]
      · rw [Function.update_of_ne hr]
    · intro r' l
      dsimp only
      by_cases hr : r' = r
      · rw [hr, Function.update_self]
        exact Or.inr ((hkept l).trans (h.content r l))
      · rw [Function.update_of_ne hr]
        exact Or.inl rfl

theorem Follows.run (h : Follows author s) (hrun : Relation.ReflTransGen (Step author) s s') :
    Follows author s' := by
  induction hrun with
  | refl => exact h
  | tail _ hstep ih => exact ih.step hstep

omit [DecidableEq Replica] [DecidableEq Log] in
/-- Of what two replicas have, one is a prefix of the other. -/
theorem Follows.comparable (h : Follows author s) (r r' : Replica) (l : Log) :
    s.content r l <+: s.content r' l ∨ s.content r' l <+: s.content r l :=
  List.prefix_or_prefix_of_prefix (h.content r l) (h.content r' l)

end Follows

end Succinct.AuthoredLogs
