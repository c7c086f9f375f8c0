import Succinct.TeamCalls

/-!
The transfers that a device has listed for its peers, and the slots of its
files. A slot is given only to a transfer of a list, and a transfer is dropped
from its list only when the file is at least as long as was announced, or when
the links of the peer died.
-/
namespace Succinct.TransferLists

open NativeStore RecordStore RecordRefinement Provenance TeamRestarts PeerTransfers TeamCalls
open Messages (Message)

def requestFor (length : ℕ) (x : Transfer) : Message :=
  .requestBlock x.filename (BitVec.ofNat 64 length)
    (BitVec.ofInt 64 (x.transfer.newLength - length))

section

variable {Path : Type}

def Outgrown (t : Team Path) (x : Transfer) : Prop :=
  x.transfer.newLength ≤ (committed t x.filename).length

structure Turned (resolve : Name → Path) (names : List Name) (xs : List Transfer) (t : Team Path)
    (turns : Turns Path) : Prop where
  kept : Kept resolve names turns.team
  same : Same t turns.team
  listed : turns.kept.Sublist xs
  dropped : ∀ x ∈ xs, x ∈ turns.kept ∨ Outgrown t x
  given : ∀ name x, slot turns.team name = some x → slot t name = some x ∨ ⟨name, x⟩ ∈ turns.kept
  fresh : ∀ name x, slot turns.team name = some x → slot t name = some x ∨ ¬ Outgrown t ⟨name, x⟩
  requests : ∀ m ∈ turns.requests, ∃ x ∈ turns.kept, ¬ Outgrown t x ∧
    m = requestFor (committed t x.filename).length x

theorem outgrown_iff {t t' : Team Path} (h : Same t t') (x : Transfer) :
    Outgrown t' x ↔ Outgrown t x := by
  rw [Outgrown, Outgrown, h.committed]

variable {resolve : Name → Path} {names : List Name} {t t₁ : Team Path} {x : Transfer}
  {rest : List Transfer} {turns : Turns Path}

/-- The loop goes on with another team that has the same files. -/
theorem Turned.of_same (h : Turned resolve names rest t₁ turns) (hsame : Same t t₁)
    (hslot : ∀ name y, slot t₁ name = some y → slot t name = some y) :
    Turned resolve names rest t turns := by
  refine ⟨h.kept, hsame.trans h.same, h.listed, ?_, ?_, ?_, ?_⟩
  · intro y hy
    rw [← outgrown_iff hsame]
    exact h.dropped y hy
  · intro name y hy
    exact (h.given name y hy).imp_left (hslot name y)
  · intro name y hy
    rw [← outgrown_iff hsame]
    exact (h.fresh name y hy).imp_left (hslot name y)
  · intro m hm
    obtain ⟨y, hy, hout, heq⟩ := h.requests m hm
    rw [outgrown_iff hsame] at hout
    rw [hsame.committed] at heq
    exact ⟨y, hy, hout, heq⟩

/-- The transfer at the front is dropped. -/
theorem Turned.drop (h : Turned resolve names rest t turns) (hout : Outgrown t x) :
    Turned resolve names (x :: rest) t turns where
  kept := h.kept
  same := h.same
  listed := h.listed.cons x
  dropped := by
    intro y hy
    rcases List.mem_cons.mp hy with rfl | hy
    · exact Or.inr hout
    · exact h.dropped y hy
  given := h.given
  fresh := h.fresh
  requests := h.requests

/-- The transfer at the front stays, with or without a request. -/
theorem Turned.keep (h : Turned resolve names rest t turns) (requests : List Message)
    (hrequests : requests = turns.requests ∨ (¬ Outgrown t x ∧
      requests = requestFor (committed t x.filename).length x :: turns.requests)) :
    Turned resolve names (x :: rest) t
      { turns with kept := x :: turns.kept, requests := requests } where
  kept := h.kept
  same := h.same
  listed := h.listed.cons_cons x
  dropped := by
    intro y hy
    rcases List.mem_cons.mp hy with rfl | hy
    · exact Or.inl List.mem_cons_self
    · exact (h.dropped y hy).imp_left (List.mem_cons_of_mem x)
  given := fun name y hy => (h.given name y hy).imp_right (List.mem_cons_of_mem x)
  fresh := h.fresh
  requests := by
    have hothers : ∀ m ∈ turns.requests, ∃ y ∈ x :: turns.kept, ¬ Outgrown t y ∧
        m = requestFor (committed t y.filename).length y := by
      intro m hm
      obtain ⟨y, hy, hrequest⟩ := h.requests m hm
      exact ⟨y, List.mem_cons_of_mem x hy, hrequest⟩
    intro m hm
    rcases hrequests with rfl | ⟨hout, rfl⟩
    · exact hothers m hm
    · rcases List.mem_cons.mp hm with rfl | hm
      · exact ⟨x, List.mem_cons_self, hout, rfl⟩
      · exact hothers m hm

/-- The transfer at the front got the slot of its file. -/
theorem Turned.take (h : Turned resolve names (x :: rest) t₁ turns) (hsame : Same t t₁)
    (hslot : ∀ name y, slot t₁ name = some y →
      slot t name = some y ∨ (name = x.filename ∧ y = x.transfer))
    (hkept : x ∈ turns.kept) (hout : ¬ Outgrown t x) :
    Turned resolve names (x :: rest) t turns := by
  refine ⟨h.kept, hsame.trans h.same, h.listed, ?_, ?_, ?_, ?_⟩
  · intro y hy
    rw [← outgrown_iff hsame]
    exact h.dropped y hy
  · intro name y hy
    rcases h.given name y hy with hy | hy
    · rcases hslot name y hy with hy | ⟨rfl, rfl⟩
      · exact Or.inl hy
      · exact Or.inr hkept
    · exact Or.inr hy
  · intro name y hy
    rcases h.fresh name y hy with hy | hy
    · rcases hslot name y hy with hy | ⟨rfl, rfl⟩
      · exact Or.inl hy
      · exact Or.inr hout
    · rw [outgrown_iff hsame] at hy
      exact Or.inr hy
  · intro m hm
    obtain ⟨y, hy, hout, heq⟩ := h.requests m hm
    rw [outgrown_iff hsame] at hout
    rw [hsame.committed] at heq
    exact ⟨y, hy, hout, heq⟩

/-- A loop that ends here. -/
theorem turned_stop (hkept : Kept resolve names t) (returned : Bool)
    (xs : List Transfer) (requested : ℤ) :
    Turned resolve names xs t ⟨returned, xs, t, requested, []⟩ where
  kept := hkept
  same := Same.refl t
  listed := List.Sublist.refl xs
  dropped := fun _ hy => Or.inl hy
  given := fun _ _ hy => Or.inl hy
  fresh := fun _ _ hy => Or.inl hy
  requests := fun _ hm => absurd hm List.not_mem_nil

theorem nextTransferLoop_spec [DecidableEq Path]
    (hdistinct : Distinct resolve names) (connected : Bool)
    (received : ℤ) (xs : List Transfer) {t : Team Path} {requested : ℤ} {turns : Turns Path}
    (hkept : Kept resolve names t) (hnames : ∀ x ∈ xs, x.filename ∈ names)
    (hloop : nextTransferLoop resolve connected received xs t requested = some turns) :
    Turned resolve names xs t turns := by
  induction xs generalizing t requested turns with
  | nil =>
    rw [← Option.some.inj hloop]
    exact turned_stop hkept true [] requested
  | cons x rest ih =>
    have hname := hnames x List.mem_cons_self
    have hrest : ∀ y ∈ rest, y.filename ∈ names := fun y hy =>
      hnames y (List.mem_cons_of_mem x hy)
    rw [nextTransferLoop] at hloop
    split at hloop
    · rw [← Option.some.inj hloop]
      exact turned_stop hkept true (x :: rest) requested
    obtain ⟨⟨s, t₁⟩, hopen, hloop⟩ := Option.bind_eq_some_iff.mp hloop
    obtain ⟨hkept₁, hsame₁, hshows, hslot₁⟩ := openIn_spec hkept hdistinct hname hopen
    have heof : (s.EOF : ℤ) = (committed t x.filename).length := congrArg _ hshows.eof
    have hslots : ∀ name y, slot t₁ name = some y → slot t name = some y := by
      intro name y hy
      rw [hslot₁] at hy
      exact hy
    dsimp only at hloop
    by_cases hle : x.transfer.newLength ≤ ↑s.EOF
    · rw [if_pos hle] at hloop
      have hout : Outgrown t x := by
        rw [Outgrown, ← heof]
        exact hle
      exact ((ih hkept₁ hrest hloop).of_same hsame₁ hslots).drop hout
    rw [if_neg hle] at hloop
    have hout : ¬ Outgrown t x := by
      rw [Outgrown, ← heof]
      exact hle
    split at hloop
    · obtain ⟨last, hlast, heq⟩ := Option.bind_eq_some_iff.mp hloop
      rw [← Option.some.inj heq]
      exact ((ih hkept₁ hrest hlast).of_same hsame₁ hslots).keep last.requests (Or.inl rfl)
    · obtain ⟨t₂, hset, hloop⟩ := Option.bind_eq_some_iff.mp hloop
      obtain ⟨hkept₂, hsame₂, hslot₂⟩ := setTranfer_spec hkept₁ hdistinct hname hset
      have hsame := hsame₁.trans hsame₂
      have htaken : ∀ name y, slot t₂ name = some y →
          slot t name = some y ∨ (name = x.filename ∧ y = x.transfer) := by
        intro name y hy
        rw [hslot₂, hslot₁] at hy
        by_cases hname : name = x.filename
        · subst hname
          rw [Function.update_self] at hy
          rcases Option.or_eq_some_iff.mp hy with hy | ⟨-, hy⟩
          · exact Or.inl hy
          · exact Or.inr ⟨rfl, (Option.some.inj hy).symm⟩
        · rw [Function.update_of_ne hname] at hy
          exact Or.inl hy
      split at hloop
      · rw [← Option.some.inj hloop]
        exact (turned_stop hkept₂ false (x :: rest) requested).take hsame htaken
          List.mem_cons_self hout
      · obtain ⟨last, hlast, heq⟩ := Option.bind_eq_some_iff.mp hloop
        rw [← Option.some.inj heq]
        refine Turned.take ?_ hsame htaken List.mem_cons_self hout
        refine (ih hkept₂ hrest hlast).keep _ (Or.inr ⟨?_, ?_⟩)
        · rw [outgrown_iff hsame]
          exact hout
        · rw [requestFor, hsame.committed, hshows.eof]

def asked : Message → ℤ
  | .requestBlock _ _ length => length.toInt
  | _ => 0

/-- No slot is left idle: what stays listed waits for a slot that is taken, or
enough was asked for. -/
structure Busy (received requested : ℤ) (t : Team Path) (turns : Turns Path) : Prop where
  slots : ∀ name x, slot t name = some x → slot turns.team name = some x
  listed : turns.returned = true → ∀ x ∈ turns.kept,
    (slot turns.team x.filename).isSome ∨ maxRequest < turns.requested - received
  sum : (∀ x ∈ turns.kept, x.transfer.newLength < 2 ^ 63) →
    turns.requested = requested + (turns.requests.map asked).sum

theorem asked_requestFor {x : Transfer} {length : ℕ} (hlong : (length : ℤ) < x.transfer.newLength)
    (hmax : x.transfer.newLength < 2 ^ 63) :
    asked (requestFor length x) = x.transfer.newLength - length := by
  rw [requestFor, asked, BitVec.toInt_ofInt, Int.bmod_eq_of_le (by omega) (by omega)]

theorem nextTransferLoop_busy [DecidableEq Path]
    (hdistinct : Distinct resolve names) (connected : Bool)
    (received : ℤ) (xs : List Transfer) {t : Team Path} {requested : ℤ} {turns : Turns Path}
    (hkept : Kept resolve names t) (hnames : ∀ x ∈ xs, x.filename ∈ names)
    (hloop : nextTransferLoop resolve connected received xs t requested = some turns) :
    Busy received requested t turns := by
  induction xs generalizing t requested turns with
  | nil =>
    rw [← Option.some.inj hloop]
    exact ⟨fun _ _ h => h, fun _ x hx => absurd hx List.not_mem_nil, fun _ => (add_zero _).symm⟩
  | cons x rest ih =>
    have hname := hnames x List.mem_cons_self
    have hrest : ∀ y ∈ rest, y.filename ∈ names := fun y hy =>
      hnames y (List.mem_cons_of_mem x hy)
    rw [nextTransferLoop] at hloop
    by_cases hfull : maxRequest < requested - received
    · rw [if_pos hfull] at hloop
      rw [← Option.some.inj hloop]
      exact ⟨fun _ _ h => h, fun _ _ _ => Or.inr hfull, fun _ => (add_zero _).symm⟩
    rw [if_neg hfull] at hloop
    obtain ⟨⟨s, t₁⟩, hopen, hloop⟩ := Option.bind_eq_some_iff.mp hloop
    obtain ⟨hkept₁, hsame₁, hshows, hslot₁⟩ := openIn_spec hkept hdistinct hname hopen
    dsimp only at hloop
    by_cases hlong : x.transfer.newLength ≤ ↑s.EOF
    · rw [if_pos hlong] at hloop
      obtain ⟨hslots, hlisted, hsum⟩ := ih hkept₁ hrest hloop
      rw [hslot₁] at hslots
      exact ⟨hslots, hlisted, hsum⟩
    rw [if_neg hlong] at hloop
    by_cases htaken : s.activeTransfer.isSome = true
    · rw [if_pos htaken] at hloop
      obtain ⟨last, hlast, heq⟩ := Option.bind_eq_some_iff.mp hloop
      obtain ⟨hslots, hlisted, hsum⟩ := ih hkept₁ hrest hlast
      rw [hslot₁] at hslots
      rw [hshows.slot] at htaken
      rw [← Option.some.inj heq]
      refine ⟨hslots, ?_, fun hmax => hsum fun y hy => hmax y (List.mem_cons_of_mem x hy)⟩
      intro hreturned y hy
      rcases List.mem_cons.mp hy with rfl | hy
      · obtain ⟨active, hactive⟩ := Option.isSome_iff_exists.mp htaken
        rw [hslots _ active hactive]
        exact Or.inl rfl
      · exact hlisted hreturned y hy
    · rw [if_neg htaken] at hloop
      obtain ⟨t₂, hset, hloop⟩ := Option.bind_eq_some_iff.mp hloop
      obtain ⟨hkept₂, -, hslot₂⟩ := setTranfer_spec hkept₁ hdistinct hname hset
      have htaken : ∀ name y, slot t name = some y → slot t₂ name = some y := by
        intro name y hactive
        rw [hslot₂, hslot₁]
        by_cases hname : name = x.filename
        · subst hname
          rw [Function.update_self, hactive]
          rfl
        · rw [Function.update_of_ne hname]
          exact hactive
      obtain ⟨own, hown⟩ : ∃ y, slot t₂ x.filename = some y := by
        rw [hslot₂, Function.update_self, ← Option.isSome_iff_exists, Option.isSome_or]
        exact Bool.or_true _
      split at hloop
      · rw [← Option.some.inj hloop]
        exact ⟨htaken, fun hreturned =>
          absurd hreturned Bool.false_ne_true, fun _ => (add_zero _).symm⟩
      · obtain ⟨last, hlast, heq⟩ := Option.bind_eq_some_iff.mp hloop
        obtain ⟨hslots, hlisted, hsum⟩ := ih hkept₂ hrest hlast
        rw [← Option.some.inj heq]
        refine ⟨fun name y hactive => hslots name y (htaken name y hactive), ?_, ?_⟩
        · intro hreturned y hy
          rcases List.mem_cons.mp hy with rfl | hy
          · left
            rw [hslots _ own hown]
            rfl
          · exact hlisted hreturned y hy
        · intro hmax
          have hasked := asked_requestFor (not_le.mp hlong) (hmax x List.mem_cons_self)
          rw [requestFor] at hasked
          dsimp only
          rw [hsum fun y hy => hmax y (List.mem_cons_of_mem x hy), List.map_cons,
            List.sum_cons, hasked]
          omega

theorem nextTransferLoop_total [DecidableEq Path] (resolve : Name → Path) (connected : Bool)
    (received : ℤ) (xs : List Transfer)
    (t : Team Path) (requested : ℤ) (hnamed : ∀ x ∈ xs, x.filename ≠ []) :
    ∃ turns, nextTransferLoop resolve connected received xs t requested = some turns := by
  induction xs generalizing t requested with
  | nil => exact ⟨_, rfl⟩
  | cons x rest ih =>
    have hname := hnamed x List.mem_cons_self
    have hrest : ∀ y ∈ rest, y.filename ≠ [] := fun y hy => hnamed y (List.mem_cons_of_mem x hy)
    rw [nextTransferLoop]
    split
    · exact ⟨_, rfl⟩
    obtain ⟨s, t₁, hopen⟩ := openIn_total resolve t hname
    simp only [hopen, Option.bind_eq_bind, Option.bind_some]
    split
    · exact ih t₁ requested hrest
    split
    · obtain ⟨last, hlast⟩ := ih t₁ requested hrest
      rw [hlast]
      exact ⟨_, rfl⟩
    · obtain ⟨t₂, hset⟩ := teamStep_total resolve t₁ hname (.setTranfer x.transfer)
      rw [hset, Option.bind_some]
      split
      · exact ⟨_, rfl⟩
      · obtain ⟨last, hlast⟩ := ih t₂ (requested + (x.transfer.newLength - s.EOF)) hrest
        rw [hlast]
        exact ⟨_, rfl⟩

end

end Succinct.TransferLists
