import Succinct.CompleteForms
import Succinct.FormReports

/-!
Calls of the range coder that a reader undoes. A call is a symbol where its number is
below the size of its alphabet; a list of such calls is read back by the reader of its
first part, followed by a reader that may depend on what was read.
-/
namespace Succinct.SentSymbols

open Arithmetic IntervalCoding RangePhases RangeLossless RangeMessages RangeRoom RangeCodecs
  TextModels TextRoundTrip TextSymbols UnicodeText FieldEncoding CallCodes FormReports

/-- The calls are symbols of their alphabets, and the reader returns x of them. -/
def SentAs {α : Type} (calls : List Call) (read : Decoder α) (x : α) : Prop :=
  ∃ steps, calls = steps.map Call.ofStep ∧ AllValid steps ∧ Codes steps read x

section Rules

variable {α β γ : Type}

theorem SentAs.pure (x : α) : SentAs [] (Pure.pure x) x := ⟨[], rfl, AllValid.nil, Codes.pure x⟩

theorem SentAs.bind {calls calls' : List Call} {read : Decoder α}
    {next : α → Decoder β} {x : α} {y : β}
    (h : SentAs calls read x) (h' : SentAs calls' (next x) y) :
    SentAs (calls ++ calls') (read >>= next) y := by
  obtain ⟨steps, rfl, hvalid, hcodes⟩ := h
  obtain ⟨steps', rfl, hvalid', hcodes'⟩ := h'
  exact ⟨steps ++ steps', (List.map_append ..).symm, hvalid.append hvalid', hcodes.bind hcodes'⟩

theorem SentAs.cons {call : Call} {calls : List Call} {read : Decoder α}
    {next : α → Decoder β} {x : α} {y : β}
    (h : SentAs [call] read x) (h' : SentAs calls (next x) y) :
    SentAs (call :: calls) (read >>= next) y := h.bind h'

theorem SentAs.map {calls : List Call} {read : Decoder α} {x : α}
    (h : SentAs calls read x) (f : α → β) :
    SentAs calls (do let a ← read; Pure.pure (f a)) (f x) := by
  obtain ⟨steps, hcalls, hvalid, hcodes⟩ := h
  exact ⟨steps, hcalls, hvalid, hcodes.map f⟩

theorem SentAs.congr {calls : List Call} {read : Decoder α} {x y : α}
    (h : SentAs calls read x) (hx : x = y) :
    SentAs calls read y := hx ▸ h

theorem SentAs.equi {n t : ℤ} (hlow : 0 ≤ t) (hhigh : t < n) (hn : n < 0x80000000) :
    SentAs [.equiprobable n t] (decodeEqui n.toNat) t := by
  lift t to ℕ using hlow
  lift n to ℕ using by omega
  rw [Int.toNat_natCast]
  refine ⟨[.equiprobable n t], rfl, AllValid.cons ⟨by omega, by omega⟩ AllValid.nil, ?_⟩
  exact Codes.equi n t (by omega) (by omega)

/-- A yes or a no. -/
theorem SentAs.flag (b : Bool) :
    SentAs [.equiprobable 2 (if b then 1 else 0)] (decodeEqui 2) (if b then 1 else 0) := by
  cases b
  · exact SentAs.equi le_rfl (by decide) (by decide)
  · exact SentAs.equi (by decide) (by decide) (by decide)

theorem SentAs.byte {b : ℤ} (hb : 0 ≤ b ∧ b < 256) :
    SentAs [.equiprobable 256 b] (decodeEqui 256) b :=
  SentAs.equi hb.1 hb.2 (by decide)

theorem SentAs.each {list : List γ} {calls : γ → List Call} {read : β → Decoder α}
    {x : γ → α} {keys : List β}
    (hlength : keys.length = list.length) (h : ∀ c ∈ list, ∀ b, SentAs (calls c) (read b) (x c)) :
    SentAs (list.flatMap calls) (readEach read keys) (list.map x) := by
  induction list generalizing keys with
  | nil =>
    obtain rfl := List.length_eq_zero_iff.mp hlength
    exact SentAs.pure []
  | cons c rest ih =>
    obtain ⟨hfirst, hrest⟩ := List.forall_mem_cons.mp h
    cases keys with
    | nil => exact absurd hlength (by simp)
    | cons b keys =>
      rw [List.flatMap_cons, List.map_cons]
      exact (hfirst b).bind ((ih (by simpa using hlength) hrest).map fun xs => x c :: xs)

/-- The same where each entry is one call. -/
theorem SentAs.eachCall {list : List γ} {call : γ → Call} {read : β → Decoder α}
    {x : γ → α} {keys : List β}
    (hlength : keys.length = list.length) (h : ∀ c ∈ list, ∀ b, SentAs [call c] (read b) (x c)) :
    SentAs (list.map call) (readEach read keys) (list.map x) := by
  rw [List.map_eq_flatMap]
  exact SentAs.each hlength h

theorem SentAs.bytes {bytes : List ℤ} (hbytes : ∀ b ∈ bytes, 0 ≤ b ∧ b < 256) :
    SentAs (bytes.map fun b => .equiprobable 256 b) (readBytes bytes.length) bytes := by
  have hall :=
    @SentAs.eachCall ℤ ℕ ℤ bytes (fun b => .equiprobable 256 b) (fun _ => decodeEqui 256) id
    (List.range bytes.length) List.length_range fun b hb _ => SentAs.byte (hbytes b hb)
  rwa [List.map_id] at hall

inductive Repeated (read : Decoder α) : List Call → List α → Prop
  | nil : Repeated read [] []
  | cons {calls more : List Call} {x : α} {xs : List α} (hfirst : SentAs calls read x)
    (hrest : Repeated read more xs) :
      Repeated read (.equiprobable 2 1 :: (calls ++ more)) (x :: xs)

theorem Repeated.append {read : Decoder α} {calls calls' : List Call} {xs xs' : List α}
    (h : Repeated read calls xs)
    (h' : Repeated read calls' xs') : Repeated read (calls ++ calls') (xs ++ xs') := by
  induction h with
  | nil => exact h'
  | cons hfirst _ ih =>
    rw [List.cons_append, List.cons_append, List.append_assoc]
    exact Repeated.cons hfirst ih

end Rules

section Texts

end Texts

section Coders

end Coders

end Succinct.SentSymbols
