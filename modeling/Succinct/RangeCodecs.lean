import Succinct.RangeMessages

/-!
Pieces of a message and the decoders that read them back. An encoder of the
source that neither reads the coder nor looks at a return code is the list of
the range_encode calls it makes; a decoder is a computation on the coder it
reads from. That a decoder undoes a list of calls is kept by running one
piece after another, where the second decoder may use what the first one
returned.
-/
namespace Succinct.RangeCodecs

open Arithmetic BitWords IntervalCoding RangePhases RangeLossless RangeMessages

abbrev Decoder := StateM RangeCoder

def decodeEqui (alphabetSize : ℕ) : Decoder ℤ := fun d => rangeDecodeEquiprobable d alphabetSize

def decodeSym (frequencies : List ℕ) (alphabetSize : ℕ) : Decoder ℤ :=
  fun d => rangeDecodeSymbol d frequencies alphabetSize

def decodeAll : List Step → Decoder (List ℤ)
  | [] => pure []
  | step :: rest => do
    let x ← (step.decode : Decoder ℤ)
    let xs ← decodeAll rest
    pure (x :: xs)

/-- The decoder returns x from wherever the steps were encoded, and stands
where they end. -/
def Codes {α : Type} (steps : List Step) (decode : Decoder α) (x : α) : Prop :=
  ∀ c, Encoding c → Normal 30 (phase c) → (encodeSteps steps c).outOfBits = false →
    Encoding (encodeSteps steps c) ∧ Normal 30 (phase (encodeSteps steps c)) ∧
      ∀ s, Denotes 30 (phase (encodeSteps steps c)) s → Denotes 30 (phase c) s ∧
        ∀ d, Tracks s (phase c) d → (decode.run d).1 = x ∧
          Tracks s (phase (encodeSteps steps c)) (decode.run d).2

variable {α β : Type}

theorem encodeSteps_append (xs ys : List Step) (c : RangeCoder) :
    encodeSteps (xs ++ ys) c = encodeSteps ys (encodeSteps xs c) := by
  induction xs generalizing c with
  | nil => rfl
  | cons step rest ih => exact ih _

theorem Codes.pure (x : α) : Codes [] (Pure.pure x) x :=
  fun _ hc hp _ => ⟨hc, hp, fun _ hs => ⟨hs, fun _ ht => ⟨rfl, ht⟩⟩⟩

theorem Codes.step (step : Step) (hvalid : step.Valid) :
    Codes [step] (step.decode : Decoder ℤ) (step.value : ℤ) := by
  intro c hc hp hroom
  have henc := step.encodes hvalid c hc hp hroom
  refine ⟨henc.encoding, henc.normal, ?_⟩
  intro s hs
  exact ⟨henc.transfer.back s hs, fun d ht => henc.transfer.forth s d hs ht⟩

theorem Codes.equi (n t : ℕ) (ht : t < n) (hn : n < 0x80000000) :
    Codes [.equiprobable n t] (decodeEqui n) (t : ℤ) :=
  Codes.step (.equiprobable n t) ⟨ht, hn⟩

theorem Codes.sym (frequencies : List ℕ) (n t : ℕ) (ht : t < n) (hf : Cumulative frequencies n) :
    Codes [.symbol frequencies n t] (decodeSym frequencies n) (t : ℤ) :=
  Codes.step (.symbol frequencies n t) ⟨ht, hf⟩

/-- One piece after another. -/
theorem Codes.bind {xs ys : List Step} {first : Decoder α}
    {second : α → Decoder β} {x : α} {y : β}
    (h1 : Codes xs first x) (h2 : Codes ys (second x) y) :
    Codes (xs ++ ys) (first >>= second) y := by
  intro c hc hp hroom
  rw [encodeSteps_append] at hroom ⊢
  obtain ⟨hc1, hp1, hback1⟩ := h1 c hc hp (encodeSteps_outOfBits ys _ hroom)
  obtain ⟨hc2, hp2, hback2⟩ := h2 _ hc1 hp1 hroom
  refine ⟨hc2, hp2, ?_⟩
  intro s hs
  obtain ⟨hden, hforth2⟩ := hback2 s hs
  obtain ⟨hden', hforth1⟩ := hback1 s hden
  refine ⟨hden', ?_⟩
  intro d ht
  obtain ⟨hx, ht1⟩ := hforth1 d ht
  obtain ⟨hy, ht2⟩ := hforth2 _ ht1
  have hrun : (first >>= second).run d = (second (first.run d).1).run (first.run d).2 := rfl
  rw [hrun, hx]
  exact ⟨hy, ht2⟩

theorem Codes.cons {step : Step} {ys : List Step} {first : Decoder α} {second : α → Decoder β}
    {x : α} {y : β} (h1 : Codes [step] first x) (h2 : Codes ys (second x) y) :
    Codes (step :: ys) (first >>= second) y := h1.bind h2

theorem Codes.map {xs : List Step} {first : Decoder α} {x : α}
    (h : Codes xs first x) (f : α → β) :
    Codes xs (do let a ← first; Pure.pure (f a)) (f x) := by
  have hbind : Codes (xs ++ []) (first >>= fun a => Pure.pure (f a)) (f x) :=
    h.bind (Codes.pure (f x))
  rwa [List.append_nil] at hbind

theorem Codes.all (steps : List Step) (hvalid : ∀ step ∈ steps, step.Valid) :
    Codes steps (decodeAll steps) (steps.map fun step => (step.value : ℤ)) := by
  induction steps with
  | nil => exact Codes.pure []
  | cons step rest ih =>
    have hfirst := Codes.step step (hvalid step (List.mem_cons_self ..))
    have hrest := ih (fun x hx => hvalid x (List.mem_cons_of_mem _ hx))
    exact hfirst.cons (hrest.map fun xs => (step.value : ℤ) :: xs)

/-- A message that is coded from a fresh coder and concluded is returned by
its decoder, whatever bits follow. -/
theorem Codes.decoded {steps : List Step} {decode : Decoder α} {x : α} (h : Codes steps decode x)
    (buffer : List UInt8) (hroom : (encoded buffer steps).outOfBits = false)
    (stream : List UInt8) (length : ℕ) (further : List Bool)
    (hstream : streamBits stream length = emitted (encoded buffer steps) ++ further) :
    (decode.run (rangeDecodePrefetch (decoderOn stream length))).1 = x := by
  obtain ⟨hc, hphase⟩ := rangeNewCoder_encoding buffer
  have hp : Normal 30 (phase (rangeNewCoder buffer)) := by
    rw [hphase]
    exact fresh_normal
  obtain ⟨hc', hp', hback⟩ := h _ hc hp (rangeConclude_outOfBits _ hroom)
  have hden := (rangeConclude_denotes _ hc' hp' hroom _
    (starts_decoderStream stream length _ further hstream)).2
  refine ((hback _ hden).2 _ ?_).1
  rw [hphase]
  exact rangeDecodePrefetch_tracks stream length

end Succinct.RangeCodecs
