import Succinct.FieldAlphabets
import Succinct.TextRoundTrip
import Succinct.UnicodeForms

/-!
A text of the basic plane survives compression: its units are those of its shortest forms,
and the code pages are there for what stands above ASCII.
-/
namespace Succinct.UnicodeText

open Arithmetic RangeLossless RangeMessages RangeCodecs RangeLimits Interpolative Charset
  TextModels TextRoundTrip UnicodeForms

/-- A handle whose code pages are cumulative tables too, with the other pages behind the
characters. -/
structure PagesValid (h : Stats) : Prop where
  stats : Stats.Valid h
  unicodePage : ∀ page, 1 ≤ page → page ≤ 511 → Cumulative (h.unicodePage page) (128 + 512)

structure PlaneText (m : List UInt8) : Prop where
  forms : ShortestForms m
  string : ∀ b ∈ m, b ≠ 0

theorem PlaneText.encodable {h : Stats} (hh : PagesValid h) {m : List UInt8} (hm : PlaneText m)
    (hlen : m.length ≤ 1023) : ∃ s, Encodable h m s := by
  obtain ⟨s, htaken, hback⟩ := hm.forms.loopOn
  have hunits : utf8toutf16 m m.length = some s := by
    have hall := htaken [] m.length le_rfl
    rwa [loopOn, List.append_nil] at hall
  obtain ⟨hcount, hplane⟩ := FieldAlphabets.utf8toutf16Loop_units m m.length m.length 0 hunits
  have hwritten : TextModels.utf16toutf8 s = m := by
    rw [← utf16toutf8_snd, UnicodeForms.utf16toutf8, hback [] (by simpa using hlen)]
    rfl
  exact ⟨s, hh.stats, hlen, hunits, hwritten, hcount, hplane, fun _ _ _ => hh.unicodePage⟩

section Messages

variable (h : Stats) (hh : PagesValid h) {m : List UInt8} (hm : PlaneText m)
    (hlen : m.length ≤ 1023)

include hh hm hlen

theorem plane_text_round_trip (before after : List Step) (hbefore : ∀ step ∈ before, step.Valid)
    (hafter : ∀ step ∈ after, step.Valid) (buffer : List UInt8)
    (hroom : (encoded buffer (before ++ (stats3CompressAppend h m m.length).2 ++
      after)).outOfBits = false)
    (stream : List UInt8) (length : ℕ) (further : List Bool)
    (hstream : streamBits stream length =
      RangePhases.emitted (encoded buffer
        (before ++ (stats3CompressAppend h m m.length).2 ++ after)) ++ further) :
    ((decodeBetween h before after).run (rangeDecodePrefetch (decoderOn stream length))).1 =
      (before.map fun step => (step.value : ℤ), some ⟨m, m.length⟩,
        after.map fun step => (step.value : ℤ)) := by
  obtain ⟨s, he⟩ := PlaneText.encodable hh hm hlen
  exact between_round_trip he before after hbefore hafter buffer hroom stream
    length further hstream

end Messages

def pagedStats : Stats := { evenStats with unicodePage := fun _ => evenTable 20000 640 }

/-- Code pages do not matter to the other tables. -/
theorem valid_withPages {h : Stats} (hh : Stats.Valid h) (pages : ℕ → List ℕ) :
    Stats.Valid { h with unicodePage := pages } := { hh with }

theorem pagedStats_stats : Stats.Valid pagedStats := valid_withPages evenStats_valid _

theorem pagedStats_valid : PagesValid pagedStats where
  stats := pagedStats_stats
  unicodePage := by
    intro _ _ _
    have heven := even_cumulative 20000 640 (by omega) (by omega)
    simp only [pagedStats]
    exact heven

def planeText : List UInt8 := [0xc3, 0x89, 0xc3, 0xa8, 0x20, 0x01, 0xe8, 0xaa, 0x9e, 0x55, 0x37]

theorem planeText_forms : PlaneText planeText where
  forms := by
    refine .two (by decide +kernel) (by unfold Continuation; decide +kernel)
      (by decide +kernel) ?_
    refine .two (by decide +kernel) (by unfold Continuation; decide +kernel)
      (by decide +kernel) ?_
    refine .one (by decide +kernel) (.one (by decide +kernel) ?_)
    refine .three (by decide +kernel) (by unfold Continuation; decide +kernel)
      (by unfold Continuation; decide +kernel) (by decide +kernel) ?_
    exact .one (by decide +kernel) (.one (by decide +kernel) .nil)
  string := by decide +kernel

def planeSteps : List Step :=
  [.equiprobable 5 3] ++ (stats3CompressAppend pagedStats planeText planeText.length).2 ++
    [.equiprobable 9 7]

theorem plane_text_round_trip_pages :
    (encoded (List.replicate 40 0) planeSteps).outOfBits = false ∧
    ((decodeBetween pagedStats [.equiprobable 5 3] [.equiprobable 9 7]).run (rangeDecodePrefetch
      (decoderOn (encoded (List.replicate 40 0) planeSteps).bitStream
        (encoded (List.replicate 40 0) planeSteps).bitsUsed))).1 =
          ([3], some ⟨planeText, 11⟩, [7]) := by
  have hroom : (encoded (List.replicate 40 0) planeSteps).outOfBits = false := by decide +kernel
  have hvalid : ∀ n t : ℕ, t < n ∧ n < 10 → ∀ step ∈ [Step.equiprobable n t], step.Valid := by
    intro n t hnt step hstep
    rw [List.mem_singleton] at hstep
    subst hstep
    exact ⟨hnt.1, by omega⟩
  refine ⟨hroom, ?_⟩
  exact plane_text_round_trip pagedStats pagedStats_valid planeText_forms (by decide)
    [.equiprobable 5 3]
    [.equiprobable 9 7] (hvalid 5 3 (by omega)) (hvalid 9 7 (by omega))
      (List.replicate 40 0) hroom _ _ []
    (List.append_nil _).symm

end Succinct.UnicodeText
