import Barline.Proofs.Modulation.Joining
import Barline.Proofs.Modulation.Strict
import Barline.Proofs.Modulation.Unplaced
import Barline.Proofs.Score.Elements

/-!
# Parsed programs are well-formed

Ranges of pitches go upwards through MIDI pitches, bars count from one, and a call at any depth has
as many arguments as its function takes, so that evaluation finds every argument it cannot do
without.
-/

namespace Barline.Modulation

open Barline.Random (Source)

namespace Program

lemma wellFormed_of_parse {text : List Char} {program : Program} (h : parse text = .ok program) :
    ∀ a ∈ program, a.wellFormed := by
  obtain ⟨front, rest, -, -, hread⟩ := of_parse h
  have hsame := (Parse.relates_readAlike.assignments _).holds hread
  rw [List.forall₂_same] at hsame
  exact fun a ha => (hsame a ha).wellFormed

/-- **Parsed programs are well-formed.** Every assignment has pitches in order up to 127, bars from
one on, and calls with as many arguments as their functions take, so that no argument a call cannot
do without is ever made up. -/
theorem parse_wellFormed {text : List Char} {program : Program} (h : parse text = .ok program) :
    ∀ a ∈ program,
      (∀ r ∈ a.pitches, r.low ≤ r.high ∧ r.high ≤ 127) ∧
      (∀ r ∈ a.stretch, 1 ≤ r.startBar ∧ 1 ≤ r.endBar) ∧
      a.value.wellFormed ∧
      ∀ {σ : Type} [Source σ] (v : View),
        (a.value.strictEvaluate v : Strict σ Float) = .of (a.value.evaluate v) := by
  intro a ha
  have hwell := wellFormed_of_parse h a ha
  simp only [Assignment.wellFormed, Bool.and_eq_true, Option.all_eq_true] at hwell
  obtain ⟨⟨hpitches, hstretch⟩, hvalue⟩ := hwell
  refine ⟨fun r hr => ?_, fun r hr => ?_, hvalue, a.value.strictEvaluate_eq hvalue⟩
  · simpa [PitchRange.wellFormed] using hpitches r hr
  · simpa [TimeRange.wellFormed] using hstretch r hr

/-- Calls stand in calls, behind a range of pitches and a stretch. -/
theorem parse_wellFormed_nested :
    let text := "C3-D3 1|1-2|1+1/2 velocity += ramp(cos(1:0t, 0.5), -square(4t) * noise())".toList
    ∃ program : Program, parse text = .ok program ∧
      program.map (fun a => (a.pitches, a.stretch)) =
        [(some ⟨60, 62⟩, some ⟨1, 1.0, 2, 1.5⟩)] ∧
      ∀ a ∈ program,
        (∀ r ∈ a.pitches, r.low ≤ r.high ∧ r.high ≤ 127) ∧
        (∀ r ∈ a.stretch, 1 ≤ r.startBar ∧ 1 ≤ r.endBar) ∧
        a.value.wellFormed ∧
        ∀ {σ : Type} [Source σ] (v : View),
          (a.value.strictEvaluate v : Strict σ Float) = .of (a.value.evaluate v) := by
  intro text
  have hparse : (parse text).map (List.map fun a => (a.pitches, a.stretch)) =
      .ok [(some ⟨60, 62⟩, some ⟨1, 1.0, 2, 1.5⟩)] := by decide +kernel
  obtain ⟨program, hprogram, hlimits⟩ := exists_of_map_eq_ok hparse
  exact ⟨program, hprogram, hlimits, parse_wellFormed hprogram⟩

end Program

end Barline.Modulation
