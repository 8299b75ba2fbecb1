import Barline.Proofs.Modulation.Noiseless
import Barline.Proofs.Number.Rounding

/-!
# The order of the notes

A program without noise sees of the other notes only where the last of them ends, and that does not
hang on their order.
-/

namespace Barline.Modulation

open Number
open Barline.Random (Source)

/-- The clip ends where the last note does, in whatever order the notes come. -/
lemma clipOf_perm (signature : Signature) {notes notes' : List Note} (h : notes.Perm notes') :
    clipOf signature notes = clipOf signature notes' := by
  unfold clipOf
  rw [foldl_larger_perm (h.map _) rfl le_rfl]

namespace Program

variable {σ : Type} [Source σ]

lemma changedCount_map (notes : List Note) (f : Note → Note) :
    changedCount notes (notes.map f) = notes.countP fun n => !n.agrees (f n) := by
  have hzip : notes.zip (notes.map f) = notes.map fun n => (n, f n) := by
    simpa using List.zip_map' (f := id) (g := f) (l := notes)
  rw [changedCount, hzip, List.countP_map]
  rfl

lemma outcomeOf_perm (program : Program) (signature : Signature) {notes notes' : List Note}
    (h : notes'.Perm notes) :
    (program.outcomeOf signature notes').changed = (program.outcomeOf signature notes).changed ∧
      (program.outcomeOf signature notes').failures.Perm
        (program.outcomeOf signature notes).failures := by
  unfold outcomeOf
  dsimp only
  rw [clipOf_perm signature h]
  split_ifs
  · exact ⟨rfl, .refl _⟩
  · refine ⟨?_, h.flatMap_right _⟩
    simp only [Outcome.changed, changedCount_map]
    exact h.countP_eq _

/-- **The order of the notes does not matter.** A program without noise gives the notes of a list in
another order the same fields as in the first one, so they come out in that other order. As many
notes are changed, and the same assignments fail. -/
theorem apply_permuted {program : Program} (hfree : ∀ a ∈ program, a.value.noiseFree)
    (signature : Signature) {count : ℕ} (notes : Fin count → Note) (order : Equiv.Perm (Fin count))
    (source source' : σ) :
    ∃ (after : Fin count → Note) (outcome outcome' : Outcome),
      (program.apply signature (List.ofFn notes)).run source =
        ((List.ofFn after, outcome), source) ∧
      (program.apply signature (List.ofFn (notes ∘ order))).run source' =
        ((List.ofFn (after ∘ order), outcome'), source') ∧
      outcome'.changed = outcome.changed ∧ outcome'.failures.Perm outcome.failures := by
  have hperm : (List.ofFn (notes ∘ order)).Perm (List.ofFn notes) :=
    Equiv.Perm.ofFn_comp_perm order notes
  have hclip := clipOf_perm signature hperm
  refine ⟨program.edited signature (clipOf signature (List.ofFn notes)) ∘ notes,
    program.outcomeOf signature (List.ofFn notes),
    program.outcomeOf signature (List.ofFn (notes ∘ order)), ?_, ?_,
    program.outcomeOf_perm signature hperm⟩
  · rw [apply_run hfree, List.map_ofFn]
  · rw [apply_run hfree, List.map_ofFn, hclip]
    rfl

/-- A ramp over the clip, and two notes that change places. -/
theorem apply_permuted_ramp :
    let program : Program :=
      [⟨none, none, .velocity, .set, .call .ramp [.number 40.0, .number 120.0], ⟨1, 1⟩⟩,
        ⟨some ⟨60, 60⟩, none, .timing, .add, .property "nothing", ⟨2, 1⟩⟩]
    let notes : Fin 3 → Note := ![⟨60, 0.0, 1.0, 100.0, 1.0, 0.0⟩, ⟨62, 1.0, 1.0, 100.0, 1.0, 0.0⟩,
      ⟨64, 2.0, 2.0, 100.0, 1.0, 0.0⟩]
    let order : Equiv.Perm (Fin 3) := Equiv.swap 0 2
    (∀ a ∈ program, a.value.noiseFree) ∧
    ∃ (after : Fin 3 → Note) (outcome outcome' : Outcome),
      (program.apply .common (List.ofFn notes)).run () = ((List.ofFn after, outcome), ()) ∧
      (program.apply .common (List.ofFn (notes ∘ order))).run () =
        ((List.ofFn (after ∘ order), outcome'), ()) ∧
      outcome'.changed = outcome.changed ∧ outcome'.failures.Perm outcome.failures :=
  ⟨by decide, apply_permuted (by decide) .common _ _ () ()⟩

end Program

end Barline.Modulation
