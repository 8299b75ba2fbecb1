import Barline.Proofs.Modulation.Finite

/-!
# Notes at the end

A program draws for one note after another. So what it makes of a note does not hang on the notes
behind it, as long as they do not end later than those in front of them.
-/

namespace Barline

open Binary64 Number

/-- Where the last of some notes ends, or zero. -/
def lastFinish (notes : List Note) : Float := (notes.map (·.finish)).foldl larger 0.0

lemma unsigned_lastFinish (notes : List Note) : Unsigned (lastFinish notes) :=
  .foldl ⟨rfl, .inl rfl⟩ _

namespace Modulation

open Barline.Random (Source Tape)

section

variable {σ α β : Type}

lemma mapM_run_append (f : α → StateM σ β) (as bs : List α) (source : σ) :
    ((as ++ bs).mapM f).run source =
      (((as.mapM f).run source).1 ++ ((bs.mapM f).run ((as.mapM f).run source).2).1,
        ((bs.mapM f).run ((as.mapM f).run source).2).2) := by
  rw [List.mapM_append]
  rfl

lemma length_mapM_run (f : α → StateM σ β) (as : List α) (source : σ) :
    ((as.mapM f).run source).1.length = as.length := by
  induction as generalizing source with
  | nil => rfl
  | cons a as ih =>
    rw [List.mapM_cons, StateT.run_bind]
    exact congrArg Nat.succ (ih _)

end

namespace Program

variable {σ : Type} [Source σ]

/-- **Notes at the end.** What a program makes of some notes stays the same, draw by draw, when
notes are added behind them that end no later than the last of them. -/
theorem apply_append {notes more : List Note} (h : lastFinish notes == lastFinish (notes ++ more))
    (program : Program) (signature : Signature) (source : σ) :
    ((program.apply signature (notes ++ more)).run source).1.1.take notes.length =
      ((program.apply signature notes).run source).1.1 := by
  have hclip : clipOf signature (notes ++ more) = clipOf signature notes :=
    congrArg (fun x => Span.mk 0.0 (signature.toBeats x))
      ((unsigned_lastFinish _).eq_of_beq (unsigned_lastFinish _) h).symm
  unfold apply
  by_cases hempty : program.isEmpty
  · rw [if_pos hempty, if_pos hempty]
    exact List.take_left
  · -- The notes in front draw before the added ones, and see the same clip.
    rw [if_neg hempty, if_neg hempty]
    change (((program.modulateAll signature (notes ++ more)).run source).1.map (·.1)).take _ =
      ((program.modulateAll signature notes).run source).1.map (·.1)
    rw [modulateAll, modulateAll, hclip, mapM_run_append, List.map_append]
    exact List.take_left' (by rw [List.length_map, length_mapM_run])

/-- Two notes and then a third, each with a draw of its own. -/
theorem apply_append_noise :
    let program : Program :=
      [⟨none, none, .velocity, .add, .binary .multiply (.number 5.0) (.call .noise []), ⟨1, 1⟩⟩,
        ⟨none, none, .timing, .set, .call .ramp [.number 0.0, .number 1.0], ⟨2, 1⟩⟩]
    let notes : List Note := [⟨60, 0.0, 1.0, 100.0, 1.0, 0.0⟩, ⟨62, 1.0, 2.0, 90.0, 1.0, 0.0⟩]
    let more : List Note := [⟨64, 0.5, 2.5, 80.0, 1.0, 0.0⟩]
    let source : Tape := .ofWords [0, 9223372036854775808, 18446744073709551615]
    lastFinish notes = 3.0 ∧ lastFinish (notes ++ more) = 3.0 ∧
      ((program.apply .common (notes ++ more)).run source).1.1.take notes.length =
        ((program.apply .common notes).run source).1.1 := by
  intro program notes more source
  have hnotes : lastFinish notes = 3.0 := by decide +kernel
  have hmore : lastFinish (notes ++ more) = 3.0 := by decide +kernel
  have hsame : lastFinish notes == lastFinish (notes ++ more) := by
    rw [hnotes, hmore]
    rfl
  exact ⟨hnotes, hmore, apply_append hsame program .common source⟩

end Program

end Modulation

end Barline
