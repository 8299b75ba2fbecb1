import Barline.Modulation.Pass
import Barline.Proofs.Modulation.Silence

/-!
# Programs without noise

A program without noise leaves the random source alone and edits each note by itself. Of the
assignments to a parameter that are about the note and have a value, the last one makes the edit.
-/

namespace Barline.Modulation

open Barline.Random (Source)

namespace Program

/-- The pitch range that holds at the assignment with index `i`: the nearest one that is declared
there or before. -/
def rangeAt (program : Program) (i : ℕ) : Option PitchRange :=
  ((program.take (i + 1)).filterMap (·.pitches)).getLast?

/-- The assignments that are about a note: its pitch lies in the range that holds there, and its
start in the stretch of the assignment. -/
def about (program : Program) (signature : Signature) (n : Note) : List Assignment :=
  (program.zipIdx.filter fun x => x.1.covers (program.rangeAt x.2) n signature).map (·.1)

end Program

/-- What an assignment comes to for a note. -/
def Assignment.outcome (a : Assignment) (signature : Signature) (clip : Span) (n : Note) :
    Except EvalError Float :=
  a.value.outcome ⟨n, signature, a.span clip signature⟩

namespace Program

/-- The edits of a parameter that have a value, in order. -/
def standing (program : Program) (signature : Signature) (clip : Span) (n : Note)
    (p : Parameter) : List Edit :=
  (program.about signature n).filterMap fun a =>
    if a.parameter = p then (a.outcome signature clip n).toOption.map (⟨a.assign, ·⟩) else none

/-- The assignments that are about a note and have no value for it. -/
def failing (program : Program) (signature : Signature) (clip : Span) (n : Note) :
    List Assignment :=
  (program.about signature n).filter fun a => !(a.outcome signature clip n).isOk

variable (program : Program) (a : Assignment)

lemma rangeAt_append_of_lt {i : ℕ} (h : i < program.length) :
    rangeAt (program ++ [a]) i = program.rangeAt i := by
  rw [rangeAt, List.take_append_of_le_length h, rangeAt]

lemma rangeAt_append_length :
    rangeAt (program ++ [a]) program.length =
      (a.pitches <|> (program.filterMap (·.pitches)).getLast?) := by
  rw [rangeAt, List.take_of_length_le (by simp), List.filterMap_append]
  cases h : a.pitches <;> simp [h]

lemma about_append (signature : Signature) (n : Note) :
    about (program ++ [a]) signature n = program.about signature n ++
      if a.covers (a.pitches <|> (program.filterMap (·.pitches)).getLast?) n signature then [a]
      else [] := by
  have hold :
      program.zipIdx.filter (fun x => x.1.covers (rangeAt (program ++ [a]) x.2) n signature) =
      program.zipIdx.filter fun x => x.1.covers (program.rangeAt x.2) n signature := by
    refine List.filter_congr fun x hx => ?_
    rw [rangeAt_append_of_lt program a (List.snd_lt_of_mem_zipIdx hx)]
  unfold about
  rw [List.zipIdx_append, List.filter_append, hold, List.map_append, Nat.zero_add,
    List.zipIdx_singleton, List.filter_cons, rangeAt_append_length, List.filter_nil]
  split_ifs <;> rfl

variable {program a} {signature : Signature} {n : Note}

lemma standing_append (clip : Span)
    (h : about (program ++ [a]) signature n = program.about signature n ++ [a]) (p : Parameter) :
    standing (program ++ [a]) signature clip n p = program.standing signature clip n p ++
      (if a.parameter = p then (a.outcome signature clip n).toOption.map (⟨a.assign, ·⟩)
        else none).toList := by
  rw [standing, h, List.filterMap_append, standing, List.filterMap_cons, List.filterMap_nil]
  generalize (if a.parameter = p then _ else _ : Option Edit) = e
  cases e <;> rfl

lemma failing_append (clip : Span)
    (h : about (program ++ [a]) signature n = program.about signature n ++ [a]) :
    failing (program ++ [a]) signature clip n = program.failing signature clip n ++
      if (a.outcome signature clip n).isOk then [] else [a] := by
  rw [failing, h, List.filter_append, failing, List.filter_singleton]
  cases (a.outcome signature clip n).isOk <;> rfl

end Program

/-- One assignment for one note, on the silent source. -/
def Assignment.advance (signature : Signature) (clip : Span) (n : Note) (p : Progress)
    (a : Assignment) : Progress :=
  let pitches := a.pitches <|> p.pitches
  let p := { p with pitches := pitches }
  if a.covers pitches n signature then
    match a.outcome signature clip n with
    | .ok x => { p with edits := p.edits.put a.parameter ⟨a.assign, x⟩ }
    | .error e =>
      { p with failures := p.failures ++ [a.failure ⟨n, signature, a.span clip signature⟩ e] }
  else p

/-- What a performance of the program so far has to know of a note. -/
structure Progress.Tells (p : Progress) (program : Program) (signature : Signature) (clip : Span)
    (n : Note) : Prop where
  pitches : p.pitches = (program.filterMap (·.pitches)).getLast?
  edits : ∀ q, p.edits q = (program.standing signature clip n q).getLast?
  failures : p.failures.length = (program.failing signature clip n).length

lemma run_bind_of_run {σ α β : Type} {x : StateM σ α} {a : α} {s t : σ} (h : x.run s = (a, t))
    (f : α → StateM σ β) : (x >>= f).run s = (f a).run t := by
  rw [StateT.run_bind, h]
  rfl

section

variable {σ : Type} [Source σ] {signature : Signature} {clip : Span} {n : Note}

/-- An assignment without noise does on every source what it does on the silent one. -/
lemma Assignment.step_run {a : Assignment} (ha : a.value.noiseFree) (p : Progress) (source : σ) :
    (a.step signature clip n p).run source = (a.advance signature clip n p, source) := by
  have hv := Expr.silent_evaluate ha ⟨n, signature, a.span clip signature⟩ source
  unfold Assignment.step Assignment.advance Assignment.outcome
  dsimp only
  split_ifs
  · rw [run_bind_of_run hv]
    cases a.value.outcome ⟨n, signature, a.span clip signature⟩ <;> rfl
  · rfl

/-- What is known stays true over one more assignment. -/
theorem Progress.Tells.advance {p : Progress} {program : Program}
    (h : p.Tells program signature clip n) (a : Assignment) :
    (a.advance signature clip n p).Tells (program ++ [a]) signature clip n := by
  have hrange : (a.pitches <|> p.pitches) =
      (List.filterMap (·.pitches) (program ++ [a])).getLast? := by
    rw [h.pitches, ← Program.rangeAt_append_length, Program.rangeAt,
      List.take_of_length_le (by simp)]
  have habout := program.about_append a signature n
  rw [← h.pitches] at habout
  unfold Assignment.advance
  dsimp only
  by_cases hc : a.covers (a.pitches <|> p.pitches) n signature
  · rw [if_pos hc] at habout ⊢
    have hfailing := Program.failing_append clip habout
    cases ho : a.outcome signature clip n with
    | ok x =>
      rw [ho] at hfailing
      refine ⟨hrange, fun q => ?_, by simp [hfailing, h.failures, Except.isOk, Except.toBool]⟩
      rw [Program.standing_append clip habout, ho]
      by_cases hq : a.parameter = q
      · subst hq
        simp [Edits.put, Except.toOption]
      · simp [Edits.put, hq, Ne.symm hq, h.edits]
    | error e =>
      rw [ho] at hfailing
      refine ⟨hrange, fun q => ?_, by simp [hfailing, h.failures, Except.isOk, Except.toBool]⟩
      rw [Program.standing_append clip habout, ho]
      simp [h.edits, Except.toOption]
  · rw [if_neg hc] at habout ⊢
    rw [List.append_nil] at habout
    exact ⟨hrange, fun q => by rw [h.edits, Program.standing, Program.standing, habout],
      by rw [h.failures, Program.failing, Program.failing, habout]⟩

/-- A whole program tells what a performance of it has to know. -/
theorem Program.tells_foldl (program : Program) :
    (program.foldl (Assignment.advance signature clip n) .initial).Tells program signature clip
      n := by
  induction program using List.reverseRecOn with
  | nil => exact ⟨rfl, fun _ => rfl, rfl⟩
  | append_singleton program a ih =>
    rw [List.foldl_append]
    exact ih.advance a

lemma Program.foldlM_run {program : Program} (hfree : ∀ a ∈ program, a.value.noiseFree)
    (p : Progress) (source : σ) :
    (program.foldlM (Assignment.step signature clip n) p).run source =
      (program.foldl (Assignment.advance signature clip n) p, source) := by
  induction program generalizing p with
  | nil => rfl
  | cons a program ih =>
    rw [List.foldlM_cons, run_bind_of_run (Assignment.step_run (hfree a (by simp)) p source)]
    exact ih (fun b hb => hfree b (by simp [hb])) _

lemma Edits.read_apply (edits : Edits) (n : Note) (p : Parameter) :
    p.read (edits.apply n) = edits.result n p := by cases p <;> rfl

/-- A note after a whole program. -/
def Program.progress (program : Program) (signature : Signature) (clip : Span) (n : Note) :
    Progress :=
  program.foldl (Assignment.advance signature clip n) .initial

lemma Program.tells_progress (program : Program) (signature : Signature) (clip : Span)
    (n : Note) : (program.progress signature clip n).Tells program signature clip n :=
  program.tells_foldl

lemma Program.modulateNote_run {program : Program} (hfree : ∀ a ∈ program, a.value.noiseFree)
    (n : Note) (source : σ) :
    (program.modulateNote signature clip n).run source =
      (((program.progress signature clip n).edits.apply n,
        (program.progress signature clip n).failures), source) := by
  unfold Program.modulateNote
  rw [run_bind_of_run (foldlM_run hfree .initial source)]
  rfl

end

namespace Program

variable {σ : Type} [Source σ]

lemma modulateAll_run {program : Program} (hfree : ∀ a ∈ program, a.value.noiseFree)
    (signature : Signature) (notes : List Note) (source : σ) :
    (program.modulateAll signature notes).run source =
      (notes.map fun n =>
        ((program.progress signature (clipOf signature notes) n).edits.apply n,
          (program.progress signature (clipOf signature notes) n).failures), source) := by
  unfold modulateAll
  generalize clipOf signature notes = clip
  induction notes with
  | nil => rfl
  | cons n notes ih =>
    rw [List.mapM_cons, run_bind_of_run (modulateNote_run hfree n source), run_bind_of_run ih]
    rfl

/-- A note after a program without noise. -/
def edited (program : Program) (signature : Signature) (clip : Span) (n : Note) : Note :=
  (program.progress signature clip n).edits.apply n

/-- What came of a program without noise. -/
def outcomeOf (program : Program) (signature : Signature) (notes : List Note) : Outcome :=
  let clip := clipOf signature notes
  if program.isEmpty then .idle
  else .applied (changedCount notes (notes.map (program.edited signature clip)))
    (notes.flatMap fun n => (program.progress signature clip n).failures)

/-- A program without noise edits each note by itself. -/
theorem apply_run {program : Program} (hfree : ∀ a ∈ program, a.value.noiseFree)
    (signature : Signature) (notes : List Note) (source : σ) :
    (program.apply signature notes).run source =
      ((notes.map (program.edited signature (clipOf signature notes)),
        program.outcomeOf signature notes), source) := by
  unfold apply outcomeOf
  by_cases hempty : program.isEmpty
  · obtain rfl := List.isEmpty_iff.mp hempty
    have hsame : ∀ clip, edited [] signature clip = id := fun _ => rfl
    rw [hsame, List.map_id]
    rfl
  · rw [if_neg hempty, if_neg hempty, run_bind_of_run (modulateAll_run hfree ..)]
    simp only [List.map_map, List.flatMap_map]
    rfl

end Program

end Barline.Modulation
