import Barline.Proofs.Binary64.Infinite
import Barline.Proofs.Modulation.Noiseless
import Barline.Proofs.Number.Rounding
import Barline.Proofs.Text.Comments

/-!
# Finite notes

The value of an expression is checked to be finite, but what an addition makes of it is not. A note
stays finite if and only if the sums that its start and its duration become are within reach.
-/

namespace Barline

open Binary64 Number
open Barline.Random (Source)

/-- All the numbers of a note are finite. -/
structure Note.Finite (n : Note) : Prop where
  start : n.start.isFinite
  duration : n.duration.isFinite
  velocity : n.velocity.isFinite
  probability : n.probability.isFinite
  deviation : n.deviation.isFinite

namespace Modulation

/-- Edits whose values are all finite. -/
def Edits.Finite (edits : Edits) : Prop := ∀ p, ∀ edit ∈ edits p, edit.value.isFinite

lemma Edits.Finite.put {edits : Edits} (h : edits.Finite) (p : Parameter) {edit : Edit}
    (hedit : edit.value.isFinite) : (edits.put p edit).Finite := by
  intro q e he
  unfold Edits.put at he
  split_ifs at he
  · rwa [← Option.some.inj he]
  · exact h q e he

section

variable {σ α β γ : Type}

lemma mapM_run_forall {f : α → StateM σ β} {P : β → Prop} (hf : ∀ a s, P ((f a).run s).1)
    (as : List α) (source : σ) : ∀ b ∈ ((as.mapM f).run source).1, P b := by
  induction as generalizing source with
  | nil => nofun
  | cons a as ih =>
    rw [List.mapM_cons, StateT.run_bind]
    rintro b (_ | ⟨_, hb⟩)
    · exact hf a source
    · exact ih _ b hb

lemma mapM_run_map (f : α → StateM σ β) (g : α → β → γ) (as : List α) (source : σ) :
    (as.mapM fun a => f a >>= fun b => pure (g a b)).run source =
      (List.zipWith g as ((as.mapM f).run source).1, ((as.mapM f).run source).2) := by
  induction as generalizing source with
  | nil => rfl
  | cons a as ih =>
    have hfirst : (f a >>= fun b => (pure (g a b) : StateM σ γ)).run source =
      (g a ((f a).run source).1, ((f a).run source).2) := rfl
    rw [List.mapM_cons, List.mapM_cons, run_bind_of_run hfirst, run_bind_of_run (ih _)]
    rfl

end

section

variable {σ : Type} [Source σ]

/-- An expression that has a value for a note has a finite one, whatever was drawn. -/
lemma Expr.isFinite_of_evaluate {e : Expr} {v : View} {source rest : σ} {x : Float}
    (h : (e.evaluate v : Eval σ Float).run.run source = (.ok x, rest)) : x.isFinite := by
  unfold Expr.evaluate at h
  rw [Eval.run_bind] at h
  rcases hvalue : (e.value v : Eval σ Float).run.run source with ⟨error | y, rest'⟩
  · rw [hvalue] at h
    cases h
  · rw [hvalue] at h
    dsimp only at h
    split_ifs at h with hy
    · cases h
      exact hy
    · cases h

/-- One assignment leaves the edits as they are or puts a finite value among them, whatever it
draws. -/
lemma Assignment.step_edits (a : Assignment) (signature : Signature) (clip : Span) (n : Note)
    (p : Progress) (source : σ) :
    ((a.step signature clip n p).run source).1.edits = p.edits ∨
      ∃ x : Float, x.isFinite ∧ ((a.step signature clip n p).run source).1.edits =
        p.edits.put a.parameter ⟨a.assign, x⟩ := by
  unfold Assignment.step
  dsimp only
  split_ifs
  · rcases hrun : (a.value.evaluate ⟨n, signature, a.span clip signature⟩ : Eval σ Float).run.run
      source with ⟨error | x, rest⟩
    · rw [run_bind_of_run hrun]
      exact .inl rfl
    · rw [run_bind_of_run hrun]
      exact .inr ⟨x, Expr.isFinite_of_evaluate hrun, rfl⟩
  · exact .inl rfl

lemma Assignment.step_finite {signature : Signature} {clip : Span} {n : Note} {p : Progress}
    (h : p.edits.Finite) (a : Assignment) (source : σ) :
    ((a.step signature clip n p).run source).1.edits.Finite := by
  obtain hsame | ⟨x, hx, hput⟩ := a.step_edits signature clip n p source
  · rwa [hsame]
  · rw [hput]
    exact h.put a.parameter hx

namespace Program

/-- What is known of each of the notes after a whole program. -/
def course (program : Program) (signature : Signature) (notes : List Note) :
    StateM σ (List Progress) :=
  notes.mapM fun n =>
    program.foldlM (Assignment.step signature (clipOf signature notes) n) .initial

lemma foldlM_finite (program : Program) {signature : Signature} {clip : Span} {n : Note}
    {p : Progress} (h : p.edits.Finite) (source : σ) :
    ((program.foldlM (Assignment.step signature clip n) p).run source).1.edits.Finite := by
  induction program generalizing p source with
  | nil => exact h
  | cons a program ih =>
    rw [List.foldlM_cons, StateT.run_bind]
    exact ih (a.step_finite h source) _

lemma modulateAll_fst (program : Program) (signature : Signature) (notes : List Note)
    (source : σ) :
    ((program.modulateAll signature notes).run source).1.map (·.1) =
      List.zipWith (fun n p => p.edits.apply n) notes
        ((program.course signature notes).run source).1 := by
  unfold modulateAll course modulateNote
  generalize clipOf signature notes = clip
  have hrun := mapM_run_map (fun n => program.foldlM (Assignment.step signature clip n) .initial)
    (fun n p => (p.edits.apply n, p.failures)) notes source
  rw [hrun, List.map_zipWith]

lemma apply_fst (program : Program) (signature : Signature) (notes : List Note) (source : σ) :
    ((program.apply signature notes).run source).1.1 =
      List.zipWith (fun n p => p.edits.apply n) notes
        ((program.course signature notes).run source).1 := by
  unfold apply
  by_cases hempty : program.isEmpty
  · obtain rfl := List.isEmpty_iff.mp hempty
    have hcourse : (course [] signature notes : StateM σ _) =
        pure (notes.map fun _ => Progress.initial) := List.mapM_pure
    rw [if_pos hempty, hcourse]
    change notes = List.zipWith _ notes (notes.map _)
    rw [List.zipWith_map_right, List.zipWith_self]
    exact (List.map_id notes).symm
  · rw [if_neg hempty, ← modulateAll_fst]
    rfl

end Program

end

lemma isFinite_clamp {low high x : Float} (hl : low.isFinite) (hh : high.isFinite)
    (hx : x.isNaN = false) (h : value low ≤ value high) : (clamp low high x).isFinite := by
  have hln := isNaN_of_isFinite hl
  have hhn := isNaN_of_isFinite hh
  have hlow := (isFinite_iff low).mp hl
  have hhigh := (isFinite_iff high).mp hh
  rw [isFinite_iff, value_clamp hln hhn hx h]
  rw [abs_lt] at hlow hhigh ⊢
  exact ⟨isNaN_clamp hln hhn hx, hlow.2.1.trans_le (le_max_left ..),
    max_lt hlow.2.2 ((min_le_left ..).trans_lt hhigh.2.2)⟩

/-- The larger of two numbers, of which the second is finite, is finite unless the first is
infinite. -/
lemma isFinite_larger {x y : Float} (hx : x.isNaN = false) (hy : y.isFinite) :
    (larger x y).isFinite ↔ x ≠ 1.0 / 0.0 := by
  constructor
  · rintro h rfl
    have hlt := (abs_lt.mp ((isFinite_iff _).mp h).2).2
    have hle := (larger_left (x := 1.0 / 0.0) rfl y).2
    rw [value_infinity] at hle
    exact absurd hlt hle.not_gt
  · intro hne
    rw [larger_eq hx (isNaN_of_isFinite hy)]
    split_ifs with hlt
    · exact hy
    · have hlow := (abs_lt.mp ((isFinite_iff y).mp hy).2).1
      by_contra hinfinite
      rw [Bool.not_eq_true] at hinfinite
      rcases eq_of_not_isFinite hinfinite with rfl | rfl | rfl
      · exact hne rfl
      · exact hlt (value_neg_infinity ▸ hlow)
      · cases hx

lemma Edit.isNaN_apply {e : Edit} {current : Float} (he : e.value.isFinite)
    (hc : current.isFinite) : (e.apply current).isNaN = false := by
  unfold Edit.apply
  split
  · exact isNaN_of_isFinite he
  · exact (rounds_add hc he).isNaN_eq

namespace Edits

/-- The sums that additions make of the start and of the duration of a note are within reach. That
of the duration may be out of reach below, since the least duration takes its place. -/
structure Bounded (edits : Edits) (n : Note) : Prop where
  start : ∀ x, edits .timing = some ⟨.add, x⟩ → (n.start + x).isFinite
  duration : ∀ x, edits .duration = some ⟨.add, x⟩ → n.duration + x ≠ 1.0 / 0.0

variable {edits : Edits} {n : Note}

lemma Finite.velocity (h : edits.Finite) (hn : n.Finite) :
    (edits.result n .velocity).isFinite := by
  unfold result
  cases he : edits .velocity with
  | none => exact hn.velocity
  | some e =>
    exact isFinite_clamp rfl rfl (e.isNaN_apply (h _ e he) hn.velocity) (by decide +kernel)

lemma Finite.probability (h : edits.Finite) (hn : n.Finite) :
    (edits.result n .probability).isFinite := by
  unfold result
  cases he : edits .probability with
  | none => exact hn.probability
  | some e =>
    exact isFinite_clamp rfl rfl (e.isNaN_apply (h _ e he) hn.probability) (by decide +kernel)

lemma Finite.start_iff (h : edits.Finite) (hn : n.Finite) :
    (edits.result n .timing).isFinite ↔
      ∀ x, edits .timing = some ⟨.add, x⟩ → (n.start + x).isFinite := by
  unfold result
  rcases he : edits .timing with _ | ⟨assign, x⟩
  · exact iff_of_true hn.start nofun
  · cases assign with
    | set => exact iff_of_true (h _ _ he) (by simp)
    | add => simp [Parameter.limit, Edit.apply, Parameter.read]

lemma Finite.duration_iff (h : edits.Finite) (hn : n.Finite) :
    (edits.result n .duration).isFinite ↔
      ∀ x, edits .duration = some ⟨.add, x⟩ → n.duration + x ≠ 1.0 / 0.0 := by
  unfold result
  rcases he : edits .duration with _ | ⟨assign, x⟩
  · exact iff_of_true hn.duration (by simp)
  · have hx : x.isFinite := h .duration ⟨assign, x⟩ he
    have hlimit {y : Float} (hy : y.isNaN = false) :
        (Parameter.limit y .duration).isFinite ↔ y ≠ 1.0 / 0.0 := isFinite_larger hy rfl
    cases assign with
    | set =>
      refine iff_of_true ((hlimit (isNaN_of_isFinite hx)).mpr ?_) (by simp)
      rintro rfl
      cases hx
    | add =>
      refine (hlimit (rounds_add hn.duration hx).isNaN_eq).trans ?_
      simp

/-- Edits with finite values keep a note finite if and only if their sums are within reach. -/
theorem Finite.apply_iff (h : edits.Finite) (hn : n.Finite) :
    (edits.apply n).Finite ↔ edits.Bounded n := by
  constructor
  · intro ha
    exact ⟨(h.start_iff hn).mp ha.start, (h.duration_iff hn).mp ha.duration⟩
  · intro hb
    exact ⟨(h.start_iff hn).mpr hb.start, (h.duration_iff hn).mpr hb.duration, h.velocity hn,
      h.probability hn, hn.deviation⟩

end Edits

lemma Program.parse_blank {text : List Char} (h : text.all isBlank) :
    Program.parse text = .ok [] := by
  have htrivia : Trivia text [] := by
    induction text with
    | nil => exact .nil
    | cons c text ih =>
      rw [List.all_cons, Bool.and_eq_true] at h
      exact .blank h.1 (ih h.2)
  have hskip : Scan.skipTrivia (Cursor.start text) = .ok ((), ⟨[], Position.start.pastAll text⟩) :=
    Scan.skipTrivia_eq_ok.mpr ⟨text, [], (List.append_nil text).symm, rfl, htrivia, by simp [Solid]⟩
  have hnext : Lexer.nextToken (Cursor.start text) =
      .ok (none, ⟨[], Position.start.pastAll text⟩) := by
    change (Scan.skipTrivia (Cursor.start text) >>= fun p => _) = _
    rw [hskip]
    rfl
  have htokens : tokenize text = .ok [⟨.finish, Position.start.pastAll text⟩] := by
    change (((Lexer.nextToken (Cursor.start text) >>= fun p => _) >>= fun p => _).map _) = _
    rw [hnext]
    rfl
  change (tokenize text >>= Parse.program) = _
  rw [htokens]
  rfl

section

variable {σ : Type} [Source σ]

/-- A program keeps finite notes finite if and only if the sums that its edits make are within
reach. -/
theorem Program.apply_finite_iff (program : Program) (signature : Signature) {notes : List Note}
    (hfinite : ∀ n ∈ notes, n.Finite) (source : σ) :
    (∀ m ∈ ((program.apply signature notes).run source).1.1, m.Finite) ↔
      ∀ x ∈ notes.zip ((program.course signature notes).run source).1, x.2.edits.Bounded x.1 := by
  rw [apply_fst, ← List.map_uncurry_zip_eq_zipWith, List.forall_mem_map]
  refine forall₂_congr fun x hx => ?_
  obtain ⟨hnote, hprogress⟩ := List.of_mem_zip hx
  have hedits := mapM_run_forall (P := (·.edits.Finite))
    (fun n s => program.foldlM_finite (p := .initial) nofun s) notes source x.2 hprogress
  exact hedits.apply_iff (hfinite x.1 hnote)

/-- **Finite notes stay finite if and only if no sum overflows.** What a modulation writes to a note
is finite, with one exception: the start and the duration that an addition leaves are the sums of
two finite numbers, and those have to be within reach. -/
theorem modulate_finite_iff (text : List Char) (numerator denominator : UInt32)
    {notes : List Note} (hfinite : ∀ n ∈ notes, n.Finite) (source : σ) :
    (∀ m ∈ ((modulate text numerator denominator notes).run source).1.1, m.Finite) ↔
      ∀ signature program, Signature.make numerator denominator = .ok signature →
        Program.parse text = .ok program →
        ∀ x ∈ notes.zip ((program.course signature notes).run source).1,
          x.2.edits.Bounded x.1 := by
  unfold modulate
  split_ifs with hidle
  · refine iff_of_true hfinite fun signature program _ hprogram => ?_
    rcases (Bool.or_eq_true ..).mp hidle with hblank | hempty
    · obtain rfl : [] = program := Except.ok.inj ((Program.parse_blank hblank).symm.trans hprogram)
      exact (Program.apply_finite_iff [] signature hfinite source).mp hfinite
    · obtain rfl := List.isEmpty_iff.mp hempty
      nofun
  · cases hsignature : Signature.make numerator denominator with
    | error e => exact iff_of_true hfinite nofun
    | ok signature =>
      cases hprogram : Program.parse text with
      | error e => exact iff_of_true hfinite nofun
      | ok program =>
        rw [program.apply_finite_iff signature hfinite]
        constructor
        · rintro h _ _ ⟨⟩ ⟨⟩
          exact h
        · intro h
          exact h signature program rfl rfl

/-- One note is moved and made longer, within reach. -/
theorem modulate_finite_iff_moved :
    let notes : List Note := [⟨60, 1.5, 1.0, 100.0, 1.0, 0.0⟩]
    let text := "timing += -note.start * 2 duration += 1000".toList
    (∀ n ∈ notes, n.Finite) ∧
    ((∀ m ∈ ((modulate text 4 4 notes).run ()).1.1, m.Finite) ↔
      ∀ signature program, Signature.make 4 4 = .ok signature →
        Program.parse text = .ok program →
        ∀ x ∈ notes.zip ((program.course signature notes).run ()).1,
          x.2.edits.Bounded x.1) := by
  have hfinite : ∀ n ∈ [(⟨60, 1.5, 1.0, 100.0, 1.0, 0.0⟩ : Note)], n.Finite :=
    List.forall_mem_singleton.mpr ⟨rfl, rfl, rfl, rfl, rfl⟩
  exact ⟨hfinite, modulate_finite_iff _ 4 4 hfinite ()⟩

/-- A duration that is doubled past the largest number. -/
theorem modulate_finite_doubled :
    let notes : List Note := [⟨60, 0.0, 1.7e308, 100.0, 1.0, 0.0⟩]
    (∀ n ∈ notes, n.Finite) ∧
      ¬ ∀ m ∈ ((modulate "duration += note.duration".toList 4 4 notes).run ()).1.1, m.Finite := by
  have hrun : ((modulate "duration += note.duration".toList 4 4
      [⟨60, 0.0, 1.7e308, 100.0, 1.0, 0.0⟩]).run ()).1.1 =
        [⟨60, 0.0, 1.0 / 0.0, 100.0, 1.0, 0.0⟩] := by decide +kernel
  refine ⟨List.forall_mem_singleton.mpr ⟨rfl, by decide +kernel, rfl, rfl, rfl⟩, ?_⟩
  rw [hrun, List.forall_mem_singleton]
  rintro ⟨-, hduration, -, -, -⟩
  cases hduration

end

end Modulation

end Barline
