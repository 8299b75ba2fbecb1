import Barline.Proofs.Modulation.Permutation

/-!
# The same program again

What an expression comes to hangs on the place of the note and on the properties that it reads. A
program that sets only velocities and probabilities, and reads neither, finds after one pass the
notes that it found before it, and sets them to the same values again.
-/

namespace Barline.Modulation

open Barline.Random (Source)

mutual

/-- Whether an expression reads a property of the note. -/
def Expr.reads (name : String) : Expr → Bool
  | .number _ => false
  | .period _ _ => false
  | .property other => other = name
  | .binary _ left right => left.reads name || right.reads name
  | .call _ args => Expr.anyReads name args

/-- Whether one of a list of expressions reads a property of the note. -/
def Expr.anyReads (name : String) : List Expr → Bool
  | [] => false
  | e :: es => e.reads name || Expr.anyReads name es

end

/-- Two views from the same place. -/
structure View.Meets (v w : View) : Prop where
  position : v.position = w.position
  signature : v.signature = w.signature
  span : v.span = w.span

section

variable {σ : Type} [Source σ] {v w : View}

lemma Function.apply_congr (h : v.Meets w) (f : Function) (args : List Float) :
    (f.apply v args : Eval σ Float) = f.apply w args := by
  unfold Function.apply Function.wave
  rw [h.position, h.span]

mutual

/-- The value of an expression hangs on nothing that it does not read. -/
theorem Expr.value_congr (h : v.Meets w) : (e : Expr) →
    (∀ name, e.reads name → v.property name = w.property name) →
    (e.value v : Eval σ Float) = e.value w
  | .number x, _ => rfl
  | .period bars beats, _ => by rw [Expr.value, Expr.value, h.signature]
  | .property name, hreads => by
    rw [Expr.value, Expr.value, hreads name (decide_eq_true rfl)]
  | .binary op left right, hreads => by
    have hleft := left.value_congr h fun name hname =>
      hreads name (Bool.or_eq_true_iff.mpr (.inl hname))
    have hright := right.value_congr h fun name hname =>
      hreads name (Bool.or_eq_true_iff.mpr (.inr hname))
    rw [Expr.value, Expr.value, hleft, hright]
  | .call f args, hreads => by
    rw [Expr.value, Expr.value, Expr.values_congr h args hreads]
    exact bind_congr (f.apply_congr h)

theorem Expr.values_congr (h : v.Meets w) : (es : List Expr) →
    (∀ name, Expr.anyReads name es → v.property name = w.property name) →
    (Expr.values v es : Eval σ (List Float)) = Expr.values w es
  | [], _ => rfl
  | e :: es, hreads => by
    have hfirst := e.value_congr h fun name hname =>
      hreads name (Bool.or_eq_true_iff.mpr (.inl hname))
    have hrest := Expr.values_congr h es fun name hname =>
      hreads name (Bool.or_eq_true_iff.mpr (.inr hname))
    rw [Expr.values, Expr.values, hfirst, hrest]

end

end

/-- Two notes that differ in velocity and probability at most. -/
structure Alike (n m : Note) : Prop where
  pitch : n.pitch = m.pitch
  start : n.start = m.start
  duration : n.duration = m.duration
  deviation : n.deviation = m.deviation

/-- An expression that reads neither velocity nor probability. -/
def Expr.Indifferent (e : Expr) : Prop := ¬ e.reads "velocity" ∧ ¬ e.reads "probability"

section

variable {n m : Note} {signature : Signature} {clip span : Span}

lemma Alike.property_eq (h : Alike n m) {name : String} (hvelocity : name ≠ "velocity")
    (hprobability : name ≠ "probability") :
    View.property ⟨n, signature, span⟩ name = View.property ⟨m, signature, span⟩ name := by
  unfold View.property
  split
  · rw [h.pitch]
  · rw [h.start]
  · exact absurd rfl hvelocity
  · rw [h.deviation]
  · rw [h.duration]
  · exact absurd rfl hprobability
  · rfl

lemma Alike.meets (h : Alike n m) (signature : Signature) (span : Span) :
    View.Meets ⟨n, signature, span⟩ ⟨m, signature, span⟩ where
  position := congrArg signature.toBeats h.start
  signature := rfl
  span := rfl

lemma Alike.outcome_eq (h : Alike n m) {a : Assignment} (ha : a.value.Indifferent) :
    a.outcome signature clip n = a.outcome signature clip m := by
  have hvalue : (a.value.value ⟨n, signature, a.span clip signature⟩ : Eval Unit Float) =
      a.value.value ⟨m, signature, a.span clip signature⟩ := by
    refine a.value.value_congr (h.meets _ _) fun name hname => h.property_eq ?_ ?_
    · rintro rfl
      exact ha.1 hname
    · rintro rfl
      exact ha.2 hname
  unfold Assignment.outcome Expr.outcome Expr.evaluate
  rw [hvalue]

lemma Alike.advance_eq (h : Alike n m) {a : Assignment} (ha : a.value.Indifferent) (p : Progress) :
    a.advance signature clip n p = a.advance signature clip m p := by
  have hcovers (pitches : Option PitchRange) :
      a.covers pitches n signature = a.covers pitches m signature := by
    rw [Assignment.covers, Assignment.covers, h.pitch, h.start]
  have hfailure (error : EvalError) :
      a.failure ⟨n, signature, a.span clip signature⟩ error =
        a.failure ⟨m, signature, a.span clip signature⟩ error := by
    simp only [Assignment.failure, View.place, h.pitch, (h.meets signature _).position]
  unfold Assignment.advance
  simp only [hcovers, h.outcome_eq ha, hfailure]

lemma Alike.progress_eq (h : Alike n m) {program : Program}
    (hprogram : ∀ a ∈ program, a.value.Indifferent) :
    program.progress signature clip n = program.progress signature clip m :=
  List.foldl_ext _ _ _ fun p a ha => h.advance_eq (hprogram a ha) p

end

/-- An edit sets its parameter. -/
def Edits.Sets (edits : Edits) : Prop := ∀ p, ∀ e ∈ edits p, e.assign = .set

section

variable {edits : Edits} {n : Note}

lemma Edits.Sets.result_apply (h : edits.Sets) (n : Note) (p : Parameter) :
    edits.result (edits.apply n) p = edits.result n p := by
  have hread := edits.read_apply n p
  unfold Edits.result at hread ⊢
  cases hedit : edits p with
  | none => rwa [hedit] at hread
  | some e =>
    have hset := h p e hedit
    simp only [Edit.apply, hset]

lemma Edits.Sets.apply_apply (h : edits.Sets) (n : Note) :
    edits.apply (edits.apply n) = edits.apply n := by
  rw [Edits.apply, h.result_apply, h.result_apply, h.result_apply, h.result_apply]
  rfl

end

namespace Program

variable {program : Program} {signature : Signature} {clip : Span} {n : Note}

lemma mem_of_mem_about {a : Assignment} (h : a ∈ program.about signature n) : a ∈ program := by
  obtain ⟨⟨a, i⟩, hmem, rfl⟩ := List.mem_map.mp h
  exact List.fst_mem_of_mem_zipIdx (List.mem_of_mem_filter hmem)

/-- Every edit of a note comes from an assignment to its parameter. -/
lemma exists_of_edits {p : Parameter} {e : Edit}
    (h : e ∈ (program.progress signature clip n).edits p) :
    ∃ a ∈ program, a.parameter = p ∧ a.assign = e.assign := by
  rw [(program.tells_progress signature clip n).edits] at h
  obtain ⟨a, ha, hedit⟩ := List.mem_filterMap.mp (List.mem_of_getLast? h)
  refine ⟨a, mem_of_mem_about ha, ?_⟩
  split_ifs at hedit with hparameter
  obtain ⟨x, -, rfl⟩ := Option.map_eq_some_iff.mp hedit
  exact ⟨hparameter, rfl⟩

/-- Where only velocities and probabilities are assigned the rest of a note stays. -/
lemma alike_edited
    (hparameter : ∀ a ∈ program, a.parameter = .velocity ∨ a.parameter = .probability)
    (signature : Signature) (clip : Span) (n : Note) :
    Alike (program.edited signature clip n) n := by
  have hunedited {p : Parameter} (hvelocity : p ≠ .velocity) (hprobability : p ≠ .probability) :
      p.read (program.edited signature clip n) = p.read n := by
    rw [edited, Edits.read_apply, Edits.result]
    cases hedit : (program.progress signature clip n).edits p with
    | none => rfl
    | some e =>
      obtain ⟨a, ha, rfl, -⟩ := exists_of_edits hedit
      exact absurd (hparameter a ha) (not_or.mpr ⟨hvelocity, hprobability⟩)
  exact ⟨rfl, hunedited (p := .timing) nofun nofun, hunedited (p := .duration) nofun nofun, rfl⟩

lemma clipOf_map {f : Note → Note} (hf : ∀ n, Alike (f n) n) (signature : Signature)
    (notes : List Note) : clipOf signature (notes.map f) = clipOf signature notes := by
  have hfinish : (Note.finish ∘ f) = Note.finish := by
    funext n
    simp only [Function.comp_apply, Note.finish, (hf n).start, (hf n).duration]
  unfold clipOf
  rw [List.map_map, hfinish]

variable {σ : Type} [Source σ]

/-- **The same program again.** A program without noise that sets nothing but velocities and
probabilities, and reads neither, makes of the notes that it has made the same notes again. -/
theorem apply_idempotent (hfree : ∀ a ∈ program, a.value.noiseFree)
    (hset : ∀ a ∈ program, a.assign = .set)
    (hparameter : ∀ a ∈ program, a.parameter = .velocity ∨ a.parameter = .probability)
    (hreads : ∀ a ∈ program, ¬ a.value.reads "velocity" ∧ ¬ a.value.reads "probability")
    (signature : Signature) (notes : List Note) (source source' : σ) :
    let once := ((program.apply signature notes).run source).1.1
    ((program.apply signature once).run source').1.1 = once := by
  have halike := alike_edited hparameter signature (clipOf signature notes)
  have hclip := clipOf_map halike signature notes
  simp only [apply_run hfree]
  rw [hclip, List.map_map]
  refine List.map_congr_left fun n _ => ?_
  have hsets : (program.progress signature (clipOf signature notes) n).edits.Sets := by
    intro p e hedit
    obtain ⟨a, ha, -, hassign⟩ := exists_of_edits hedit
    exact hassign.symm.trans (hset a ha)
  rw [Function.comp_apply, edited, (halike n).progress_eq hreads]
  exact hsets.apply_apply n

/-- Values beyond their limits, in a range that also holds for the ramp behind it. -/
theorem apply_idempotent_clamped :
    let program : Program :=
      [⟨some ⟨36, 60⟩, none, .velocity, .set,
          .binary .multiply (.property "pitch") (.number 3.0), ⟨1, 1⟩⟩,
        ⟨none, none, .probability, .set, .call .ramp [.number 0.0, .number 2.0], ⟨2, 1⟩⟩,
        ⟨none, none, .velocity, .set, .property "nothing", ⟨3, 1⟩⟩]
    let notes : List Note := [⟨60, 0.0, 1.0, 100.0, 1.0, 0.0⟩, ⟨72, 1.0, 1.0, 100.0, 0.5, 0.0⟩]
    (∀ a ∈ program, a.value.noiseFree) ∧ (∀ a ∈ program, a.assign = .set) ∧
      (∀ a ∈ program, a.parameter = .velocity ∨ a.parameter = .probability) ∧
      (∀ a ∈ program, ¬ a.value.reads "velocity" ∧ ¬ a.value.reads "probability") ∧
      ((program.apply .common ((program.apply .common notes).run ()).1.1).run ()).1.1 =
        ((program.apply .common notes).run ()).1.1 := by
  intro program notes
  have hfree : ∀ a ∈ program, a.value.noiseFree := by decide
  have hset : ∀ a ∈ program, a.assign = .set := by decide
  have hparameter : ∀ a ∈ program, a.parameter = .velocity ∨ a.parameter = .probability := by
    decide
  have hreads : ∀ a ∈ program,
      ¬ a.value.reads "velocity" ∧ ¬ a.value.reads "probability" := by decide
  exact ⟨hfree, hset, hparameter, hreads,
    apply_idempotent hfree hset hparameter hreads .common notes () ()⟩

end Program

end Barline.Modulation
