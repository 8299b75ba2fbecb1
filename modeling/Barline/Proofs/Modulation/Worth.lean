import Barline.Proofs.Modulation.Silence

/-!
# What an expression is worth

The value of an expression without noise, said without a random source and without the reasons why
there may be none. Evaluation comes to it if it is finite, and fails otherwise.
-/

namespace Barline.Modulation

def Operator.worth (x y : Float) : Operator → Option Float
  | add => some (x + y)
  | subtract => some (x - y)
  | multiply => some (x * y)
  | divide => if y == 0.0 then none else some (x / y)

namespace View

/-- The field of the note that goes by a name. -/
def field? (v : View) (name : String) : Option Float :=
  [("pitch", v.note.pitch.toFloat), ("start", v.note.start), ("velocity", v.note.velocity),
    ("velocityDeviation", v.note.deviation), ("duration", v.note.duration),
    ("probability", v.note.probability)].lookup name

/-- The value of a wave at the start of the note. It has a period, which is positive, and may have
an offset. -/
def periodic (v : View) (args : List Float) (wave : Float → Float) : Option Float :=
  if args.getD 0 0.0 ≤ 0.0 then none
  else
    some (wave (Wave.phase (v.signature.toBeats v.note.start) (args.getD 0 0.0) (args.getD 1 0.0)))

end View

def Function.worth (v : View) (args : List Float) : Function → Option Float
  | cos => v.periodic args Wave.cosine
  | tri => v.periodic args Wave.triangle
  | saw => v.periodic args Wave.sawtooth
  | square => v.periodic args fun phase => Wave.square phase (args.getD 2 0.5)
  | noise => none
  | ramp => some (Wave.ramp (v.signature.toBeats v.note.start) v.span (args.getD 2 1.0)
      (args.getD 0 0.0) (args.getD 1 0.0))

namespace Expr

mutual

/-- What an expression without noise is worth, which need not be finite. -/
def worth (v : View) : Expr → Option Float
  | number x => some x
  | period bars beats => some (bars.toFloat * v.signature.beatsPerBar + beats)
  | property name => v.field? name
  | binary op left right =>
    (left.worth v).bind fun x => (right.worth v).bind fun y => op.worth x y
  | call f args => (worths v args).bind fun xs => f.worth v xs

def worths (v : View) : List Expr → Option (List Float)
  | [] => some []
  | e :: es => (e.worth v).bind fun x => (worths v es).map (x :: ·)

end

end Expr

namespace Eval

variable {α β : Type}

/-- What an evaluation comes to on the silent source, if it does not fail. -/
def result (x : Eval Unit α) : Option α := (x.run.run ()).1.toOption

@[simp] lemma result_pure (a : α) : result (pure a) = some a := rfl

@[simp] lemma result_throw (e : EvalError) : result (throw e : Eval Unit α) = none := rfl

@[simp] lemma result_lift (r : Except EvalError α) :
    result (liftM r : Eval Unit α) = r.toOption := by cases r <;> rfl

@[simp] lemma result_bind (x : Eval Unit α) (f : α → Eval Unit β) :
    result (x >>= f) = x.result.bind fun a => (f a).result := by
  unfold result
  rw [run_bind]
  rcases x.run.run () with ⟨_ | a, s⟩ <;> rfl

end Eval

lemma Operator.toOption_apply (op : Operator) (x y : Float) :
    (op.apply x y).toOption = op.worth x y := by
  cases op with
  | divide =>
    unfold apply worth
    dsimp only
    split_ifs <;> rfl
  | _ => rfl

lemma View.toOption_property (v : View) (name : String) :
    (v.property name).toOption = v.field? name := by
  unfold property field?
  split
  case h_7 hpitch hstart hvelocity hdeviation hduration hprobability =>
    simp only [List.lookup, beq_eq_false_iff_ne.mpr hpitch, beq_eq_false_iff_ne.mpr hstart,
      beq_eq_false_iff_ne.mpr hvelocity, beq_eq_false_iff_ne.mpr hdeviation,
      beq_eq_false_iff_ne.mpr hduration, beq_eq_false_iff_ne.mpr hprobability]
    rfl
  all_goals rfl

lemma Function.result_apply {f : Function} (hf : f ≠ .noise) (v : View) (args : List Float) :
    (f.apply v args : Eval Unit Float).result = f.worth v args := by
  cases f with
  | noise => exact (hf rfl).elim
  | ramp => rfl
  | cos | tri | saw | square =>
    refine (Eval.result_lift _).trans ?_
    unfold wave worth View.periodic
    dsimp only
    split_ifs <;> rfl

namespace Expr

mutual

/-- Evaluation of an expression without noise comes to what it is worth. -/
theorem result_value (v : View) : (e : Expr) → e.noiseFree →
    (e.value v : Eval Unit Float).result = e.worth v
  | number x, _ => by rw [value, worth, Eval.result_pure]
  | period bars beats, _ => by rw [value, worth, Eval.result_pure, Meter.span]
  | property name, _ => by rw [value, worth, Eval.result_lift, View.toOption_property]
  | binary op left right, h => by
    rw [noiseFree, Bool.and_eq_true] at h
    rw [value, worth]
    simp only [Eval.result_bind, Eval.result_lift, result_value v left h.1,
      result_value v right h.2, Operator.toOption_apply]
  | call f args, h => by
    rw [noiseFree, Bool.and_eq_true, decide_eq_true_iff] at h
    rw [value, worth]
    simp only [Eval.result_bind, result_values v args h.2, Function.result_apply h.1]

theorem result_values (v : View) : (es : List Expr) → allNoiseFree es →
    (values v es : Eval Unit (List Float)).result = worths v es
  | [], _ => by rw [values, worths, Eval.result_pure]
  | e :: es, h => by
    rw [allNoiseFree, Bool.and_eq_true] at h
    rw [values, worths]
    simp only [Eval.result_bind, Eval.result_pure, result_value v e h.1, result_values v es h.2,
      Option.map_eq_bind]
    rfl

end

/-- An expression without noise has an outcome if it is worth a finite number. -/
theorem outcome_eq_ok_iff {e : Expr} (h : e.noiseFree) (v : View) {x : Float} :
    e.outcome v = .ok x ↔ e.worth v = some x ∧ x.isFinite := by
  have hresult : (e.outcome v).toOption = (e.worth v).filter (·.isFinite) := by
    change (e.evaluate v : Eval Unit Float).result = _
    rw [evaluate, Eval.result_bind, result_value v e h]
    cases e.worth v with
    | none => rfl
    | some x =>
      by_cases hx : x.isFinite = true <;> simp [hx, Option.filter]
  have hok : e.outcome v = .ok x ↔ (e.outcome v).toOption = some x := by
    cases e.outcome v <;> simp [Except.toOption]
  rw [hok, hresult, Option.filter_eq_some_iff]

end Expr

end Barline.Modulation
