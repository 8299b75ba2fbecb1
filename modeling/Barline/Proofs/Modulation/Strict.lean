import Mathlib
import Barline.Modulation.Evaluation
import Barline.Proofs.Modulation.Printing

/-!
# Evaluation from written arguments

Evaluation has a value for an argument that is not there. A strict evaluation does not: it reads the
arguments that a call cannot do without only where they are written, and says which one it misses.
Where every call has as many arguments as its function takes, the two evaluations are one.
-/

namespace Barline.Modulation

open Barline.Random (Source)

/-- Why a strict evaluation comes to nothing. -/
inductive Fault where
  /-- A call goes without the argument at this index. -/
  | missing (function : Function) (index : ℕ)
  | failed (error : EvalError)
deriving DecidableEq

/-- A strict evaluation. It draws as an evaluation does. -/
abbrev Strict (σ : Type) := ExceptT Fault (StateM σ)

namespace Strict

variable {σ α β : Type}

/-- An evaluation as a strict one, which misses nothing. -/
def of (x : Eval σ α) : Strict σ α := ExceptT.adapt .failed x

/-- The argument at an index, which has to be written. -/
def argument (f : Function) (args : List Float) (index : ℕ) : Strict σ Float :=
  match args[index]? with
  | some x => return x
  | none => throw (.missing f index)

@[simp] lemma of_pure (a : α) : of (pure a : Eval σ α) = pure a := rfl

@[simp] lemma of_bind (x : Eval σ α) (f : α → Eval σ β) :
    of (x >>= f) = of x >>= fun a => of (f a) := by
  refine ExceptT.ext ?_
  simp only [of, ExceptT.run_adapt, ExceptT.run_bind, map_bind, bind_map_left]
  refine bind_congr fun r => ?_
  cases r <;> rfl

lemma argument_of_lt (f : Function) {args : List Float} {index : ℕ} (h : index < args.length) :
    (argument f args index : Strict σ Float) = pure (args.getD index 0.0) := by
  rw [argument, List.getD_eq_getElem?_getD, List.getElem?_eq_getElem h]
  rfl

end Strict

namespace Function

variable {σ : Type}

/-- The value of a wave whose period is written. -/
def strictWave (f : Function) (v : View) (args : List Float) : Strict σ Float := do
  let period ← Strict.argument f args 0
  if period ≤ 0.0 then throw (.failed (.invalidPeriod f period))
  else
    let phase := Wave.phase v.position period (args.getD 1 0.0)
    return match f with
      | cos => Wave.cosine phase
      | tri => Wave.triangle phase
      | saw => Wave.sawtooth phase
      | _ => Wave.square phase (args.getD 2 Wave.usualWidth)

/-- The value of a call whose period is written, or whose first and last value are. -/
def strictApply [Source σ] (f : Function) (v : View) (args : List Float) : Strict σ Float :=
  match f with
  | noise => .of Eval.noise
  | ramp => do
    let first ← Strict.argument ramp args 0
    let last ← Strict.argument ramp args 1
    return Wave.ramp v.position v.span (args.getD 2 1.0) first last
  | f => f.strictWave v args

lemma strictWave_eq (f : Function) (v : View) {args : List Float} (h : 0 < args.length) :
    (f.strictWave v args : Strict σ Float) = .of (liftM (f.wave v args)) := by
  rw [strictWave, Strict.argument_of_lt f h, pure_bind, wave]
  extract_lets
  split <;> rfl

/-- A call that has the arguments it cannot do without misses none. -/
theorem strictApply_eq [Source σ] (f : Function) (v : View) {args : List Float}
    (h : f.minArity ≤ args.length) :
    (f.strictApply v args : Strict σ Float) = .of (f.apply v args) := by
  cases f with
  | cos => exact cos.strictWave_eq v h
  | tri => exact tri.strictWave_eq v h
  | saw => exact saw.strictWave_eq v h
  | square => exact square.strictWave_eq v h
  | noise => rfl
  | ramp =>
    have hfirst : 0 < args.length := Nat.lt_of_succ_lt h
    rw [strictApply, Strict.argument_of_lt ramp hfirst, pure_bind, Strict.argument_of_lt ramp h,
      pure_bind]
    rfl

end Function

namespace Expr

variable {σ : Type} [Source σ]

mutual

/-- The value of an expression, finite or not, from written arguments. -/
def strictValue (v : View) : Expr → Strict σ Float
  | number x => return x
  | period bars beats => return Meter.span bars beats v.signature.beatsPerBar
  | property name => .of (v.property name)
  | binary op left right => do
    let l ← left.strictValue v
    let r ← right.strictValue v
    .of (op.apply l r)
  | call f args => do f.strictApply v (← strictValues v args)

def strictValues (v : View) : List Expr → Strict σ (List Float)
  | [] => return []
  | e :: es => do
    let x ← e.strictValue v
    let xs ← strictValues v es
    return x :: xs

end

/-- The value of an expression from written arguments, which has to be finite. -/
def strictEvaluate (e : Expr) (v : View) : Strict σ Float := do
  let x ← e.strictValue v
  if x.isFinite then return x else throw (.failed .nonFinite)

mutual

/-- What a well-formed expression comes to is read from written arguments at every depth. -/
theorem strictValue_eq (v : View) : (e : Expr) → e.wellFormed →
    (e.strictValue v : Strict σ Float) = .of (e.value v)
  | number x, _ => by rw [strictValue, value]; rfl
  | period bars beats, _ => by rw [strictValue, value]; rfl
  | property name, _ => by rw [strictValue, value]
  | binary op left right, h => by
    rw [wellFormed, Bool.and_eq_true] at h
    simp only [strictValue, value, strictValue_eq v left h.1, strictValue_eq v right h.2,
      Strict.of_bind]
  | call f args, h => by
    simp only [wellFormed, Bool.and_eq_true, decide_eq_true_iff] at h
    rw [strictValue, value, Strict.of_bind]
    exact strictValues_bind v args h.2 fun xs hxs => f.strictApply_eq v (hxs ▸ h.1.1)

/-- Arguments are followed by a call of as many values. -/
theorem strictValues_bind (v : View) : (es : List Expr) → Expr.allWellFormed es → ∀ {α : Type}
    {f : List Float → Strict σ α} {g : List Float → Strict σ α},
    (∀ xs, xs.length = es.length → f xs = g xs) →
    strictValues v es >>= f = Strict.of (values v es) >>= g
  | [], _, _, f, g, hfg => by
    rw [strictValues, values, Strict.of_pure, pure_bind, pure_bind]
    exact hfg [] rfl
  | e :: es, h, _, f, g, hfg => by
    rw [allWellFormed, Bool.and_eq_true] at h
    simp only [strictValues, values, Strict.of_bind, Strict.of_pure, bind_assoc, pure_bind,
      strictValue_eq v e h.1]
    refine bind_congr fun x => strictValues_bind v es h.2 fun xs hxs => ?_
    exact hfg (x :: xs) (congrArg Nat.succ hxs)

end

theorem strictEvaluate_eq {e : Expr} (h : e.wellFormed) (v : View) :
    (e.strictEvaluate v : Strict σ Float) = .of (e.evaluate v) := by
  rw [strictEvaluate, evaluate, strictValue_eq v e h, Strict.of_bind]
  refine bind_congr fun x => ?_
  split <;> rfl

end Expr

end Barline.Modulation
