import Barline.Modulation.Program
import Barline.Modulation.Wave
import Barline.Note
import Barline.Number.Decimal
import Barline.Random.Source

/-!
# Evaluating expressions

The value of an expression for one note. Operands and arguments are evaluated from left to right,
and the random source moves on by one word for each `noise()` that is reached, also where the
evaluation fails later.
-/

namespace Barline.Modulation

open Number (plain)
open Barline.Random (Source)

inductive EvalError where
  | unknownProperty (name : String)
  | divisionByZero
  | invalidPeriod (function : Function) (period : Float)
  | nonFinite
deriving DecidableEq

def EvalError.message : EvalError → String
  | unknownProperty name => "variable 'note." ++ name ++ "' is not available"
  | divisionByZero => "division by zero"
  | invalidPeriod f period => f.name ++ "() period must be positive, got " ++ plain period
  | nonFinite => "expression produced a non-finite value"

/-- What an expression can see: a note, the meter, and the span that ramps run over. -/
structure View where
  note : Note
  signature : Signature
  span : Span
deriving DecidableEq

namespace View

def position (v : View) : Float := v.signature.toBeats v.note.start

def place (v : View) : UInt32 × Float := Meter.barBeat v.position v.signature.beatsPerBar

def property (v : View) (name : String) : Except EvalError Float :=
  match name with
  | "pitch" => .ok v.note.pitch.toFloat
  | "start" => .ok v.note.start
  | "velocity" => .ok v.note.velocity
  | "velocityDeviation" => .ok v.note.deviation
  | "duration" => .ok v.note.duration
  | "probability" => .ok v.note.probability
  | _ => .error (.unknownProperty name)

end View

def Operator.apply (l r : Float) : Operator → Except EvalError Float
  | add => .ok (l + r)
  | subtract => .ok (l - r)
  | multiply => .ok (l * r)
  | divide => if r == 0.0 then .error .divisionByZero else .ok (l / r)

/-- An evaluation that may draw random words and may fail. The source is kept either way. -/
abbrev Eval (σ : Type) := ExceptT EvalError (StateM σ)

namespace Eval

variable {σ : Type}

def noise [Source σ] : Eval σ Float := do
  let word ← modifyGet Source.draw
  return Source.symmetric word

end Eval

namespace Function

/-- The value of a wave. The arguments are period, offset and, for pulses, their width. -/
def wave (f : Function) (v : View) (args : List Float) : Except EvalError Float :=
  let period := args.getD 0 0.0
  if period ≤ 0.0 then .error (.invalidPeriod f period)
  else
    let phase := Wave.phase v.position period (args.getD 1 0.0)
    .ok (match f with
      | cos => Wave.cosine phase
      | tri => Wave.triangle phase
      | saw => Wave.sawtooth phase
      | _ => Wave.square phase (args.getD 2 Wave.usualWidth))

/-- The value of a call. The arguments of a ramp are its first and last value and its speed. -/
def apply {σ : Type} [Source σ] (f : Function) (v : View) (args : List Float) : Eval σ Float :=
  match f with
  | noise => Eval.noise
  | ramp =>
    return Wave.ramp v.position v.span (args.getD 2 1.0) (args.getD 0 0.0) (args.getD 1 0.0)
  | f => f.wave v args

end Function

namespace Expr

variable {σ : Type} [Source σ]

mutual

/-- The value of an expression, finite or not. -/
def value (v : View) : Expr → Eval σ Float
  | number x => return x
  | period bars beats => return Meter.span bars beats v.signature.beatsPerBar
  | property name => v.property name
  | binary op left right => do
    let l ← left.value v
    let r ← right.value v
    op.apply l r
  | call f args => do f.apply v (← values v args)

def values (v : View) : List Expr → Eval σ (List Float)
  | [] => return []
  | e :: es => do
    let x ← e.value v
    let xs ← values v es
    return x :: xs

end

/-- The value of an expression, which has to be finite. -/
def evaluate (e : Expr) (v : View) : Eval σ Float := do
  let x ← e.value v
  if x.isFinite then return x else throw .nonFinite

end Expr

def Program.evaluate {σ : Type} [Source σ] (program : Program) (v : View) :
    StateM σ (List (Except EvalError Float)) :=
  program.mapM fun a => (a.value.evaluate v).run

end Barline.Modulation
