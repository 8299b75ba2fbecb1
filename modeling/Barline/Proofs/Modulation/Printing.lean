import Mathlib
import Barline.Modulation.Grammar

/-!
# Printing modulation programs

The tokens that a program is written with. An expression stands in parentheses only where its
operator would be read differently without them: to the right of an operator that binds as close,
or next to one that binds closer. Nothing stands between two assignments.
-/

namespace Barline.Modulation

/-- What a writer is free to choose. -/
structure Spelling where
  /-- What a pitch is called, as with a sharp or with a flat. -/
  pitchName : UInt8 → String
  /-- Whether a range of one pitch is written with both its ends. -/
  bothEnds : UInt8 → Bool
  /-- Whether a period of no bars is written with its bars. -/
  noBars : Float → Bool

namespace Operator

/-- The token of an operator. -/
def token : Operator → Token
  | add => .plus
  | subtract => .minus
  | multiply => .star
  | divide => .slash

/-- How close an operator binds. -/
def level : Operator → ℕ
  | add | subtract => 0
  | multiply | divide => 1

end Operator

/-- The token of an assignment. -/
def Assign.token : Assign → Token
  | set => .equals
  | add => .plusEquals

/-- Tokens in parentheses where those are needed. -/
def enclose (needed : Bool) (ts : List Token) : List Token :=
  if needed then .opening :: ts ++ [.closing] else ts

section

variable (sp : Spelling)

/-- The tokens of a period. -/
def Spelling.period (bars : UInt32) (beats : Float) : List Token :=
  if bars = 0 ∧ sp.noBars beats = false then [.period beats]
  else [.number bars.toFloat, .colon, .period beats]

mutual

/-- The tokens of an expression in a place that takes operators from a level on. -/
def Expr.tokens : ℕ → Expr → List Token
  | _, .number x => [.number x]
  | _, .period bars beats => sp.period bars beats
  | _, .property name => [.word "note", .dot, .word name]
  | least, .binary op left right =>
    enclose (op.level < least)
      (left.tokens op.level ++ op.token :: right.tokens (op.level + 1))
  | _, .call f args => .word f.name :: .opening :: (Expr.argumentTokens false args ++ [.closing])

/-- The tokens of arguments, with a comma in front of each but the first of a call. -/
def Expr.argumentTokens : Bool → List Expr → List Token
  | _, [] => []
  | comma, e :: es =>
    (if comma then [.comma] else []) ++ e.tokens 0 ++ Expr.argumentTokens true es

end

/-- The tokens of a range of pitches. -/
def PitchRange.tokens (r : PitchRange) : List Token :=
  if r.low = r.high ∧ sp.bothEnds r.low = false then
    [.pitch (sp.pitchName r.low) r.low.toNat]
  else [.pitch (sp.pitchName r.low) r.low.toNat, .minus,
    .pitch (sp.pitchName r.high) r.high.toNat]

/-- The tokens of a stretch of time. -/
def TimeRange.tokens (r : TimeRange) : List Token :=
  [.number r.startBar.toFloat, .pipe, .number r.startBeat, .minus,
    .number r.endBar.toFloat, .pipe, .number r.endBeat]

/-- The tokens of an assignment. -/
def Assignment.tokens (a : Assignment) : List Token :=
  a.pitches.elim [] (·.tokens sp) ++ (a.stretch.elim [] (·.tokens) ++
    .word a.parameter.keyword :: a.assign.token :: a.value.tokens sp 0)

/-- The tokens of a program, with the closing one. -/
def Program.tokens (program : Program) : List Token :=
  program.flatMap (·.tokens sp) ++ [.finish]

end

mutual

/-- Whether every call has as many arguments as its function takes. -/
def Expr.wellFormed : Expr → Bool
  | .number _ => true
  | .period _ _ => true
  | .property _ => true
  | .binary _ left right => left.wellFormed && right.wellFormed
  | .call f args =>
    f.minArity ≤ args.length && args.length ≤ f.maxArity && Expr.allWellFormed args

/-- Whether all of a list of expressions are well-formed. -/
def Expr.allWellFormed : List Expr → Bool
  | [] => true
  | e :: es => e.wellFormed && Expr.allWellFormed es

end

/-- A range of MIDI pitches that does not run backwards. -/
def PitchRange.wellFormed (r : PitchRange) : Bool := r.low ≤ r.high && r.high ≤ 127

/-- A stretch between bars, which count from one. -/
def TimeRange.wellFormed (r : TimeRange) : Bool := 1 ≤ r.startBar && 1 ≤ r.endBar

/-- Whether an assignment can be written. -/
def Assignment.wellFormed (a : Assignment) : Bool :=
  a.pitches.all (·.wellFormed) && a.stretch.all (·.wellFormed) && a.value.wellFormed

/-- An assignment apart from where it stands. -/
def Assignment.unplaced (a : Assignment) : Assignment := { a with position := .start }

end Barline.Modulation
