import Barline.Modulation.Evaluation
import Barline.Modulation.Grammar
import Barline.Text.Blank

/-!
# Modulating notes

A program goes over a list of notes. Every expression sees the note as it was, and of the
assignments to one parameter the last that has a value counts. A pitch range holds until the next
one is written; a stretch of time holds for its assignment alone.
-/

namespace Barline.Modulation

open Number (plain larger clamp)
open Barline.Random (Source)

structure Edit where
  assign : Assign
  value : Float
deriving DecidableEq

def Edit.apply (e : Edit) (current : Float) : Float :=
  match e.assign with
  | .set => e.value
  | .add => current + e.value

abbrev Edits := Parameter → Option Edit

namespace Edits

def empty : Edits := fun _ => none

def put (edits : Edits) (parameter : Parameter) (edit : Edit) : Edits :=
  fun p => if p = parameter then some edit else edits p

end Edits

def leastDuration : Float := 0.001

def Parameter.read (n : Note) : Parameter → Float
  | velocity => n.velocity
  | timing => n.start
  | duration => n.duration
  | probability => n.probability

def Parameter.limit (x : Float) : Parameter → Float
  | velocity => clamp 1.0 127.0 x
  | timing => x
  | duration => larger x leastDuration
  | probability => clamp 0.0 1.0 x

namespace Edits

/-- The value that a parameter of a note has after the edits. -/
def result (edits : Edits) (n : Note) (p : Parameter) : Float :=
  match edits p with
  | some edit => p.limit (edit.apply (p.read n))
  | none => p.read n

def apply (edits : Edits) (n : Note) : Note :=
  { n with
    velocity := edits.result n .velocity
    start := edits.result n .timing
    duration := edits.result n .duration
    probability := edits.result n .probability }

end Edits

structure Failure where
  position : Position
  parameter : Parameter
  pitch : UInt8
  bar : UInt32
  beat : Float
  error : EvalError
deriving DecidableEq

def Failure.text (f : Failure) : String :=
  "[" ++ f.position.text ++ "] " ++ f.parameter.keyword ++
    s!" assignment skipped for note {f.pitch} at {f.bar}|" ++ plain f.beat ++ ": " ++
    f.error.message

structure Progress where
  /-- The pitch range that holds. -/
  pitches : Option PitchRange
  edits : Edits
  failures : List Failure

namespace Progress

def initial : Progress := ⟨none, .empty, []⟩

end Progress

namespace Assignment

/-- Whether an assignment is about a note, where `pitches` is the pitch range that holds. -/
def covers (a : Assignment) (pitches : Option PitchRange) (n : Note) (signature : Signature) :
    Bool :=
  pitches.all (·.contains n.pitch) &&
    a.stretch.all (·.contains signature.beatsPerBar (signature.toBeats n.start))

/-- The span of an assignment: its stretch, or all of the clip. -/
def span (a : Assignment) (clip : Span) (signature : Signature) : Span :=
  match a.stretch with
  | some r =>
    let first := r.first signature.beatsPerBar
    ⟨first, r.last signature.beatsPerBar - first⟩
  | none => clip

def failure (a : Assignment) (v : View) (error : EvalError) : Failure where
  position := a.position
  parameter := a.parameter
  pitch := v.note.pitch
  bar := v.place.1
  beat := v.place.2
  error := error

def step {σ : Type} [Source σ] (signature : Signature) (clip : Span) (n : Note) (p : Progress)
    (a : Assignment) : StateM σ Progress := do
  let pitches := a.pitches <|> p.pitches
  let p := { p with pitches := pitches }
  if a.covers pitches n signature then
    let v : View := ⟨n, signature, a.span clip signature⟩
    match ← (a.value.evaluate v).run with
    | .ok x => return { p with edits := p.edits.put a.parameter ⟨a.assign, x⟩ }
    | .error e => return { p with failures := p.failures ++ [a.failure v e] }
  else return p

end Assignment

/-- The span from the beginning to the end of the last note. -/
def clipOf (signature : Signature) (notes : List Note) : Span :=
  ⟨0.0, signature.toBeats ((notes.map (·.finish)).foldl larger 0.0)⟩

namespace Program

variable {σ : Type} [Source σ]

def modulateNote (program : Program) (signature : Signature) (clip : Span) (n : Note) :
    StateM σ (Note × List Failure) := do
  let p ← program.foldlM (Assignment.step signature clip n) .initial
  return (p.edits.apply n, p.failures)

def modulateAll (program : Program) (signature : Signature) (notes : List Note) :
    StateM σ (List (Note × List Failure)) :=
  notes.mapM (program.modulateNote signature (clipOf signature notes))

end Program

inductive Outcome where
  | idle
  /-- The program ran: how many notes it changed, and what failed. -/
  | applied (changed : Nat) (failures : List Failure)
  /-- The meter makes no sense; no note was touched. -/
  | badMeter (error : Error)
  /-- The text is no program; no note was touched. -/
  | unreadable (error : Error)
deriving DecidableEq

namespace Outcome

def changed : Outcome → Nat
  | applied changed _ => changed
  | _ => 0

def failures : Outcome → List Failure
  | applied _ failures => failures
  | _ => []

def parseError : Outcome → Option Error
  | unreadable e => some e
  | _ => none

def warnings : Outcome → List String
  | idle => []
  | applied _ failures => failures.map (·.text)
  | badMeter e => ["modulation skipped: " ++ e.message]
  | unreadable e => ["modulation skipped, notes left unchanged: " ++ e.message]

end Outcome

def changedCount (before after : List Note) : Nat :=
  (before.zip after).countP fun (a, b) => !a.agrees b

variable {σ : Type} [Source σ]

/-- Applies a program to a list of notes. An empty program has nothing to do. -/
def Program.apply (program : Program) (signature : Signature) (notes : List Note) :
    StateM σ (List Note × Outcome) := do
  if program.isEmpty then return (notes, .idle)
  let results ← program.modulateAll signature notes
  let after := results.map (·.1)
  return (after, .applied (changedCount notes after) (results.flatMap (·.2)))

def modulate (text : List Char) (numerator denominator : UInt32) (notes : List Note) :
    StateM σ (List Note × Outcome) :=
  if text.all isBlank || notes.isEmpty then return (notes, .idle)
  else
    match Signature.make numerator denominator with
    | .error e => return (notes, .badMeter e)
    | .ok signature =>
      match Program.parse text with
      | .error e => return (notes, .unreadable e)
      | .ok program => program.apply signature notes

end Barline.Modulation
