import Barline.Meter
import Barline.Text.Position

/-!
# Modulation programs

A program is a list of assignments to the parameters of notes. An assignment may be limited to
pitches and to a stretch of time, and gives an expression over the note and periodic waves.
-/

namespace Barline.Modulation

structure PitchRange where
  low : UInt8
  high : UInt8
deriving DecidableEq

def PitchRange.contains (r : PitchRange) (pitch : UInt8) : Bool := r.low ≤ pitch && pitch ≤ r.high

/-- An inclusive stretch from one `bar|beat` to another. -/
structure TimeRange where
  startBar : UInt32
  startBeat : Float
  endBar : UInt32
  endBeat : Float
deriving DecidableEq

namespace TimeRange

/-- How far outside of a stretch a note may start and still belong to it, in beats. -/
def tolerance : Float := 0.001

def first (r : TimeRange) (perBar : Float) : Float := Meter.beatsAt r.startBar r.startBeat perBar

def last (r : TimeRange) (perBar : Float) : Float := Meter.beatsAt r.endBar r.endBeat perBar

/-- Whether a start in beats belongs to the stretch. -/
def contains (r : TimeRange) (perBar position : Float) : Bool :=
  r.first perBar - tolerance ≤ position && position ≤ r.last perBar + tolerance

end TimeRange

inductive Parameter where
  | velocity
  | timing
  | duration
  | probability
deriving DecidableEq

namespace Parameter

def keyword : Parameter → String
  | velocity => "velocity"
  | timing => "timing"
  | duration => "duration"
  | probability => "probability"

def all : List Parameter := [velocity, timing, duration, probability]

def ofKeyword? (word : String) : Option Parameter := all.find? (·.keyword == word)

end Parameter

inductive Assign where
  /-- `=` -/
  | set
  /-- `+=` -/
  | add
deriving DecidableEq

inductive Operator where
  | add
  | subtract
  | multiply
  | divide
deriving DecidableEq

inductive Function where
  | cos
  | tri
  | saw
  | square
  | noise
  | ramp
deriving DecidableEq

namespace Function

def name : Function → String
  | cos => "cos"
  | tri => "tri"
  | saw => "saw"
  | square => "square"
  | noise => "noise"
  | ramp => "ramp"

def all : List Function := [cos, tri, saw, square, noise, ramp]

def ofName? (name : String) : Option Function := all.find? (·.name == name)

def minArity : Function → Nat
  | cos | tri | saw | square => 1
  | noise => 0
  | ramp => 2

def maxArity : Function → Nat
  | cos | tri | saw => 2
  | square => 3
  | noise => 0
  | ramp => 3

end Function

inductive Expr where
  | number (value : Float)
  | period (bars : UInt32) (beats : Float)
  | property (name : String)
  | binary (op : Operator) (left right : Expr)
  | call (function : Function) (args : List Expr)

/-- `[pitches] [stretch] parameter (= | +=) expression`. -/
structure Assignment where
  pitches : Option PitchRange
  stretch : Option TimeRange
  parameter : Parameter
  assign : Assign
  value : Expr
  position : Position

abbrev Program := List Assignment

end Barline.Modulation
