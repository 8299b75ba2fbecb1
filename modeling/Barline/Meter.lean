import Barline.Error
import Barline.Number.Rounding

/-!
# Meter

A time signature says how many beats a bar holds and which part of a whole note a beat is. Places
are written `bar|beat`, both from 1, and reckoned in beats from the first bar line; notes count
their time in quarter notes. The conversions are the roundings of one expression each.
-/

namespace Barline

/-- A time signature, with neither part zero. -/
structure Signature where
  numerator : UInt32
  denominator : UInt32
  numerator_pos : 0 < numerator
  denominator_pos : 0 < denominator
deriving DecidableEq

namespace Signature

def common : Signature := ⟨4, 4, by decide, by decide⟩

def make (numerator denominator : UInt32) : Except Error Signature :=
  if h : 0 < numerator ∧ 0 < denominator then .ok ⟨numerator, denominator, h.1, h.2⟩
  else .error (.domain (.emptySignature numerator denominator) none)

def beatsPerBar (s : Signature) : Float := s.numerator.toFloat

def quartersPerBeat (s : Signature) : Float := 4.0 / s.denominator.toFloat

def toQuarters (s : Signature) (beats : Float) : Float := beats * s.quartersPerBeat

def toBeats (s : Signature) (quarters : Float) : Float := quarters / s.quartersPerBeat

end Signature

/-- What is said about the meter: beats per bar, in quarter notes, or a time signature. -/
structure Timing where
  beatsPerBar : Option UInt32
  numerator : Option UInt32
  denominator : Option UInt32
deriving DecidableEq

namespace Timing

def unstated : Timing := ⟨none, none, none⟩

/-- The signature that was meant. Both statements may be made if they agree. -/
def resolve : Timing → Except Error Signature
  | ⟨none, none, none⟩ => .ok .common
  | ⟨some beats, none, none⟩ => Signature.make beats 4
  | ⟨none, some n, some d⟩ => Signature.make n d
  | ⟨some beats, some n, some d⟩ =>
    if beats = n then Signature.make n d else .error (.domain (.contradictingBeats beats n d) none)
  | ⟨_, some n, none⟩ => .error (.domain (.numeratorAlone n) none)
  | ⟨_, none, some d⟩ => .error (.domain (.denominatorAlone d) none)

end Timing

namespace Meter

open Number

def barStart (bar : UInt32) (perBar : Float) : Float := (bar.toFloat - 1.0) * perBar

/-- Where `bar|beat` lies, in beats. -/
def beatsAt (bar : UInt32) (beat perBar : Float) : Float := barStart bar perBar + (beat - 1.0)

/-- Which `bar|beat` lies at an offset in beats. Offsets before the first bar count as its
beginning, and the last bar number is not passed. -/
def barBeat (beats perBar : Float) : UInt32 × Float :=
  let beats := larger beats 0.0
  let index := floor (beats / perBar)
  let within := beats - index * perBar
  -- rounding may leave an offset a hair short of the bar line that it was meant for
  if perBar - within < 1e-9 then (following (index + 1.0).toUInt32, 1.0)
  else (following index.toUInt32, within + 1.0)
where
  following (index : UInt32) : UInt32 := if index = 4294967295 then index else index + 1

/-- Whether the bar at an offset in beats has a number. -/
def inRange (beats perBar : Float) : Bool := floor (larger beats 0.0 / perBar) < 4294967295.0

def span (bars : UInt32) (beats perBar : Float) : Float := bars.toFloat * perBar + beats

end Meter

end Barline
