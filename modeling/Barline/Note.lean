import Barline.Number.Rounding

/-!
# Notes

A note has a pitch, a start and a duration in quarter notes, a velocity with the amount it may
deviate upward, and the probability that it sounds.
-/

namespace Barline

structure Note where
  pitch : UInt8
  start : Float
  duration : Float
  velocity : Float
  probability : Float
  deviation : Float
deriving DecidableEq

namespace Note

def usualVelocity : Float := 100.0

def usualDuration : Float := 1.0

def usualProbability : Float := 1.0

def finish (n : Note) : Float := n.start + n.duration

/-- Whether all fields are equal as numbers: zeros of both signs are, and what is no number is not
equal even to itself. -/
def agrees (a b : Note) : Bool :=
  a.pitch == b.pitch && a.start == b.start && a.duration == b.duration &&
    a.velocity == b.velocity && a.probability == b.probability && a.deviation == b.deviation

end Note

end Barline
