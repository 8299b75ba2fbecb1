import Barline.Number.Rounding

/-!
# Waves and ramps

A wave is read at a phase, of which only the place within its unit interval counts, and lies
between -1 and 1. A ramp runs once or several times over a stretch of beats.
-/

namespace Barline.Modulation

structure Span where
  start : Float
  length : Float
deriving DecidableEq

namespace Wave

open Number (wrap)

/-- The phase at a position. The offset comes after wrapping, so that the phase may leave its unit
interval. -/
def phase (position period offset : Float) : Float := wrap (position / period) + offset

def turn : Float := 6.283185307179586

def cosine (phase : Float) : Float := (turn * phase).cos

/-- Falls from `1` to `-1` over half a period and climbs back. -/
def triangle (phase : Float) : Float :=
  let p := wrap phase
  if p ≤ 0.5 then 1.0 - 4.0 * p else -3.0 + 4.0 * p

/-- Falls from `1` to `-1` over a period. -/
def sawtooth (phase : Float) : Float := 1.0 - 2.0 * wrap phase

def usualWidth : Float := 0.5

/-- `1` for the first part of a period, up to `width`, and `-1` for the rest. -/
def square (phase width : Float) : Float := if wrap phase < width then 1.0 else -1.0

/-- Runs from `first` to `last` over a stretch, `speed` times. A stretch without length stays at
`first`. -/
def ramp (position : Float) (span : Span) (speed first last : Float) : Float :=
  if span.length ≤ 0.0 then first
  else first + (last - first) * wrap ((position - span.start) / span.length * speed)

end Wave

end Barline.Modulation
