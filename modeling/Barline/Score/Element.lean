import Barline.Meter
import Barline.Text.Position

/-!
# Score elements

A score is a list of elements in the order they are written. Parameters hold from where they stand,
pitches gather, and a time position places the pitches gathered before it.
-/

namespace Barline.Score

inductive Bars where
  | single (bar : UInt32)
  | range (first last : UInt32)
deriving DecidableEq

def Bars.first : Bars → UInt32
  | single bar => bar
  | range first _ => first

def barsFrom (first last : UInt32) : List UInt32 :=
  (List.range (last.toNat + 1 - first.toNat)).map fun i => first + UInt32.ofNat i

def Bars.toList : Bars → List UInt32
  | single bar => [bar]
  | range first last => barsFrom first last

inductive Source where
  /-- The bar before each destination. -/
  | previous
  | bars (bars : Bars)
deriving DecidableEq

inductive Beat where
  | single (beat : Float)
  /-- Without a step the current duration is one. -/
  | series (first : Float) (times : UInt32) (step : Option Float)
deriving DecidableEq

inductive Length where
  | beats (beats : Float)
  | bars (bars : UInt32) (beats : Float)
deriving DecidableEq

def Length.inBeats (perBar : Float) : Length → Float
  | beats x => x
  | bars n x => Meter.span n x perBar

/-- Whether a written duration lasts. Bars count even beside no beats. -/
def Length.isPositive : Length → Bool
  | beats x => 0.0 < x
  | bars n x => 0 < n || 0.0 < x

inductive Element where
  /-- `@clear`: later copies see nothing written so far. -/
  | clear
  | copy (destination : Bars) (source : Source)
  /-- `bar|beat`. Without a bar the last written bar is meant. -/
  | position (bar : Option UInt32) (beat : Beat)
  | probability (value : Float)
  | velocityRange (low high : UInt8)
  | velocity (value : UInt8)
  | duration (length : Length)
  | pitch (pitch : UInt8)
deriving DecidableEq

end Barline.Score
