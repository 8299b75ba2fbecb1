/-!
# Whole parts, rounding and limits

The operations on binary64 numbers that the rest of the library shares. Each is put together from
IEEE arithmetic and comparisons, so that its value can be computed inside a proof.
-/

namespace Barline.Number

/-- Whether the sign bit is set, which tells `-0` from `0`. -/
def isNegative (x : Float) : Bool := 9223372036854775808 ≤ x.toBits

/-- From `2^52` on every number is whole. -/
def wholeFrom : Float := 4503599627370496.0

/-- Drops the fraction and keeps the sign, also the sign of zero. -/
def truncate (x : Float) : Float :=
  if x.abs < wholeFrom then
    let size := x.abs.toUInt64.toFloat
    if isNegative x then -size else size
  else x

def fraction (x : Float) : Float := x - truncate x

def floor (x : Float) : Float :=
  let whole := truncate x
  if x < whole then whole - 1.0 else whole

/-- The nearest whole number; a half goes away from zero. -/
def round (x : Float) : Float :=
  let whole := truncate x
  if (x - whole).abs < 0.5 then whole
  else if x < 0.0 then whole - 1.0 else whole + 1.0

/-- The position of `x` within its unit interval, in `[0, 1]`. A negative whole number gives
`-0`. -/
def wrap (x : Float) : Float :=
  let rest := fraction x
  let rest := if rest == 0.0 then (if isNegative x then -0.0 else 0.0) else rest
  if rest < 0.0 then rest + 1.0 else rest

/-- The larger of two numbers; one that is no number loses. -/
def larger (x y : Float) : Float :=
  if x.isNaN then y else if y.isNaN then x else if x < y then y else x

/-- `x` moved into `[low, high]`; what is no number stays. -/
def clamp (low high x : Float) : Float :=
  if x < low then low else if high < x then high else x

def signBit : Nat := 9223372036854775808

/-- The key of the total order on numbers: `-∞`, negatives, `-0`, `0`, positives, `∞`, no number. -/
def orderKey (x : Float) : Int :=
  let bits := x.toBits.toNat
  if bits < signBit then bits else (signBit : Int) - 1 - bits

end Barline.Number
