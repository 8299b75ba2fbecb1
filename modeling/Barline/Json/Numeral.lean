import Barline.Number.Decimal
import Barline.Number.Reading

/-!
# JSON numerals

How numbers are written and read. A numeral is read in 64 bits: as many digits as fit make a whole
number, and the result is that number scaled by a power of ten, each of the two rounded by itself.
-/

namespace Barline.Json

open Number

structure Numeral where
  negative : Bool
  whole : List Char
  /-- The digits after the point; none where no point is written. -/
  fraction : List Char
  /-- Whether the exponent is negative, and its digits. -/
  exponent : Option (Bool × List Char)
deriving DecidableEq

/-- Adds digits to a whole number for as long as it stays below `2 ^ 64`. Gives the number and how
many digits were left over. -/
def gather (n : Nat) : List Char → Nat × Nat
  | [] => (n, 0)
  | d :: ds =>
    let next := 10 * n + valueOf [d]
    if next < bound64 then gather next ds else (n, ds.length + 1)

def powerOfTen (n : Nat) : Float := Float.ofScientific 1 false n

/-- `x / 10 ^ n`, in steps that a number can hold. -/
def shrink (x : Float) (n : Nat) : Float :=
  if n ≤ 308 then x / powerOfTen n
  else if x == 0.0 then x
  else shrink (x / powerOfTen 308) (n - 308)
termination_by n

def grow? (x : Float) (n : Nat) : Option Float :=
  if n ≤ 308 then
    let y := x * powerOfTen n
    if y.isInf then none else some y
  else if x == 0.0 then some x
  else none

namespace Numeral

/-- The whole number in front and the power of ten it is scaled by, exponent apart. -/
def significand (n : Numeral) : Nat × Int :=
  let (whole, dropped) := gather 0 n.whole
  let (all, ignored) := gather whole n.fraction
  (all, (dropped : Int) - (n.fraction.length - ignored : Nat))

def written (n : Numeral) : Int :=
  match n.exponent with
  | none => 0
  | some (negative, digits) => if negative then -(valueOf digits : Int) else valueOf digits

def size? (n : Numeral) : Option Float :=
  let (significand, scale) := n.significand
  let exponent := scale + n.written
  let x := (UInt64.ofNat significand).toFloat
  if exponent < 0 then some (shrink x exponent.natAbs) else grow? x exponent.natAbs

def value? (n : Numeral) : Option Float :=
  n.size?.map fun x => if n.negative then -x else x

/-- The value of a numeral that is written as a whole number below 256. -/
def byte? (n : Numeral) : Option UInt8 :=
  let (value, dropped) := gather 0 n.whole
  if n.negative ∨ n.fraction ≠ [] ∨ n.exponent ≠ none ∨ dropped ≠ 0 ∨ 256 ≤ value then none
  else some (UInt8.ofNat value)

end Numeral

/-- Numbers in JSON: the shortest digits, a half going to the even neighbour, with one digit after
the point at least. Very large and very small numbers have an exponent instead, and what is not
finite is `null`. -/
def numberText (x : Float) : List Char :=
  if !x.isFinite then "null".toList
  else
    let n := shortest .toEven x
    sign x ++ if -5 < n.point ∧ n.point ≤ 16 then n.positional 1 else n.scientific

end Barline.Json
