import Barline.Number.Rounding

/-!
# Decimal text of binary numbers

A finite binary64 number is a whole number times a power of two. `Decimal.shortest` finds the fewest
decimal digits that read back to the number, and among those the nearest; `fixed` rounds the exact
value to a number of places. How the digits are laid out is the choice of each output.
-/

namespace Barline.Number

def twoPower (n : Nat) : Nat := Nat.pow 2 n

def tenPower (n : Nat) : Nat := Nat.pow 10 n

def leadingBit : Nat := 4503599627370496

/-- The size `mantissa * 2 ^ exponent` of a finite number. -/
structure Magnitude where
  mantissa : Nat
  exponent : Int
deriving DecidableEq

def magnitude (x : Float) : Magnitude :=
  let bits := x.toBits.toNat % signBit
  let field : Nat := bits / leadingBit
  let low := bits % leadingBit
  if field = 0 then ⟨low, -1074⟩ else ⟨low + leadingBit, (field : Int) - 1075⟩

inductive Tie where
  | toEven
  | up
deriving DecidableEq

def roundDiv (tie : Tie) (num den : Nat) : Nat :=
  let quotient := num / den
  let twice := 2 * (num % den)
  if twice < den then quotient
  else if den < twice then quotient + 1
  else match tie with
    | .up => quotient + 1
    | .toEven => if quotient % 2 = 0 then quotient else quotient + 1

def digitsOf (n : Nat) : List Char := Nat.toDigits 10 n

/-- A decimal numeral: the digits after the point of `0.d₁d₂…`, and the power of ten that scales
it. -/
structure Numeral where
  digits : List Char
  point : Int
deriving DecidableEq

namespace Numeral

/-- The numeral of `n * 10 ^ exponent`, without trailing zeros. -/
def ofScaled (n : Nat) (exponent : Int) : Numeral :=
  let digits := digitsOf n
  ⟨(digits.reverse.dropWhile (· == '0')).reverse, exponent + digits.length⟩

/-- Positional layout, with at least `places` digits after the point. -/
def positional (places : Nat) (n : Numeral) : List Char :=
  let whole := if n.point ≤ 0 then ['0']
    else n.digits.take n.point.toNat ++ List.replicate (n.point.toNat - n.digits.length) '0'
  let part := if n.point ≤ 0 then List.replicate (-n.point).toNat '0' ++ n.digits
    else n.digits.drop n.point.toNat
  let part := part ++ List.replicate (places - part.length) '0'
  if part.isEmpty then whole else whole ++ '.' :: part

/-- Layout with one digit before the point and a signed exponent. -/
def scientific (n : Numeral) : List Char :=
  let exponent := n.point - 1
  let head := n.digits.take 1
  let tail := n.digits.drop 1
  let body := if tail.isEmpty then head else head ++ '.' :: tail
  body ++ 'e' :: (if exponent < 0 then '-' else '+') :: digitsOf exponent.natAbs

end Numeral

/-- The interval of reals that round to a number, and the number itself, over one denominator. -/
structure Rounding where
  low : Nat
  value : Nat
  high : Nat
  den : Nat
  closed : Bool

/-- The reals that round to `m`: half a step to each side, a quarter below a power of two. -/
def Rounding.of (m : Magnitude) : Rounding :=
  let below := if m.mantissa = leadingBit ∧ -1074 < m.exponent then 1 else 2
  let up := twoPower (m.exponent - 2).toNat
  ⟨(4 * m.mantissa - below) * up, 4 * m.mantissa * up, (4 * m.mantissa + 2) * up,
    twoPower (2 - m.exponent).toNat, m.mantissa % 2 = 0⟩

namespace Rounding

/-- The candidate on the grid `10 ^ exponent` that lies in the interval, the nearer one of two. -/
def onGrid? (r : Rounding) (tie : Tie) (exponent : Int) : Option Nat :=
  let scale := tenPower (-exponent).toNat
  let cell := r.den * tenPower exponent.toNat
  let floor := r.value * scale / cell
  let inside (n : Nat) : Bool :=
    if r.closed then r.low * scale ≤ n * cell ∧ n * cell ≤ r.high * scale
    else r.low * scale < n * cell ∧ n * cell < r.high * scale
  match inside floor, inside (floor + 1) with
  | true, false => some floor
  | false, true => some (floor + 1)
  | true, true => some (if r.value * scale = floor * cell then floor
      else roundDiv tie (r.value * scale) cell)
  | false, false => none

/-- The exponent `k` with `10 ^ (k - 1) ≤ value < 10 ^ k`, sought upward from `guess`. -/
def scale (r : Rounding) : Nat → Int → Int
  | 0, guess => guess
  | fuel + 1, guess =>
    if r.value * tenPower (-guess).toNat < r.den * tenPower guess.toNat then guess
    else r.scale fuel (guess + 1)

/-- Tries grids of growing fineness. Seventeen digits are always enough. -/
def search (r : Rounding) (tie : Tie) (scale : Int) : Nat → Nat → Numeral
  | 0, digits => .ofScaled (roundDiv tie (r.value * tenPower ((digits : Int) - scale).toNat)
      (r.den * tenPower (scale - digits).toNat)) (scale - digits)
  | fuel + 1, digits =>
    match r.onGrid? tie (scale - digits) with
    | some n => .ofScaled n (scale - digits)
    | none => r.search tie scale fuel (digits + 1)

end Rounding

/-- The fewest digits that read back to the size of a finite `x`, the nearest such numeral. -/
def shortest (tie : Tie) (x : Float) : Numeral :=
  let m := magnitude x
  if m.mantissa = 0 then ⟨['0'], 1⟩
  else
    let r := Rounding.of m
    let guess := ((m.mantissa.log2 : Int) + m.exponent) * 30103 / 100000
    r.search tie (r.scale 4 guess) 16 1

/-- The sign in front of a number, also of `-0`. -/
def sign (x : Float) : List Char := if isNegative x then ['-'] else []

/-- Numbers in messages: the shortest digits, never an exponent, and a half goes up. -/
def plain (x : Float) : String :=
  if x.isNaN then "NaN"
  else if x.isInf then String.ofList (sign x) ++ "inf"
  else String.ofList (sign x ++ (shortest .up x).positional 0)

/-- The exact value rounded to `places` decimal places, a half to the even neighbour. -/
def fixed (places : Nat) (x : Float) : List Char :=
  if x.isNaN then "NaN".toList
  else if x.isInf then sign x ++ "inf".toList
  else
    let m := magnitude x
    let scaled := roundDiv .toEven (m.mantissa * tenPower places * twoPower m.exponent.toNat)
      (twoPower (-m.exponent).toNat)
    let digits := digitsOf scaled
    let digits := List.replicate (places + 1 - digits.length) '0' ++ digits
    let whole := digits.take (digits.length - places)
    let part := digits.drop (digits.length - places)
    sign x ++ (if part.isEmpty then whole else whole ++ '.' :: part)

end Barline.Number
