/-!
# Reading numerals

A written number keeps its digits until its value is wanted. The value of a decimal is the binary64
number nearest to what the digits say, however many there are.
-/

namespace Barline.Number

def bound32 : Nat := 4294967296

def bound64 : Nat := 18446744073709551616

def valueOf (digits : List Char) : Nat :=
  digits.foldl (fun n c => 10 * n + (c.toNat - 48)) 0

def hexDigit? (c : Char) : Option Nat :=
  if c.isDigit then some (c.toNat - 48)
  else if 'a' ≤ c ∧ c ≤ 'f' then some (c.toNat - 87)
  else if 'A' ≤ c ∧ c ≤ 'F' then some (c.toNat - 55)
  else none

/-- A decimal as it is written: the digits before and after the point. -/
structure Decimal where
  whole : List Char
  fraction : List Char
deriving DecidableEq

namespace Decimal

def isEmpty (d : Decimal) : Bool := d.whole.isEmpty && d.fraction.isEmpty

def value (d : Decimal) : Float :=
  Float.ofScientific (valueOf (d.whole ++ d.fraction)) true d.fraction.length

/-- The nearest number to the decimal times `10 ^ exponent`. A decimal that is far out of reach of
the exponent range is settled without the power. -/
def scaled (d : Decimal) (exponent : Int) : Float :=
  let significand := valueOf (d.whole ++ d.fraction)
  let exponent := exponent - d.fraction.length
  let order := (digitsCount significand : Int) + exponent
  if significand = 0 ∨ order < -400 then 0.0
  else if 400 < order then 1.0 / 0.0
  else Float.ofScientific significand (exponent < 0) exponent.natAbs
where
  digitsCount (n : Nat) : Nat := (Nat.toDigits 10 n).length

end Decimal

/-- A whole number from a nonempty run of digits and nothing else. -/
def natural? (text : List Char) : Option Nat :=
  if text.isEmpty ∨ !text.all Char.isDigit then none else some (valueOf text)

def unsigned : List Char → Bool × List Char
  | '-' :: rest => (true, rest)
  | '+' :: rest => (false, rest)
  | text => (false, text)

def integer? (text : List Char) : Option Int :=
  let (negative, digits) := unsigned text
  (natural? digits).map fun n => if negative then -(n : Int) else n

/-- A whole number below `bound`; a plus sign is allowed and a minus sign is not. -/
def naturalBelow? (bound : Nat) (text : List Char) : Option Nat :=
  let digits := match text with
    | '+' :: rest => rest
    | _ => text
  (natural? digits).filter (· < bound)

/-- A decimal with an optional sign and an optional exponent, digits on one side of the point at
least. -/
def real? (text : List Char) : Option Float :=
  let (negative, body) := unsigned text
  let whole := body.takeWhile Char.isDigit
  let rest := body.dropWhile Char.isDigit
  let (fraction, rest) := match rest with
    | '.' :: r => (r.takeWhile Char.isDigit, r.dropWhile Char.isDigit)
    | r => ([], r)
  let exponent? : Option Int := match rest with
    | [] => some 0
    | c :: r => if c = 'e' ∨ c = 'E' then integer? r else none
  let d : Decimal := ⟨whole, fraction⟩
  if d.isEmpty then none
  else exponent?.map fun e => if negative then -(d.scaled e) else d.scaled e

end Barline.Number
