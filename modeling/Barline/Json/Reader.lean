import Barline.Json.Numeral

/-!
# Reading JSON

A text is read into a tree that keeps numerals as they are written. Strings are decoded; where their
escapes are halves of characters, that is kept as no text.
-/

namespace Barline.Json

open Number (hexDigit?)

inductive Value where
  | null
  | bool (value : Bool)
  | number (numeral : Numeral)
  /-- A string. There is no text if an escape is half of a character. -/
  | string (text : Option (List Char))
  | array (items : List Value)
  /-- The members in order, repeated keys included. -/
  | object (members : List (Option (List Char) × Value))

/-- A piece of a written string: a character, or an escaped 16-bit unit. -/
inductive Piece where
  | char (c : Char)
  | unit (code : Nat)
deriving DecidableEq

/-- Whether a unit is the first half of a character. -/
def isLeading (code : Nat) : Bool := 0xD800 ≤ code && code < 0xDC00

def isTrailing (code : Nat) : Bool := 0xDC00 ≤ code && code < 0xE000

/-- The characters of a written string, with halves joined. -/
def decode : List Piece → Option (List Char)
  | [] => some []
  | .char c :: rest => (decode rest).map (c :: ·)
  | .unit first :: .unit second :: rest =>
    if isLeading first then
      if isTrailing second then
        let code := 0x10000 + (first - 0xD800) * 0x400 + (second - 0xDC00)
        (decode rest).map (Char.ofNat code :: ·)
      else none
    else if isTrailing first then none
    else (decode (.unit second :: rest)).map (Char.ofNat first :: ·)
  | .unit code :: rest =>
    if isLeading code || isTrailing code then none else (decode rest).map (Char.ofNat code :: ·)

def hex? (a b c d : Char) : Option Nat := do
  return (← hexDigit? a) * 4096 + (← hexDigit? b) * 256 + (← hexDigit? c) * 16 + (← hexDigit? d)

def escape? : Char → Option Char
  | '\"' => some '\"'
  | '\\' => some '\\'
  | '/' => some '/'
  | 'b' => some '\x08'
  | 'f' => some '\x0c'
  | 'n' => some '\n'
  | 'r' => some '\r'
  | 't' => some '\t'
  | _ => none

/-- The pieces of a string up to its closing quote, and what follows. -/
def pieces : List Char → Option (List Piece × List Char)
  | '\"' :: rest => some ([], rest)
  | '\\' :: 'u' :: a :: b :: c :: d :: rest => do
    let code ← hex? a b c d
    let (ps, rest) ← pieces rest
    return (.unit code :: ps, rest)
  | '\\' :: e :: rest => do
    let c ← escape? e
    let (ps, rest) ← pieces rest
    return (.char c :: ps, rest)
  | c :: rest =>
    if c < ' ' ∨ c = '\\' then none
    else do
      let (ps, rest) ← pieces rest
      return (.char c :: ps, rest)
  | [] => none

abbrev Read := StateT (List Char) Option

namespace Read

def isBlank (c : Char) : Bool := c == ' ' || c == '\t' || c == '\n' || c == '\r'

def skipBlanks : Read Unit := modify (·.dropWhile isBlank)

def peek : Read (Option Char) := fun s => some (s.head?, s)

def advance : Read Unit := modify List.tail

/-- Passes `c` if it is next, and tells whether it was. -/
def eat (c : Char) : Read Bool := fun s =>
  if s.head? = some c then some (true, s.tail) else some (false, s)

def word (word : List Char) : Read Unit := fun s =>
  if word.isPrefixOf s then some ((), s.drop word.length) else none

def digits : Read (List Char) := fun s => some (s.takeWhile Char.isDigit, s.dropWhile Char.isDigit)

def someDigits : Read (List Char) := do
  let ds ← digits
  if ds.isEmpty then failure else return ds

def fraction : Read (List Char) := do
  if ← eat '.' then someDigits else return []

def exponent : Read (Option (Bool × List Char)) := do
  let c ← peek
  if c = some 'e' ∨ c = some 'E' then
    advance
    let sign ← peek
    if sign = some '+' ∨ sign = some '-' then advance
    return some (sign == some '-', ← someDigits)
  else return none

/-- Reads a numeral. A whole part of several digits does not begin with zero. -/
def numeral : Read Numeral := do
  let negative ← eat '-'
  let whole ← someDigits
  if 1 < whole.length ∧ whole.head? = some '0' then failure
  else return ⟨negative, whole, ← fraction, ← exponent⟩

def string : Read (Option (List Char)) := fun s =>
  (pieces s).map fun (ps, rest) => (decode ps, rest)

mutual

/-- Reads a value, in at most `rounds` nested steps. -/
def value : Nat → Read Value
  | 0 => failure
  | rounds + 1 => do
    skipBlanks
    match ← peek with
    | some 'n' => word "null".toList *> pure .null
    | some 't' => word "true".toList *> pure (.bool true)
    | some 'f' => word "false".toList *> pure (.bool false)
    | some '\"' =>
      advance
      return .string (← string)
    | some '[' =>
      advance
      skipBlanks
      if ← eat ']' then return .array [] else return .array (← items rounds)
    | some '\x7b' =>
      advance
      skipBlanks
      if ← eat '\x7d' then return .object [] else return .object (← members rounds)
    | _ => return .number (← numeral)

def items : Nat → Read (List Value)
  | 0 => failure
  | rounds + 1 => do
    let item ← value rounds
    skipBlanks
    if ← eat ']' then return [item]
    else
      word [',']
      return item :: (← items rounds)

def members : Nat → Read (List (Option (List Char) × Value))
  | 0 => failure
  | rounds + 1 => do
    skipBlanks
    word ['\"']
    let key ← string
    skipBlanks
    word [':']
    let item ← value rounds
    skipBlanks
    if ← eat '\x7d' then return [(key, item)]
    else
      word [',']
      return (key, item) :: (← members rounds)

end

end Read

def parse? (text : List Char) : Option Value := do
  let (value, rest) ← (Read.value (2 * text.length + 2)).run text
  if (rest.dropWhile Read.isBlank).isEmpty then return value else failure

end Barline.Json
