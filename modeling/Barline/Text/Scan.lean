import Barline.Error
import Barline.Number.Reading
import Barline.Text.Trivia

/-!
# Scans

A scan reads a value off the front of a text and leaves the cursor behind it, or refuses the text.
The repetition `many` serves every loop of the two languages, and `decimal` and `accidental` read
what both spell alike.
-/

namespace Barline

def Cursor.found (c : Cursor) : Found := c.peek.elim .endOfInput .char

abbrev Scan := StateT Cursor (Except Error)

namespace Scan

variable {α : Type}

/-- Refuses what is next, naming what could stand there. -/
def expected (words : List String) : Scan α := fun c =>
  .error (.grammar words c.found c.position)

def refuse (cause : Cause) (position : Position) : Scan α := fun _ =>
  .error (.domain cause (some position))

def here : Scan Position := fun c => .ok (c.position, c)

def look (view : Cursor → α) : Scan α := fun c => .ok (view c, c)

def move (step : Cursor → Cursor) : Scan Unit := fun c => .ok ((), step c)

/-- Passes `x` if it is next, and tells whether it was. -/
def eat (x : Char) : Scan Bool := fun c =>
  match c.eat? x with
  | some c' => .ok (true, c')
  | none => .ok (false, c)

def eatWord (word : List Char) : Scan Bool := fun c =>
  match c.eatWord? word with
  | some c' => .ok (true, c')
  | none => .ok (false, c)

def digits : Scan (List Char) := fun c => .ok (c.digits, c.pastDigits)

def skipTrivia : Scan Unit := fun c =>
  let skip := c.skipTrivia
  match skip.unclosed with
  | some began => .error (.unclosedComment began)
  | none => .ok ((), skip.cursor)

/-- Reads values until there is none, in at most `rounds` rounds. -/
def many (step : Scan (Option α)) : Nat → Scan (List α)
  | 0 => pure []
  | rounds + 1 => do
    match ← step with
    | none => return []
    | some a => return a :: (← many step rounds)

/-- As many rounds as can be needed when each passes a character. -/
def manyRounds (c : Cursor) : Nat := c.rest.length + 1

/-- Digits with an optional fraction. A point belongs to the number only before a digit. -/
def decimal : Scan Number.Decimal := do
  let whole ← digits
  if ← look (·.digitAfter '.') then
    move Cursor.advance
    return ⟨whole, ← digits⟩
  else return ⟨whole, []⟩

def accidental : Scan (Option Char) := do
  match ← look Cursor.peek with
  | some '#' =>
    move Cursor.advance
    return some '#'
  | some 'b' =>
    move Cursor.advance
    return some 'b'
  | _ => return none

end Scan

end Barline
