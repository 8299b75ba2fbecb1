import Barline.Text.Position
import Barline.Text.Blank

/-!
# Cursors

A cursor is what is left of a text and where that rest begins. Every operation moves it past
characters one at a time, so the position always agrees with what was passed.
-/

namespace Barline

/-- The unread rest of a text and the position of its first character. -/
structure Cursor where
  rest : List Char
  position : Position
deriving DecidableEq

namespace Cursor

def start (text : List Char) : Cursor := ⟨text, .start⟩

def peek (c : Cursor) : Option Char := c.rest.head?

def peekAt (c : Cursor) (offset : Nat) : Option Char := c.rest[offset]?

def atEnd (c : Cursor) : Bool := c.rest.isEmpty

/-- Past the next character; at the end it stays. -/
def advance : Cursor → Cursor
  | ⟨[], p⟩ => ⟨[], p⟩
  | ⟨x :: rest, p⟩ => ⟨rest, p.past x⟩

def advanceBy (c : Cursor) (n : Nat) : Cursor :=
  ⟨c.rest.drop n, c.position.pastAll (c.rest.take n)⟩

def eat? (c : Cursor) (x : Char) : Option Cursor :=
  if c.peek = some x then some c.advance else none

def eatWord? (c : Cursor) (word : List Char) : Option Cursor :=
  if word.isPrefixOf c.rest then some (c.advanceBy word.length) else none

def digits (c : Cursor) : List Char := c.rest.takeWhile Char.isDigit

def pastDigits (c : Cursor) : Cursor := c.advanceBy c.digits.length

def digitAt (c : Cursor) (offset : Nat) : Bool := (c.peekAt offset).any Char.isDigit

/-- Whether `x` is next and a decimal digit follows it. -/
def digitAfter (c : Cursor) (x : Char) : Bool := c.peek == some x && c.digitAt 1

/-- Whether a word may end here: at the end, before a blank, or before `//` or `/*`. -/
def atSeparator (c : Cursor) : Bool :=
  match c.rest with
  | [] => true
  | '/' :: '/' :: _ => true
  | '/' :: '*' :: _ => true
  | x :: _ => isBlank x

end Cursor

end Barline
