import Barline.Text.Cursor
import Barline.Yaml.Character

/-!
# Reading parts of a YAML text

A part of a document is read off the front of the text, or the document is refused. There is one
kind of refusal, so nothing is said about its cause.
-/

namespace Barline.Yaml

abbrev Read := StateT Cursor Option

def columnOf (c : Cursor) : Nat := c.position.column - 1

def startMarker : List Char := ['-', '-', '-']

def finishMarker : List Char := ['.', '.', '.']

/-- Whether a marker stands at the beginning of a line. -/
def atMarker (marker : List Char) (c : Cursor) : Bool :=
  columnOf c == 0 && marker.isPrefixOf c.rest && endsToken (c.peekAt 3)

def atAnyMarker (c : Cursor) : Bool := atMarker startMarker c || atMarker finishMarker c

namespace Read

variable {α : Type}

def look (view : Cursor → α) : Read α := fun c => some (view c, c)

def move (step : Cursor → Cursor) : Read Unit := fun c => some ((), step c)

def require (condition : Bool) : Read Unit := if condition then pure () else failure

def eat (x : Char) : Read Bool := fun c =>
  match c.eat? x with
  | some c' => some (true, c')
  | none => some (false, c)

def run (condition : Char → Bool) : Read (List Char) := fun c =>
  let text := c.rest.takeWhile condition
  some (text, c.advanceBy text.length)

def exactly (n : Nat) : Read (List Char) := fun c =>
  let text := c.rest.take n
  if text.length = n then some (text, c.advanceBy n) else none

/-- As many rounds as can be needed when each passes a character. -/
def rounds : Read Nat := look fun c => c.rest.length + 1

/-- Passes what may stand at the end of a line: gaps, and a comment. -/
def lineEnd : Read Unit := do
  let _ ← run isGap
  if ← eat '#' then
    let _ ← run (· != '\n')
  require (← look fun c => c.peek.all (· == '\n'))

end Read

end Barline.Yaml
