/-!
# Positions in a text

A position is a line and a column, both counted from 1 in characters. Going past a newline starts
the next line.
-/

namespace Barline

structure Position where
  line : Nat
  column : Nat
deriving DecidableEq

namespace Position

def start : Position := ⟨1, 1⟩

def past (p : Position) (c : Char) : Position :=
  if c = '\n' then ⟨p.line + 1, 1⟩ else ⟨p.line, p.column + 1⟩

def pastAll (p : Position) (cs : List Char) : Position := cs.foldl past p

/-- How a position is written, `line:column`. -/
def text (p : Position) : String := toString p.line ++ ":" ++ toString p.column

end Position

structure Located (α : Type) where
  value : α
  position : Position
deriving DecidableEq

end Barline
