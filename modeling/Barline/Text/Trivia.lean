import Barline.Text.Cursor

/-!
# Trivia

Between words a text may hold blanks, line comments from `//` or `#` to the end of the line, and
block comments from `/*` to the first `*/` after it. `Cursor.skipTrivia` passes all of these, and
reports a block comment that is never closed.
-/

namespace Barline

inductive Region where
  | plain
  | line
  /-- Before the second character of the opening of a block comment that began at a position. -/
  | opening (began : Position)
  /-- In a block comment that began at a position. -/
  | block (began : Position)
  /-- Before the second character of the closing of a block comment. -/
  | closing
deriving DecidableEq

/-- Where a block comment began that is still open when the text ends. -/
def Region.unclosed : Region → Option Position
  | .opening began => some began
  | .block began => some began
  | _ => none

/-- Where skipping stopped, and the beginning of a block comment left open. -/
structure Skip where
  cursor : Cursor
  unclosed : Option Position
deriving DecidableEq

/-- Passes trivia from inside a region. A comment opens on two characters, so the first is passed
when the second is seen to follow. -/
def Region.skip : Region → List Char → Position → Skip
  | region, [], p => ⟨⟨[], p⟩, region.unclosed⟩
  | .plain, c :: rest, p =>
    if isBlank c then Region.plain.skip rest (p.past c)
    else if c = '#' ∨ (c = '/' ∧ rest.head? = some '/') then Region.line.skip rest (p.past c)
    else if c = '/' ∧ rest.head? = some '*' then (Region.opening p).skip rest (p.past c)
    else ⟨⟨c :: rest, p⟩, none⟩
  | .line, c :: rest, p =>
    if c = '\n' then Region.plain.skip rest (p.past c) else Region.line.skip rest (p.past c)
  -- the second character of `/*`, so that `/*/` does not close what it opens
  | .opening began, c :: rest, p => (Region.block began).skip rest (p.past c)
  | .block began, c :: rest, p =>
    if c = '*' ∧ rest.head? = some '/' then Region.closing.skip rest (p.past c)
    else (Region.block began).skip rest (p.past c)
  | .closing, c :: rest, p => Region.plain.skip rest (p.past c)

def Cursor.skipTrivia (c : Cursor) : Skip := Region.plain.skip c.rest c.position

end Barline
