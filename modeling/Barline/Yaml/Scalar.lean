import Barline.Number.Reading
import Barline.Yaml.Reading

/-!
# Scalars of YAML

A scalar is written plainly, in quotes, or as a block of lines. In the first two ways line breaks
are folded: one stands for a space, and of several in a row all but the first are kept.
-/

namespace Barline.Yaml

inductive Style where
  | plain
  | quoted
  | literal
  | folded
deriving DecidableEq

/-- A text in a document, and the tag on it, which is empty if there is none. -/
structure Scalar where
  text : List Char
  style : Style
  tag : List Char := []
deriving DecidableEq

namespace Scalar

def empty : Scalar := ⟨[], .plain, []⟩

/-- Whether a scalar is one where nothing but a tag is written. -/
def isEmpty (s : Scalar) : Bool := s.text.isEmpty && s.style == .plain

/-- Whether a scalar may stand for a value of the kind that a tag names. A plain one may, and a
literal block if it has that tag. -/
def mayBe (tag : List Char) (s : Scalar) : Bool :=
  s.style == .plain || (s.style == .literal && s.tag == tag)

end Scalar

/-- What is left of the spacing between two words. -/
def folded (spacing : List Char) : List Char :=
  match spacing.count '\n' with
  | 0 => spacing
  | 1 => [' ']
  | breaks + 2 => List.replicate (breaks + 1) '\n'

/-- Whether a tab stands in the indentation of a line, left of a column. The first argument but one
is the column that has been reached on the line, once a line has begun. -/
def tabLeftOf (indent : Nat) : Option Nat → List Char → Bool
  | _, [] => false
  | column, c :: rest =>
    if c = '\n' then tabLeftOf indent (some 0) rest
    else column.any (fun k => c == '\t' && k < indent) ||
      tabLeftOf indent (column.map (· + 1)) rest

/-- The next word of a plain scalar. It goes on up to spacing or to what ends the scalar. In a flow
collection, a colon may not stand directly before a character that the collection uses. -/
def plainWord? (flow : Bool) : List Char → Option (List Char)
  | [] => some []
  | c :: rest =>
    if isSpacing c then some []
    else if flow ∧ c = ':' ∧ rest.head?.any (('?' :: flowIndicators).contains ·) then none
    else if (c = ':' ∧ endsToken rest.head?) ∨ (flow ∧ flowIndicators.contains c) then some []
    else (plainWord? flow rest).map (c :: ·)

def escapeDigits : Char → Nat
  | 'x' => 2
  | 'u' => 4
  | 'U' => 8
  | _ => 0

def escapeCode? (c : Char) : Option Nat :=
  [('0', 0x00), ('a', 0x07), ('b', 0x08), ('t', 0x09), ('\t', 0x09), ('n', 0x0A), ('v', 0x0B),
    ('f', 0x0C), ('r', 0x0D), ('e', 0x1B), (' ', 0x20), ('\"', 0x22), ('/', 0x2F), ('\\', 0x5C),
    ('N', 0x85), ('_', 0xA0), ('L', 0x2028), ('P', 0x2029)].lookup c

def codeOf? (digits : List Char) : Option Char := do
  let values ← digits.mapM Number.hexDigit?
  let code := values.foldl (fun n d => 16 * n + d) 0
  if code.isValidChar then return Char.ofNat code else failure

/-- What becomes of the line breaks at the end of a block. -/
inductive Chomping where
  | strip
  | clip
  | keep
deriving DecidableEq

structure BlockText where
  text : List Char
  /-- Whether the last line is ended by a break. -/
  ended : Bool
  emptyLines : Nat

def BlockText.chomped (b : BlockText) (chomping : Chomping) : List Char :=
  let last := if b.ended then ['\n'] else []
  match chomping with
  | .strip => b.text
  | .clip => b.text ++ last
  | .keep => b.text ++ last ++ List.replicate b.emptyLines '\n'

namespace Read

def plainWord (flow : Bool) : Read (List Char) := fun c => do
  let word ← plainWord? flow c.rest
  return (word, c.advanceBy word.length)

/-- Whether a plain scalar is over behind the spacing that precedes the cursor: its lines are
indented at least to a column. -/
def plainStops (flow : Bool) (indent : Nat) (c : Cursor) : Bool :=
  (!flow && columnOf c < indent) || atAnyMarker c || c.peek == some '#'

/-- Reads what follows a word of a plain scalar, and tells whether a line ended behind it. -/
def plainRest (flow : Bool) (indent : Nat) : Nat → Read (List Char × Bool)
  | 0 => failure
  | n + 1 => do
    let spacing ← run isSpacing
    require !(tabLeftOf indent none spacing)
    let stops ← look (plainStops flow indent)
    if spacing.isEmpty || stops then return ([], spacing.contains '\n')
    else
      let word ← plainWord flow
      if word.isEmpty then return ([], spacing.contains '\n')
      else
        let (text, ended) ← plainRest flow indent n
        return (folded spacing ++ word ++ text, ended)

/-- Reads a plain scalar, and tells whether a line ended behind it. -/
def plain (flow : Bool) (indent : Nat) : Read (Scalar × Bool) := do
  let word ← plainWord flow
  let (text, ended) ← plainRest flow indent (← rounds)
  return (⟨word ++ text, .plain, []⟩, ended)

def escaped : Read Char := do
  let mark ← exactly 1
  match mark with
  | [c] =>
    if escapeDigits c = 0 then
      match escapeCode? c with
      | some code => return Char.ofNat code
      | none => failure
    else
      let digits ← exactly (escapeDigits c)
      match codeOf? digits with
      | some x => return x
      | none => failure
  | _ => failure

/-- Reads the text in quotes up to the closing one. In single quotes, a quote in the text is written
twice; in double quotes, a break after a backslash does not count. No line may begin with a marker
of documents. -/
def quotedText (double : Bool) : Nat → Read (List Char)
  | 0 => failure
  | n + 1 => do
    require !(← look atAnyMarker)
    let next ← look (·.peek)
    let after ← look (·.peekAt 1)
    match next with
    | none => failure
    | some c =>
      if isSpacing c then
        let spacing ← run isSpacing
        return folded spacing ++ (← quotedText double n)
      else if double ∧ c = '\\' ∧ after = some '\n' then
        move (·.advanceBy 2)
        let spacing ← run isSpacing
        return List.replicate (spacing.count '\n') '\n' ++ (← quotedText double n)
      else if double ∧ c = '\\' then
        move Cursor.advance
        let x ← escaped
        return x :: (← quotedText double n)
      else if !double ∧ c = '\'' ∧ after = some '\'' then
        move (·.advanceBy 2)
        return '\'' :: (← quotedText double n)
      else
        move Cursor.advance
        if c = (if double then '\"' else '\'') then return []
        else return c :: (← quotedText double n)

def quoted (double : Bool) : Read Scalar := do
  move Cursor.advance
  return ⟨← quotedText double (← rounds), .quoted, []⟩

/-- Reads the sign of how a block ends, if there is one. -/
def chomping : Read (Option Chomping) := do
  match ← look Cursor.peek with
  | some '+' =>
    move Cursor.advance
    return some .keep
  | some '-' =>
    move Cursor.advance
    return some .strip
  | _ => return none

/-- Reads how deeply a block is indented, if that is written. It is at least one column. -/
def depth : Read (Option Nat) := do
  match (← look Cursor.peek).filter Char.isDigit with
  | some '0' => failure
  | some c =>
    move Cursor.advance
    return some (c.toNat - '0'.toNat)
  | none => return none

/-- Passes empty lines and the indentation of the next line, up to a column if one is given. The
result is how many lines were passed and the widest of their columns. No tab may stand where the
indentation may go on. -/
def indentation (indent : Option Nat) : Nat → Read (Nat × Nat)
  | 0 => failure
  | n + 1 => do
    move fun c =>
      let spaces := (c.rest.takeWhile (· == ' ')).length
      c.advanceBy (indent.elim spaces fun k => min spaces (k - columnOf c))
    let column ← look columnOf
    let goesOn := indent.all (column < ·)
    require !(goesOn && (← look fun c => c.peek == some '\t'))
    if ← eat '\n' then
      let (lines, widest) ← indentation indent n
      return (lines + 1, max column widest)
    else return (0, column)

/-- What stands between two lines of a block. In a folded block, a break between lines that begin
with text is a space, or nothing if empty lines follow. -/
def blockJoint (literal spaced : Bool) (before : BlockText) : List Char :=
  let empty := List.replicate before.emptyLines '\n'
  if before.ended ∧ (literal ∨ spaced) then '\n' :: empty
  else if before.ended ∧ before.emptyLines = 0 then [' ']
  else empty

/-- Reads the lines of a block that is indented to a column. `spaced` tells whether the line before
begins with a gap. -/
def blockLines (literal : Bool) (indent : Nat) : Nat → Bool → BlockText → Read BlockText
  | 0, _, _ => failure
  | n + 1, spaced, before => do
    if ← look fun c => columnOf c == indent && !c.atEnd then
      let gap ← look (·.peek.any isGap)
      let line ← run (· != '\n')
      let ended ← eat '\n'
      let (emptyLines, _) ← indentation (some indent) (← rounds)
      let text := before.text ++ blockJoint literal (spaced || gap) before ++ line
      blockLines literal indent n gap ⟨text, ended, emptyLines⟩
    else return before

/-- Reads a block scalar, its mark included. Its lines are indented at least to column `least`, and
further than that by as much as is written, or else to where the first of them begins. -/
def block (least : Nat) : Read Scalar := do
  let literal ← look (·.peek == some '|')
  move Cursor.advance
  let sign ← chomping
  let written ← depth
  let late ← if sign.isNone then chomping else pure none
  lineEnd
  let _ ← eat '\n'
  let n ← rounds
  let given := written.map (least - 1 + ·)
  let (emptyLines, widest) ← indentation given n
  let indent := given.getD (max widest (max least 1))
  let lines ← blockLines literal indent n false ⟨[], false, emptyLines⟩
  let text := lines.chomped ((sign.or late).getD .clip)
  return ⟨text, if literal then .literal else .folded, []⟩

end Read

end Barline.Yaml
