import Barline.Yaml.Scalar

/-!
# Tokens of YAML

The tokens of a document are its scalars, the names and tags on nodes, and the marks that say where
collections begin, go on and end. In block style the beginnings and ends follow from columns.
-/

namespace Barline.Yaml

inductive Token where
  | version (major minor : Nat)
  /-- A handle that a document declares for tags, and what it stands for. -/
  | handle (name beginning : List Char)
  | documentStart
  | documentEnd
  | blockSequenceStart
  | blockMappingStart
  | blockEnd
  | flowSequenceStart
  | flowSequenceEnd
  | flowMappingStart
  | flowMappingEnd
  | flowEntry
  | blockEntry
  | key
  | value
  | alias (name : List Char)
  | anchor (name : List Char)
  /-- A tag under a handle, which is empty if the tag is written in full. -/
  | tag (handle rest : List Char)
  | scalar (s : Scalar)
deriving DecidableEq

namespace Read

def name : Read (List Char) := do
  move Cursor.advance
  let text ← run isNameCharacter
  require (!text.isEmpty && (← look fun c => endsToken c.peek || c.peek.any nameEnds.contains))
  return text

/-- How many octets a character takes that begins with a given one. -/
def octetCount? (lead : Nat) : Option Nat :=
  if lead < 0x80 then some 1
  else if 0xC0 ≤ lead ∧ lead < 0xE0 then some 2
  else if 0xE0 ≤ lead ∧ lead < 0xF0 then some 3
  else if 0xF0 ≤ lead ∧ lead < 0xF8 then some 4
  else none

def octet : Read Nat := do
  match ← exactly 3 with
  | ['%', high, low] =>
    match Number.hexDigit? high, Number.hexDigit? low with
    | some h, some l => return 16 * h + l
    | _, _ => failure
  | _ => failure

def octets : Nat → Read (List Nat)
  | 0 => return []
  | n + 1 => do
    let x ← octet
    require (0x80 ≤ x && x < 0xC0)
    return x :: (← octets n)

/-- Reads the characters of a tag. Octets that are written by their codes are kept as characters of
these codes. -/
def tagText (marks : List Char) : Nat → Read (List Char)
  | 0 => failure
  | n + 1 => do
    match ← look Cursor.peek with
    | none => return []
    | some c =>
      if c = '%' then
        let lead ← octet
        match octetCount? lead with
        | none => failure
        | some count =>
          let trail ← octets (count - 1)
          return (lead :: trail).map Char.ofNat ++ (← tagText marks n)
      else if isNameCharacter c || marks.contains c then
        move Cursor.advance
        return c :: (← tagText marks n)
      else return []

/-- The part of a tag that counts: a null character ends it. -/
def upToNull (text : List Char) : List Char := text.takeWhile (· != '\x00')

/-- Reads a tag that is written in full, or the beginning that a handle stands for. -/
def fullTag : Read (List Char) := do
  let text ← tagText (tagMarks ++ fullTagMarks) (← rounds)
  require !text.isEmpty
  return upToNull text

/-- Reads a handle: an exclamation mark, and perhaps a name and a second mark. -/
def handle : Read (List Char) := do
  require (← eat '!')
  let text ← run isNameCharacter
  if ← eat '!' then return '!' :: text ++ ['!'] else return '!' :: text

def isClosedHandle (handle : List Char) : Bool :=
  2 ≤ handle.length && handle.getLast? == some '!'

/-- Reads a tag. An exclamation mark on its own is a tag in full. -/
def tag (flow : Bool) : Read Token := do
  let inFull ← look fun c => c.peekAt 1 == some '<'
  let token ← if inFull then tagInAngles else tagUnderHandle
  require (← look fun c => endsToken c.peek || (flow && c.peek == some ','))
  return token
where
  tagInAngles : Read Token := do
    move (·.advanceBy 2)
    let text ← fullTag
    require (← eat '>')
    return .tag [] text
  tagUnderHandle : Read Token := do
    let beginning ← handle
    let text ← tagText tagMarks (← rounds)
    if isClosedHandle beginning then
      require !text.isEmpty
      return .tag beginning (upToNull text)
    else
      let rest := upToNull (beginning.drop 1 ++ text)
      return if rest.isEmpty then .tag [] ['!'] else .tag ['!'] rest

def versionPart : Read Nat := do
  let digits ← run Char.isDigit
  require (digits.length ≤ 9)
  match Number.natural? digits with
  | some n => return n
  | none => failure

/-- Reads a line that states something about the document that follows. -/
def directive : Read Token := do
  move Cursor.advance
  let word ← run isNameCharacter
  require (← look fun c => endsToken c.peek)
  let _ ← run isGap
  let token ← if word = "YAML".toList then version
    else if word = "TAG".toList then declaration
    else failure
  lineEnd
  let _ ← eat '\n'
  return token
where
  version : Read Token := do
    let major ← versionPart
    require (← eat '.')
    return .version major (← versionPart)
  declaration : Read Token := do
    let name ← handle
    require (isClosedHandle name || name == ['!'])
    require (← look fun c => c.peek.any isGap)
    let _ ← run isGap
    let beginning ← fullTag
    require (← look fun c => endsToken c.peek)
    return .handle name beginning

end Read

end Barline.Yaml
