import Barline.Pitch
import Barline.Text.Scan

/-!
# Tokens of modulation texts

A modulation text is cut into words, numbers, periods, pitch names and symbols. `tokenize` closes
the list with one `finish` token, so that a parser always has a next token.
-/

namespace Barline.Modulation

inductive Token where
  | word (name : String)
  | number (value : Float)
  /-- A number with a `t`, a period in beats. -/
  | period (beats : Float)
  /-- A pitch name and its MIDI number, which may be out of range. -/
  | pitch (name : String) (midi : Int)
  | plus
  | plusEquals
  | minus
  | star
  | slash
  | equals
  | pipe
  | colon
  | comma
  | dot
  | opening
  | closing
  | finish
deriving DecidableEq

namespace Token

def text : Token → String
  | word name => name
  | number x => Number.plain x
  | period x => Number.plain x ++ "t"
  | pitch name _ => name
  | plus => "+"
  | plusEquals => "+="
  | minus => "-"
  | star => "*"
  | slash => "/"
  | equals => "="
  | pipe => "|"
  | colon => ":"
  | comma => ","
  | dot => "."
  | opening => "("
  | closing => ")"
  | finish => "end of input"

def found : Token → Found
  | finish => .endOfInput
  | t => .token t.text

end Token

abbrev Tokens := List (Located Token)

namespace Lexer

open Scan

def isWordChar (c : Char) : Bool := c.isAlphanum || c == '_'

/-- The symbol of one character, if it is one. A point or a plus may begin more than that. -/
def symbol? : Char → Option Token
  | '+' => some .plus
  | '-' => some .minus
  | '*' => some .star
  | '/' => some .slash
  | '=' => some .equals
  | '|' => some .pipe
  | ':' => some .colon
  | ',' => some .comma
  | '.' => some .dot
  | '(' => some .opening
  | ')' => some .closing
  | _ => none

/-- The octave that stands for those beyond reckoning. -/
def farOctave : Int := (Pitch.octaveLimit - 1 : Nat) / 24

/-- The MIDI number of a spelled pitch. An octave beyond reckoning is far out of range. -/
def midiOf (n : PitchName) : Int :=
  let octave : Int := if Number.valueOf n.digits < Pitch.octaveLimit then Number.valueOf n.digits
    else farOctave
  Pitch.midi n.semitones (n.signed octave)

/-- A number, or a period if a `t` is attached that begins no longer word. -/
def number : Scan Token := do
  let value := (← decimal).value
  if ← look fun c => c.peek == some 't' && !(c.peekAt 1).any isWordChar then
    move Cursor.advance
    return .period value
  else return .number value

/-- A pitch name. A minus sign belongs to it only before a digit. -/
def pitch (letter : Char) : Scan Token := do
  move Cursor.advance
  let accidental ← accidental
  let negative ← look (·.digitAfter '-')
  if negative then move Cursor.advance
  let digits ← digits
  if digits.isEmpty then expected ["octave"]
  else
    let name : PitchName := ⟨letter, accidental, negative, digits⟩
    return .pitch name.text (midiOf name)

def word : Scan Token := do
  let name ← look (·.rest.takeWhile isWordChar)
  move (·.advanceBy name.length)
  return .word (String.ofList name)

def token : Scan Token := do
  match ← look Cursor.peek with
  | none => return .finish
  | some c =>
    if c.isDigit || (← look (·.digitAfter '.')) then number
    else if 'A' ≤ c ∧ c ≤ 'G' then pitch c
    else if c.isLower || c == '_' then word
    else match symbol? c with
      | some .plus =>
        move Cursor.advance
        if ← eat '=' then return .plusEquals else return .plus
      | some t =>
        move Cursor.advance
        return t
      | none => expected ["number", "identifier", "pitch", "operator"]

def nextToken : Scan (Option (Located Token)) := do
  skipTrivia
  if ← look Cursor.atEnd then return none
  else
    let position ← here
    return some ⟨← token, position⟩

/-- All tokens that are left, and the closing one. -/
def tokens : Scan Tokens := do
  let tokens ← many nextToken (← look manyRounds)
  return tokens ++ [⟨.finish, ← here⟩]

end Lexer

def tokenize (text : List Char) : Except Error Tokens :=
  (Lexer.tokens.run (Cursor.start text)).map (·.1)

end Barline.Modulation
