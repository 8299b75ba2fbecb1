import Barline.Pitch
import Barline.Score.Element
import Barline.Text.Scan

/-!
# Reading a score

Elements are short words such as `C3`, `v80-100`, `1|1x4@0.5` and `@3-4=1`, each ended by a blank, a
comment that opens with a slash, or the end of the text. `Score.parse` gives the elements of a whole
text, or the first reason to refuse it.
-/

namespace Barline.Score

abbrev Elements := List (Located Element)

namespace Reader

open Scan Number

def elementStarts : List String :=
  ["pitch", "bar number", "'|'", "'@'", "'v'", "'t'", "'p'"]

/-- Requires an element to end here; `continuations` could have gone on with it. -/
def endOfElement (continuations : List String) : Scan Unit := do
  if ← look Cursor.atSeparator then return ()
  else expected (continuations ++ ["whitespace"])

/-- A whole number of 32 bits, called `what` in messages. -/
def integer (what : String) : Scan UInt32 := do
  let position ← here
  let digits ← digits
  if digits.isEmpty then expected [what]
  else if valueOf digits < bound32 then return UInt32.ofNat (valueOf digits)
  else refuse (.tooLarge what (String.ofList digits)) position

def quotient (numerator denominator : Float) (position : Position) : Scan Float :=
  if denominator == 0.0 then refuse (.zeroDenominator numerator) position
  else return numerator / denominator

/-- What follows the whole part of a mixed number: `+numerator/denominator`. Where it is no such
thing, nothing is passed. -/
def mixedPart (position : Position) : Scan (Option Float) := do
  let mark ← get
  move Cursor.advance
  let numerator ← decimal
  if ← look (·.digitAfter '/') then
    move Cursor.advance
    return some (← quotient numerator.value (← decimal).value position)
  else
    set mark
    return none

/-- A decimal, a fraction `n/d` or a mixed number `w+n/d`, called `what` in messages. -/
def number (what : String) : Scan Float := do
  let position ← here
  let first ← decimal
  if first.isEmpty then expected [what]
  else if ← look (·.digitAfter '/') then
    move Cursor.advance
    quotient first.value (← decimal).value position
  else if ← look (·.digitAfter '+') then
    match ← mixedPart position with
    | some part => return first.value + part
    | none => return first.value
  else return first.value

def barNumber : Scan UInt32 := do
  let position ← here
  let bar ← integer "bar number"
  if bar = 0 then refuse .barZero position else return bar

def bars : Scan Bars := do
  let position ← here
  let first ← barNumber
  if ← eat '-' then
    let last ← barNumber
    if last < first then refuse (.backwardBars first last) position
    else return .range first last
  else return .single first

/-- `@clear`, `@destination` or `@destination=source`, from the `@` on. -/
def copyElement : Scan Element := do
  move Cursor.advance
  if ← eatWord "clear".toList then
    endOfElement []
    return .clear
  else if !(← look (·.digitAt 0)) then expected ["clear", "bar number"]
  else
    let destination ← bars
    let source ← if ← eat '=' then
        if ← look (·.digitAt 0) then Source.bars <$> bars else expected ["bar number"]
      else pure .previous
    endOfElement ["'='", "'-'"]
    return .copy destination source

def step : Scan Float := do
  let position ← here
  let step ← number "repeat step"
  if step == 0.0 then refuse .zeroStep position else return step

/-- A beat, or a series `first x times @ step`. -/
def beat : Scan Beat := do
  let position ← here
  let first ← number "beat"
  if first < 1.0 then refuse (.beatBeforeBar first) position
  else if ← eat 'x' then
    let timesPosition ← here
    let times ← integer "repeat count"
    if times = 0 then refuse .noRepeats timesPosition
    else if ← eat '@' then return .series first times (some (← step))
    else return .series first times none
  else return .single first

def positionBar : Scan (Option UInt32) := do
  if ← look (·.digitAt 0) then
    let bar ← barNumber
    if ← eat '|' then return some bar else expected ["'|'", "digit"]
  else
    move Cursor.advance
    return none

def locatedBeat (bar : Option UInt32) : Scan (Located Element) := do
  let position ← here
  return ⟨.position bar (← beat), position⟩

/-- A time position for one more beat after a comma, if there is a comma. -/
def nextBeat (bar : Option UInt32) : Scan (Option (Located Element)) := do
  if ← eat ',' then return some (← locatedBeat bar) else return none

/-- `bar|beat,beat,…`, one element for each beat. -/
def positionElements : Scan Elements := do
  let bar ← positionBar
  let first ← locatedBeat bar
  let others ← many (nextBeat bar) (← look manyRounds)
  endOfElement ["','", "'x'"]
  return first :: others

def probabilityElement (position : Position) : Scan Element := do
  move Cursor.advance
  let value ← number "probability"
  if 0.0 ≤ value ∧ value ≤ 1.0 then
    endOfElement []
    return .probability value
  else refuse (.probabilityOutside value) position

def velocityValue : Scan UInt8 := do
  let position ← here
  let value ← integer "velocity"
  if value ≤ 127 then return value.toUInt8 else refuse (.velocityOutside value.toNat) position

def velocityElement (position : Position) : Scan Element := do
  move Cursor.advance
  let low ← velocityValue
  let element ← if ← eat '-' then
      let high ← velocityValue
      if high < low then refuse (.velocityInverted low high) position
      else pure (.velocityRange low high)
    else pure (.velocity low)
  endOfElement ["'-'"]
  return element

def length (position : Position) : Scan Length := do
  let mark ← get
  let whole ← digits
  if !whole.isEmpty && (← look (·.peek == some ':')) then
    if valueOf whole < bound32 then
      move Cursor.advance
      return .bars (UInt32.ofNat (valueOf whole)) (← number "beats")
    else refuse (.barCountTooLarge (String.ofList whole)) position
  else
    set mark
    return .beats (← number "duration")

def durationElement (position : Position) : Scan Element := do
  move Cursor.advance
  let length ← length position
  if length.isPositive then
    endOfElement ["':'"]
    return .duration length
  else refuse .noDuration position

/-- The spelling of a pitch. Only where nothing came between letter and octave could an accidental
still follow. -/
def pitchName (letter : Char) : Scan PitchName := do
  move Cursor.advance
  let accidental ← accidental
  let negative ← eat '-'
  let digits ← digits
  if digits.isEmpty then
    expected (if accidental.isNone && !negative then ["'#'", "'b'", "octave"] else ["octave"])
  else return ⟨letter, accidental, negative, digits⟩

def pitchElement (letter : Char) (position : Position) : Scan Element := do
  let name ← pitchName letter
  if valueOf name.digits < Pitch.octaveLimit then
    let midi := Pitch.midi name.semitones (name.signed (valueOf name.digits))
    match Pitch.ofMidi? midi with
    | some pitch =>
      endOfElement ["digit"]
      return .pitch pitch
    | none => refuse (.pitchOutside name.text midi) position
  else refuse (.pitchUnreadable name.text) position

/-- The next word: the time positions of one beat list, or one other element. -/
def word : Scan Elements := do
  let position ← here
  let one (scan : Scan Element) : Scan Elements := do return [⟨← scan, position⟩]
  match ← look Cursor.peek with
  | some '@' => one copyElement
  | some '|' => positionElements
  | some 'p' => one (probabilityElement position)
  | some 'v' => one (velocityElement position)
  | some 't' => one (durationElement position)
  | some c =>
    if c.isDigit then positionElements
    else if 'A' ≤ c ∧ c ≤ 'G' then one (pitchElement c position)
    else expected elementStarts
  | none => expected elementStarts

def nextWord : Scan (Option Elements) := do
  skipTrivia
  if ← look Cursor.atEnd then return none else return some (← word)

def elements : Scan Elements := do
  return (← many nextWord (← look manyRounds)).flatten

end Reader

def parse (text : List Char) : Except Error Elements :=
  (Reader.elements.run (Cursor.start text)).map (·.1)

theorem elements_of_parse {text : List Char} {es : Elements} (h : parse text = .ok es) :
    ∃ c, Reader.elements (Cursor.start text) = .ok (es, c) := by
  have hparse : parse text = (Reader.elements (Cursor.start text)).map (·.1) := rfl
  rw [hparse] at h
  cases helements : Reader.elements (Cursor.start text) with
  | error e =>
    rw [helements] at h
    cases h
  | ok r =>
    rw [helements] at h
    cases h
    exact ⟨r.2, rfl⟩

end Barline.Score
