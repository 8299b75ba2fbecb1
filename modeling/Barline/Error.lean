import Barline.Number.Decimal
import Barline.Text.Position
import Barline.Text.Visible

/-!
# Errors

A text is refused for one of two kinds of reason: it does not fit the grammar at some place, or it
fits and names a value outside of its domain. Both are kept as causes; `Error.message` is the only
place that words them.
-/

namespace Barline

inductive Found where
  | char (c : Char)
  | token (text : String)
  | endOfInput
deriving DecidableEq

def Found.text : Found → String
  | .char c => "'" ++ shownChar c ++ "'"
  | .token text => "'" ++ text ++ "'"
  | .endOfInput => "end of input"

/-- Alternatives as `a, b or c`. -/
def alternatives : List String → String
  | [] => "nothing"
  | [word] => word
  | words => ", ".intercalate words.dropLast ++ " or " ++ words.getLastD ""

/-- Why a value is outside of its domain. -/
inductive Cause where
  | emptySignature (numerator denominator : UInt32)
  /-- Beats per bar that differ from the time signature beside them. -/
  | contradictingBeats (beats numerator denominator : UInt32)
  | numeratorAlone (numerator : UInt32)
  | denominatorAlone (denominator : UInt32)
  | backwardBars (first last : UInt32)
  | barZero
  | tooLarge (what digits : String)
  | beatBeforeBar (beat : Float)
  | noRepeats
  | zeroStep
  | probabilityOutside (value : Float)
  | velocityOutside (value : Nat)
  | velocityInverted (low high : UInt8)
  | barCountTooLarge (digits : String)
  | noDuration
  /-- A pitch whose octave is beyond reckoning. -/
  | pitchUnreadable (name : String)
  | pitchOutside (name : String) (midi : Int)
  | zeroDenominator (numerator : Float)
  | nothingBeforeFirstBar
  /-- A copy of several bars that runs past the last bar number. -/
  | copyPastLastBar (first last destination : UInt32)
  | beatPastLastBar (beat : Float) (bar : UInt32)
  | startsTooEarly (pitch : String) (start : Float)
  | startsTooLate (pitch : String) (start : Float)
  | unwritableDuration (pitch : String) (start duration : Float)
  /-- A velocity that would be written `v0`, which deletes. -/
  | deletingVelocity (pitch : String) (start velocity : Float)
  | backwardPitches (low high : UInt8)
  | fractionalBar (bar : Float)
  | fractionalPeriod (bars : Float)
deriving DecidableEq

namespace Cause

open Number (plain)

def message : Cause → String
  | emptySignature n d =>
    s!"invalid time signature {n}/{d}: numerator and denominator must be positive"
  | contradictingBeats b n d => s!"beatsPerBar {b} contradicts time signature {n}/{d}"
  | numeratorAlone n => s!"time signature numerator {n} given without a denominator"
  | denominatorAlone d => s!"time signature denominator {d} given without a numerator"
  | backwardBars a b => s!"bar range {a}-{b} runs backwards"
  | barZero => "bar numbers start at 1"
  | tooLarge what digits => s!"{what} {digits} is too large"
  | beatBeforeBar x =>
    "beat " ++ plain x ++ " is before the start of the bar (beats start at 1)"
  | noRepeats => "repeat count must be at least 1"
  | zeroStep => "repeat step resolves to 0"
  | probabilityOutside x => "probability " ++ plain x ++ " outside 0-1"
  | velocityOutside n => s!"velocity {n} outside 0-127"
  | velocityInverted a b => s!"velocity range {a}-{b} is inverted: min must not exceed max"
  | barCountTooLarge digits => s!"bar count {digits} is too large"
  | noDuration => "duration must be greater than 0"
  | pitchUnreadable name => s!"pitch {name} outside MIDI range 0-127"
  | pitchOutside name midi => s!"pitch {name} (MIDI {midi}) outside 0-127"
  | zeroDenominator x => "division by zero in fraction " ++ plain x ++ "/0"
  | nothingBeforeFirstBar => "bar 1 has no previous bar to copy from"
  | copyPastLastBar a b d => s!"destination bar out of range copying bars {a}-{b} to bar {d}"
  | beatPastLastBar x b =>
    "beat " ++ plain x ++ s!" of bar {b} lies past the last representable bar"
  | startsTooEarly p x => s!"note {p} starts before the first bar (" ++ plain x ++ ")"
  | startsTooLate p x => s!"note {p} starts past the last representable bar (" ++ plain x ++ ")"
  | unwritableDuration p x d =>
    s!"note {p} at " ++ plain x ++ " has non-positive duration " ++ plain d
  | deletingVelocity p x v =>
    s!"note {p} at " ++ plain x ++ " has velocity " ++ plain v ++
      ", which would read back as a deletion"
  | backwardPitches a b => s!"pitch range runs backwards (MIDI {a} to {b})"
  | fractionalBar x => "bar number must be a whole number from 1, got " ++ plain x
  | fractionalPeriod x => "period bar count must be a whole number, got " ++ plain x

end Cause

/-- Why a text, a list of notes or a choice of options is refused. -/
inductive Error where
  | grammar (expected : List String) (found : Found) (position : Position)
  /-- A value lies outside of its domain. Without a position it is not from a text. -/
  | domain (cause : Cause) (position : Option Position)
deriving DecidableEq

namespace Error

def position : Error → Option Position
  | grammar _ _ p => some p
  | domain _ p => p

def isGrammar : Error → Bool
  | grammar .. => true
  | domain .. => false

def message : Error → String
  | grammar expected found p =>
    "[" ++ p.text ++ "] syntax error: expected " ++ alternatives expected ++
      ", found " ++ found.text
  | domain cause (some p) => "[" ++ p.text ++ "] " ++ cause.message
  | domain cause none => cause.message

/-- A block comment that is never closed. -/
def unclosedComment (began : Position) : Error := grammar ["*/"] .endOfInput began

end Error

end Barline
