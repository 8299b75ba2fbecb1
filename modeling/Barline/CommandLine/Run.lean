import Barline.CommandLine.Arguments
import Barline.CommandLine.Table
import Barline.Json.Notes
import Barline.Modulation.Pass
import Barline.Random.Keystream
import Barline.Score.Engraving
import Barline.Score.Performer
import Barline.Settings.File

/-!
# Running a command

A command reads its input through a host, in whatever monad the host lives, and comes to an ending:
a text to print, a failure, or the finding that the command line makes no sense.
-/

namespace Barline.CommandLine

structure Host (m : Type → Type) where
  readInput : m String
  readFile : String → m (Option String)
  /-- The text of the user's settings file, if there is one. -/
  readSettings : m (Option String)
  freshSeed : m UInt64

inductive Failure where
  | noFile (name : String)
  | noNotes
  | error (error : Error)

def Failure.message : Failure → String
  | noFile name => "cannot read " ++ name
  | noNotes => "not a list of notes"
  | error e => e.message

inductive Ending where
  | printed (text : String)
  | failed (failure : Failure)
  | misused

namespace Ending

def code : Ending → UInt32
  | printed _ => 0
  | failed _ => 1
  | misused => 2

def output : Ending → String
  | printed text => text
  | _ => ""

end Ending

variable {m : Type → Type} [Monad m]

abbrev Action (m : Type → Type) := ExceptT Failure m

namespace Action

/-- Goes on with the value of a computation that may be refused. -/
def ofExcept {α : Type} : Except Error α → Action m α
  | .ok a => pure a
  | .error e => throw (.error e)

/-- Reads a text: a dash means the standard input, and what is no file is the text itself. -/
def readText (host : Host m) (word : String) : Action m (List Char) := do
  if word = "-" then return (← host.readInput).toList
  else return ((← host.readFile word).getD word).toList

/-- Reads a list of notes from a file or, for a dash, from the standard input. -/
def readNotes (host : Host m) (word : String) : Action m (List Note) := do
  let text ← if word = "-" then some <$> host.readInput else host.readFile word
  match text with
  | none => throw (.noFile word)
  | some text =>
    match Json.readNotes? text.toList with
    | none => throw .noNotes
    | some notes => return notes

/-- The user's settings. Without a readable file they are the usual ones. -/
def settings (host : Host m) : Action m Settings := do
  let text ← host.readSettings
  return (text.bind fun t => Settings.parse? t.toList).getD .usual

def compile (host : Host m) (timing : Timing) (score : String) (table : Bool) :
    Action m (List Char) := do
  let text ← readText host score
  let performer ← ofExcept (Score.Performer.make timing (← settings host))
  let performance ← ofExcept (performer.run text)
  if table then return tableText performer.signature performance.events
  else return Json.writeNotes performance.events ++ ['\n']

def format (host : Host m) (timing : Timing) (notes : String) : Action m (List Char) := do
  let score ← ofExcept (Score.engrave (← readNotes host notes) timing)
  return score ++ ['\n']

def modulate (host : Host m) (timing : Timing) (notes program : String) (seed : Option UInt64) :
    Action m (List Char) := do
  let notes ← readNotes host notes
  let text ← readText host program
  let signature ← ofExcept timing.resolve
  let seed ← match seed with
    | some seed => pure seed
    | none => host.freshSeed
  let ((notes, outcome), _) :=
    (Modulation.modulate text signature.numerator signature.denominator notes).run
      (Random.Keystream.ofSeed seed)
  match outcome.parseError with
  | some e => throw (.error e)
  | none => return Json.writeNotes notes ++ ['\n']

end Action

def Command.run (host : Host m) (timing : Timing) : Command → Action m (List Char)
  | compile score table => Action.compile host timing score table
  | format notes => Action.format host timing notes
  | modulate notes program seed => Action.modulate host timing notes program seed

def versionText : String := "barbeat 0.1.0\n"

def run (host : Host m) (arguments : List String) : m Ending := do
  match parse? arguments with
  | none => return .misused
  | some .version => return .printed versionText
  | some (.run command timing) =>
    match ← (command.run host timing).run with
    | .ok text => return .printed (String.ofList text)
    | .error failure => return .failed failure

end Barline.CommandLine
