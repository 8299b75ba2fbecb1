import Barline.Text.Position

/-!
# Remarks

What an interpreter has to say about a score that it nevertheless plays.
-/

namespace Barline.Score

inductive Remark where
  /-- Pitches were gathered, and a copy or a clear dropped them before any was placed. -/
  | unflushedPitches (count : Nat)
  | emptySource (bar : UInt32)
  | selfCopy (bar : UInt32)
  | nothingToPlace
  /-- A series has more positions than the user's limit. -/
  | excessiveRepeat (positions : UInt32) (limit : Nat)
  /-- No placed note carries a change of a parameter. -/
  | unusedChange
  /-- The score ends before any of the gathered pitches is placed. -/
  | neverPlaced (count : Nat)
deriving DecidableEq

def Remark.message : Remark → String
  | unflushedPitches n => s!"{n} buffered pitch(es) were never placed and are discarded"
  | emptySource bar => s!"bar {bar} has no notes to copy"
  | selfCopy bar => s!"skipping copy of bar {bar} onto itself"
  | nothingToPlace => "time position has no pitches to place"
  | excessiveRepeat n limit => s!"repeat pattern generates {n} positions (more than {limit})"
  | unusedChange => "parameter change has no effect on any placed note"
  | neverPlaced n => s!"{n} pitch(es) buffered but no time position follows"

abbrev Advisory := Located Remark

def Advisory.text (a : Advisory) : String := "[" ++ a.position.text ++ "] " ++ a.value.message

end Barline.Score
