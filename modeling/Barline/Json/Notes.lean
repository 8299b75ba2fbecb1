import Barline.Json.Reader
import Barline.Note

/-!
# Lists of notes in JSON

A note is an object with a member for each field, or an array of the fields in order. The last two
fields may be missing. Members of other names mean nothing; a field that is given twice, or that is
no number, makes the list unreadable.
-/

namespace Barline.Json

namespace Value

def real? : Value → Option Float
  | number n => n.value?
  | _ => none

def byte? : Value → Option UInt8
  | number n => n.byte?
  | _ => none

end Value

/-- The names of the fields of a note, in the order they are written. -/
def fieldNames : List String :=
  ["pitch", "start_time", "duration", "velocity", "probability", "velocity_deviation"]

def optionalReal? (usual : Float) : Option Value → Option Float
  | none => some usual
  | some v => v.real?

def noteOf? (pitch start duration velocity probability deviation : Option Value) :
    Option Note := do
  return {
    pitch := ← (← pitch).byte?
    start := ← (← start).real?
    duration := ← (← duration).real?
    velocity := ← (← velocity).real?
    probability := ← optionalReal? Note.usualProbability probability
    deviation := ← optionalReal? 0.0 deviation }

def noteOfMembers? (members : List (Option (List Char) × Value)) : Option Note := do
  let members ← members.mapM fun (key, v) => do return (String.ofList (← key), v)
  if fieldNames.any fun name => 1 < members.countP (·.1 == name) then failure
  else
    noteOf? (members.lookup "pitch") (members.lookup "start_time") (members.lookup "duration")
      (members.lookup "velocity") (members.lookup "probability")
      (members.lookup "velocity_deviation")

def note? : Value → Option Note
  | .object members => noteOfMembers? members
  | .array items =>
    if fieldNames.length < items.length then none
    else noteOf? items[0]? items[1]? items[2]? items[3]? items[4]? items[5]?
  | _ => none

def readNotes? (text : List Char) : Option (List Note) := do
  match ← parse? text with
  | .array items => items.mapM note?
  | _ => none

def fieldTexts (n : Note) : List (List Char) :=
  [Nat.toDigits 10 n.pitch.toNat, numberText n.start, numberText n.duration,
    numberText n.velocity, numberText n.probability, numberText n.deviation]

def memberText (name : String) (value : List Char) : List Char :=
  "\n    \"".toList ++ name.toList ++ "\": ".toList ++ value

/-- A note as an object, indented as an item of a list. -/
def noteText (n : Note) : List Char :=
  let members := List.zipWith memberText fieldNames (fieldTexts n)
  "\n  \x7b".toList ++ [','].intercalate members ++ "\n  \x7d".toList

def writeNotes : List Note → List Char
  | [] => "[]".toList
  | notes => '[' :: [','].intercalate (notes.map noteText) ++ "\n]".toList

end Barline.Json
