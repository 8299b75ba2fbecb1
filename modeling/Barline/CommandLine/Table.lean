import Barline.Meter
import Barline.Note
import Barline.Number.Decimal
import Barline.Pitch

/-!
# Tables of notes

One line for each note, in columns of fixed width, between a line of titles and a line that counts
the notes.
-/

namespace Barline.CommandLine

open Number (fixed)

def padRight (width : Nat) (text : List Char) : List Char :=
  text ++ List.replicate (width - text.length) ' '

def padLeft (width : Nat) (text : List Char) : List Char :=
  List.replicate (width - text.length) ' ' ++ text

def row (pitch place duration velocity probability : List Char) : List Char :=
  padRight 6 pitch ++ ' ' :: padLeft 10 place ++ ' ' :: padLeft 9 duration ++
    ' ' :: padLeft 8 velocity ++ ' ' :: padLeft 6 probability ++ ['\n']

def noteRow (signature : Signature) (n : Note) : List Char :=
  let (bar, beat) := Meter.barBeat (signature.toBeats n.start) signature.beatsPerBar
  row (Pitch.name n.pitch) (Nat.toDigits 10 bar.toNat ++ '|' :: fixed 3 beat) (fixed 3 n.duration)
    (fixed 0 n.velocity) (fixed 2 n.probability)

def tableText (signature : Signature) (notes : List Note) : List Char :=
  row "pitch".toList "bar|beat".toList "duration".toList "velocity".toList "prob".toList ++
    notes.flatMap (noteRow signature) ++ Nat.toDigits 10 notes.length ++ " events\n".toList

end Barline.CommandLine
