import Barline.Meter
import Barline.Note
import Barline.Number.Decimal
import Barline.Pitch

/-!
# Engraving notes

Notes are written as a score: in the order of their starts and pitches, those that sound together
and share their markings as a chord, one line to a bar, and a marking only where it differs from the
one in effect. Notes that no score can say are refused.
-/

namespace Barline.Score

open Number

/-- The power of ten that beats, durations and probabilities are written to. -/
def precision : Float := 1e6

def smallestAmount : Float := 1.0 / precision

/-- A number with at most six decimal places and no trailing zeros. -/
def amountText (x : Float) : List Char :=
  let text := fixed 6 (round (x * precision) / precision)
  let text := (text.reverse.dropWhile (· == '0')).reverse
  let text := (text.reverse.dropWhile (· == '.')).reverse
  if text = ['-', '0'] then ['0'] else text

/-- A velocity and its deviation, as `v` with a value or a range. -/
def velocityText (velocity deviation : Float) : List Char :=
  let low := (clamp 0.0 127.0 (round velocity)).toUInt8
  let high := (clamp low.toFloat 127.0 (round (velocity + deviation))).toUInt8
  'v' :: Nat.toDigits 10 low.toNat ++
    (if low < high then '-' :: Nat.toDigits 10 high.toNat else [])

structure Markings where
  velocity : List Char
  duration : List Char
  probability : List Char
deriving DecidableEq

namespace Markings

def usual : Markings :=
  ⟨velocityText Note.usualVelocity 0.0, amountText Note.usualDuration,
    amountText Note.usualProbability⟩

def of (note : Note) (beats : Float) : Markings :=
  ⟨velocityText note.velocity note.deviation, amountText (larger beats smallestAmount),
    amountText (clamp 0.0 1.0 note.probability)⟩

def changes (inEffect next : Markings) : List (List Char) :=
  (if next.velocity = inEffect.velocity then [] else [next.velocity]) ++
  (if next.duration = inEffect.duration then [] else ['t' :: next.duration]) ++
  (if next.probability = inEffect.probability then [] else ['p' :: next.probability])

end Markings

/-- Notes that are written together, with their start in beats. -/
structure Chord where
  start : Float
  markings : Markings
  pitches : List UInt8

namespace Chord

def single (signature : Signature) (note : Note) : Chord :=
  ⟨signature.toBeats note.start, .of note (signature.toBeats note.duration), [note.pitch]⟩

/-- Whether another chord belongs to this one: nearly the same start and the same markings. -/
def admits (c next : Chord) : Bool :=
  (next.start - c.start).abs < smallestAmount && next.markings = c.markings

/-- The chords of a sequence of notes, after the chord being gathered. -/
def gather (signature : Signature) (c : Chord) : List Note → List Chord
  | [] => [c]
  | note :: notes =>
    let next := single signature note
    if c.admits next then gather signature { c with pitches := c.pitches ++ next.pitches } notes
    else c :: gather signature next notes

def ofNotes (signature : Signature) : List Note → List Chord
  | [] => []
  | note :: notes => gather signature (single signature note) notes

/-- The words of a chord without its markings: the pitches, and the place, with the bar only where
it is not the last one written. -/
def words (c : Chord) (bar : UInt32) (beat : Float) (sameBar : Bool) : List (List Char) :=
  c.pitches.map Pitch.name ++
    [(if sameBar then [] else Nat.toDigits 10 bar.toNat) ++ '|' :: amountText beat]

end Chord

/-- The lines of a score, given the markings in effect and the bar and words of the line begun. -/
def linesFrom (perBar : Float) (inEffect : Markings) (bar : UInt32) (line : List (List Char)) :
    List Chord → List (List (List Char))
  | [] => [line]
  | c :: chords =>
    let (next, beat) := Meter.barBeat c.start perBar
    let changes := inEffect.changes c.markings
    if next = bar then
      linesFrom perBar c.markings bar (line ++ changes ++ c.words next beat true) chords
    else line :: linesFrom perBar c.markings next (changes ++ c.words next beat false) chords

def lines (perBar : Float) : List Chord → List (List (List Char))
  | [] => []
  | c :: chords =>
    let (bar, beat) := Meter.barBeat c.start perBar
    linesFrom perBar c.markings bar (Markings.usual.changes c.markings ++ c.words bar beat false)
      chords

/-- Refuses a note that no score can say: one before the first or past the last bar, one that does
not last, and one whose velocity would be written `v0`. -/
def checkWritable (signature : Signature) (note : Note) : Except Error Unit :=
  let start := signature.toBeats note.start
  let pitch := String.ofList (Pitch.name note.pitch)
  if !start.isFinite || start < -0.5 / precision then
    .error (.domain (.startsTooEarly pitch note.start) none)
  else if !Meter.inRange start signature.beatsPerBar then
    .error (.domain (.startsTooLate pitch note.start) none)
  else if !note.duration.isFinite || note.duration ≤ 0.0 then
    .error (.domain (.unwritableDuration pitch note.start note.duration) none)
  else if note.velocity.isNaN || round note.velocity < 1.0 then
    .error (.domain (.deletingVelocity pitch note.start note.velocity) none)
  else .ok ()

/-- Whether a note may be written before another: by start, then by pitch. -/
def writtenNoLater (a b : Note) : Bool :=
  let x := orderKey a.start
  let y := orderKey b.start
  x < y || (x == y && a.pitch ≤ b.pitch)

def engrave (notes : List Note) (timing : Timing) : Except Error (List Char) := do
  let signature ← timing.resolve
  notes.forM (checkWritable signature)
  let chords := Chord.ofNotes signature (notes.mergeSort writtenNoLater)
  let lines := lines signature.beatsPerBar chords
  return ['\n'].intercalate (lines.map ([' '].intercalate ·))

end Barline.Score
