import Barline.Number.Reading

/-!
# Pitches

A pitch is a MIDI number. Its name has a letter, an optional accidental and an octave, and `C3` is
60, so `C-2` is 0 and `G8` is 127.
-/

namespace Barline

def highestPitch : Int := 127

namespace Pitch

/-- Semitones of the natural pitch classes above C. -/
def naturals : List (Char × Int) :=
  [('C', 0), ('D', 2), ('E', 4), ('F', 5), ('G', 7), ('A', 9), ('B', 11)]

/-- Semitones of a pitch class above C. A flat may lead below C and a sharp above B. -/
def class? (letter : Char) (accidental : Option Char) : Option Int := do
  let natural ← naturals.lookup letter
  match accidental with
  | none => some natural
  | some '#' => some (natural + 1)
  | some 'b' => some (natural - 1)
  | some _ => none

/-- The MIDI number of a pitch class in an octave, which may be out of range. It is reckoned in
words of 32 bits, which wrap around. -/
def midiWord (semitones octave : Int32) : Int32 := (octave + 2) * 12 + semitones

def midi (semitones octave : Int) : Int :=
  (midiWord (Int32.ofInt semitones) (Int32.ofInt octave)).toInt

def ofMidi? (n : Int) : Option UInt8 :=
  if 0 ≤ n ∧ n ≤ highestPitch then some (UInt8.ofNat n.toNat) else none

theorem ofMidi?_eq_some_iff {n : Int} {pitch : UInt8} :
    ofMidi? n = some pitch ↔ n = pitch.toNat ∧ pitch ≤ 127 := by
  unfold ofMidi? highestPitch
  rw [Option.ite_none_right_eq_some, Option.some_inj, UInt8.le_iff_toNat_le]
  constructor
  · intro ⟨hn, hpitch⟩
    have hnat : (UInt8.ofNat n.toNat).toNat = n.toNat :=
      UInt8.toNat_ofNat_of_lt' (by change _ < 2 ^ 8; omega)
    rw [← hpitch, hnat]
    exact ⟨by omega, by change _ ≤ 127; omega⟩
  · intro ⟨hn, hpitch⟩
    change pitch.toNat ≤ 127 at hpitch
    exact ⟨by omega, by simp [hn]⟩

theorem ofMidi?_eq_none_iff {n : Int} : ofMidi? n = none ↔ ¬ (0 ≤ n ∧ n ≤ 127) := by
  unfold ofMidi? highestPitch
  split <;> simp_all

/-- Octaves below this one are reckoned with. -/
def octaveLimit : Nat := 2147483648

def octave? (digits : List Char) : Option Int := do
  let n ← Number.integer? digits
  if -(octaveLimit : Int) ≤ n ∧ n < octaveLimit then some n else none

def ofName? : List Char → Option UInt8
  | [] => none
  | letter :: rest => do
    let (accidental, digits) := match rest with
      | '#' :: r => (some '#', r)
      | 'b' :: r => (some 'b', r)
      | r => (none, r)
    let semitones ← class? letter accidental
    let octave ← octave? digits
    ofMidi? (midi semitones octave)

def sharpNames : List (List Char) :=
  [['C'], ['C', '#'], ['D'], ['D', '#'], ['E'], ['F'], ['F', '#'], ['G'], ['G', '#'], ['A'],
    ['A', '#'], ['B']]

/-- A whole number with a minus sign where it is negative. -/
def signedDigits (n : Int) : List Char :=
  if n < 0 then '-' :: Nat.toDigits 10 n.natAbs else Nat.toDigits 10 n.natAbs

def name (pitch : UInt8) : List Char :=
  sharpNames.getD (pitch.toNat % 12) [] ++ signedDigits ((pitch.toNat / 12 : Nat) - 2)

end Pitch

structure PitchName where
  letter : Char
  accidental : Option Char
  negative : Bool
  digits : List Char
deriving DecidableEq

namespace PitchName

def chars (n : PitchName) : List Char :=
  n.letter :: n.accidental.toList ++ (if n.negative then ['-'] else []) ++ n.digits

def text (n : PitchName) : String := String.ofList n.chars

/-- Semitones of the pitch class above C; an unknown letter counts as C. -/
def semitones (n : PitchName) : Int := (Pitch.class? n.letter n.accidental).getD 0

/-- An octave with the sign of the name. -/
def signed (n : PitchName) (octave : Int) : Int := if n.negative then -octave else octave

end PitchName

end Barline
