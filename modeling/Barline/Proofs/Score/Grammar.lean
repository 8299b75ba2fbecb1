import Barline.Proofs.Text.Comments
import Barline.Proofs.Text.Parsing
import Barline.Score.Reader

/-!
# The grammar of scores

Which texts are scores and which elements they have, said without a reader. A text denotes a value
if it is spelled as the value is and the value may be written at all.
-/

namespace Barline.Score

open Number Scan

/-- A decimal that is written with digits on one side of the point at least. -/
structure Written (d : Decimal) : Prop where
  whole_digits : ∀ c ∈ d.whole, c.isDigit
  fraction_digits : ∀ c ∈ d.fraction, c.isDigit
  not_isEmpty : d.isEmpty = false

/-- A text denotes a number: a decimal, a fraction or a mixed number. The numbers of a fraction
begin with digits, except for one that is all in front of the stroke. -/
inductive Numeral : List Char → Float → Prop
  | decimal {d : Decimal} (hd : Written d) : Numeral d.text d.value
  | fraction {n d : Decimal} (hn : Written n) (hd : d.Proper) (hzero : (d.value == 0.0) = false) :
    Numeral (n.text ++ '/' :: d.text) (n.value / d.value)
  | mixed {w n d : Decimal} (hw : Written w) (hn : n.Proper) (hd : d.Proper)
    (hzero : (d.value == 0.0) = false) :
    Numeral (w.text ++ '+' :: (n.text ++ '/' :: d.text)) (w.value + n.value / d.value)

/-- A text denotes a whole number of 32 bits. -/
structure Whole (w : List Char) (n : UInt32) : Prop where
  ne_nil : w ≠ []
  digits : ∀ c ∈ w, c.isDigit
  small : valueOf w < bound32
  eq : n = UInt32.ofNat (valueOf w)

/-- A text denotes a bar, which counts from one. -/
structure DenotesBar (w : List Char) (bar : UInt32) : Prop where
  whole : Whole w bar
  ne_zero : bar ≠ 0

/-- A text denotes a bar or a range of bars that does not run backwards. -/
inductive DenotesBars : List Char → Bars → Prop
  | single {w : List Char} {bar : UInt32} (h : DenotesBar w bar) : DenotesBars w (.single bar)
  | range {w v : List Char} {first last : UInt32} (hfirst : DenotesBar w first)
    (hlast : DenotesBar v last) (hle : first ≤ last) :
    DenotesBars (w ++ '-' :: v) (.range first last)

/-- A text denotes a velocity from 0 to 127. -/
def DenotesVelocity (w : List Char) (v : UInt8) : Prop :=
  ∃ n : UInt32, Whole w n ∧ n ≤ 127 ∧ v = n.toUInt8

/-- A text denotes a duration in beats, or in bars and beats. -/
inductive DenotesLength : List Char → Length → Prop
  | beats {w : List Char} {x : Float} (h : Numeral w x) : DenotesLength w (.beats x)
  | bars {w v : List Char} {n : UInt32} {x : Float} (hbars : Whole w n) (hbeats : Numeral v x) :
    DenotesLength (w ++ ':' :: v) (.bars n x)

/-- A text denotes a beat or a series of beats. No beat lies before the first; a quotient that is
no number lies nowhere. -/
inductive DenotesBeat : List Char → Beat → Prop
  | single {w : List Char} {x : Float} (h : Numeral w x) (hx : ¬ x < 1.0) :
    DenotesBeat w (.single x)
  | series {w v : List Char} {x : Float} {times : UInt32} (h : Numeral w x) (hx : ¬ x < 1.0)
    (htimes : Whole v times) (hne : times ≠ 0) :
    DenotesBeat (w ++ 'x' :: v) (.series x times none)
  | seriesStep {w v u : List Char} {x step : Float} {times : UInt32} (h : Numeral w x)
    (hx : ¬ x < 1.0) (htimes : Whole v times) (hne : times ≠ 0) (hstep : Numeral u step)
    (hzero : (step == 0.0) = false) :
    DenotesBeat (w ++ 'x' :: (v ++ '@' :: u)) (.series x times (some step))

/-- What a pitch name may be made of. -/
structure Named (n : PitchName) : Prop where
  letter : n.letter ∈ ['A', 'B', 'C', 'D', 'E', 'F', 'G']
  accidental : n.accidental ∈ [none, some '#', some 'b']
  digits_ne_nil : n.digits ≠ []
  digits : ∀ c ∈ n.digits, c.isDigit

/-- The MIDI number that a pitch name says. -/
def midiOf (n : PitchName) : ℤ := (n.signed (valueOf n.digits) + 2) * 12 + n.semitones

/-- A name says a pitch. -/
def Says (n : PitchName) (pitch : UInt8) : Prop := midiOf n = pitch.toNat ∧ pitch ≤ 127

/-- A name with a far octave says a number that is no pitch, but what words of 32 bits keep of the
number is one. -/
structure Wraps (n : PitchName) (pitch : UInt8) : Prop where
  octave_ge : 357913933 ≤ valueOf n.digits
  octave_lt : valueOf n.digits < 2 ^ 31
  ne : midiOf n ≠ pitch.toNat
  midi : midiOf n ≡ pitch.toNat [ZMOD 2 ^ 32]
  le : pitch ≤ 127

/-- What a name is read as: the pitch that it says, or the one to which it wraps around. -/
def ReadAs (n : PitchName) (pitch : UInt8) : Prop := Says n pitch ∨ Wraps n pitch

section

variable (reads : PitchName → UInt8 → Prop)

/-- A text denotes an element other than a time position, where names of pitches are read in some
way. -/
inductive Denotes : List Char → Element → Prop
  | pitch {n : PitchName} {pitch : UInt8} (hn : Named n) (hpitch : reads n pitch) :
    Denotes n.chars (.pitch pitch)
  | velocity {w : List Char} {v : UInt8} (h : DenotesVelocity w v) :
    Denotes ('v' :: w) (.velocity v)
  | velocityRange {w u : List Char} {low high : UInt8} (hlow : DenotesVelocity w low)
    (hhigh : DenotesVelocity u high) (hle : low ≤ high) :
    Denotes ('v' :: (w ++ '-' :: u)) (.velocityRange low high)
  | duration {w : List Char} {l : Length} (h : DenotesLength w l) (hpos : l.isPositive) :
    Denotes ('t' :: w) (.duration l)
  | probability {w : List Char} {x : Float} (h : Numeral w x) (h0 : 0.0 ≤ x) (h1 : x ≤ 1.0) :
    Denotes ('p' :: w) (.probability x)
  | clear : Denotes ('@' :: "clear".toList) .clear
  | copyPrevious {w : List Char} {destination : Bars} (h : DenotesBars w destination) :
    Denotes ('@' :: w) (.copy destination .previous)
  | copy {w u : List Char} {destination source : Bars} (hdestination : DenotesBars w destination)
    (hsource : DenotesBars u source) :
    Denotes ('@' :: (w ++ '=' :: u)) (.copy destination (.bars source))

/-- A text denotes the bar in front of a time position. -/
inductive DenotesPlace : List Char → Option UInt32 → Prop
  | none : DenotesPlace [] none
  | some {w : List Char} {bar : UInt32} (h : DenotesBar w bar) : DenotesPlace w (some bar)

/-- A text at a position denotes time positions in a bar, one for each of its beats. -/
inductive DenotesBeats (bar : Option UInt32) : Position → List Char → Elements → Prop
  | last {p : Position} {w : List Char} {b : Beat} (h : DenotesBeat w b) :
    DenotesBeats bar p w [⟨.position bar b, p⟩]
  | more {p : Position} {w v : List Char} {b : Beat} {es : Elements} (h : DenotesBeat w b)
    (hes : DenotesBeats bar (p.pastAll (w ++ [','])) v es) :
    DenotesBeats bar p (w ++ ',' :: v) (⟨.position bar b, p⟩ :: es)

/-- A text at a position denotes elements: one, or the time positions of a list of beats. -/
inductive DenotesWord : Position → List Char → Elements → Prop
  | element {p : Position} {w : List Char} {e : Element} (h : Denotes reads w e) :
    DenotesWord p w [⟨e, p⟩]
  | positions {p : Position} {w v : List Char} {bar : Option UInt32} {es : Elements}
    (hbar : DenotesPlace w bar) (hes : DenotesBeats bar (p.pastAll (w ++ ['|'])) v es) :
    DenotesWord p (w ++ '|' :: v) es

/-- A text at a position is made of words with trivia between them and possibly behind the last.
A word is not followed by `#`, which could be an accidental. -/
inductive Words : Position → List Char → Elements → Prop
  | last {p : Position} {w t : List Char} {es : Elements} (hw : DenotesWord reads p w es)
    (ht : Trivia t []) (hhash : t.head? ≠ some '#') : Words p (w ++ t) es
  | more {p : Position} {w t v : List Char} {es fs : Elements} (hw : DenotesWord reads p w es)
    (ht : Trivia t v) (hne : t ≠ []) (hhash : t.head? ≠ some '#')
    (hv : Words (p.pastAll (w ++ t)) v fs) : Words p (w ++ (t ++ v)) (es ++ fs)

/-- A text is a score with elements. -/
inductive Grammatical : List Char → Elements → Prop
  | empty {t : List Char} (ht : Trivia t []) : Grammatical t []
  | words {t v : List Char} {es : Elements} (ht : Trivia t v)
    (hv : Words reads (Position.start.pastAll t) v es) : Grammatical (t ++ v) es

end

end Barline.Score
