/-!
# Random sources

A source yields 64-bit words, one at a time, and is handed back with the words it has left. A tape
is a source whose words are given and come round again.
-/

namespace Barline.Random

class Source (σ : Type) where
  draw : σ → UInt64 × σ

/-- A real number in `[-1, 1]` from a word. Its upper 52 bits give a number in `[0, 1)`, which is
stretched by the least number that makes the greatest of them reach `1`. -/
def Source.symmetric (word : UInt64) : Float :=
  (word >>> 12).toFloat / 4503599627370496.0 * 2.0000000000000004 + -1.0

structure Tape where
  words : List UInt64
  /-- The words before the circle begins again. -/
  unread : List UInt64

namespace Tape

def ofWords (words : List UInt64) : Tape := ⟨words, words⟩

/-- Reads one word. An empty tape reads as zeros. -/
def draw (t : Tape) : UInt64 × Tape :=
  match t.unread with
  | word :: rest => (word, { t with unread := rest })
  | [] => (t.words.headD 0, { t with unread := t.words.tail })

instance : Source Tape := ⟨draw⟩

end Tape

end Barline.Random
