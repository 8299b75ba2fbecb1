import Barline.Note
import Std.Data.TreeMap.Basic

/-!
# Copy history

Copies replay what a bar holds, so the notes are also kept by the bar they start in. The notes of a
bar come back in the order they were recorded.
-/

namespace Barline.Score

/-- Notes by the bar they start in, the latest first within each bar. -/
structure History where
  bars : Std.TreeMap UInt32 (List Note)

namespace History

def empty : History := ⟨∅⟩

/-- The notes of a bar, in the order they were recorded. -/
def notes (h : History) (bar : UInt32) : List Note := (h.bars.getD bar []).reverse

def record (h : History) (bar : UInt32) (note : Note) : History :=
  ⟨h.bars.insert bar (note :: h.bars.getD bar [])⟩

end History

end Barline.Score
