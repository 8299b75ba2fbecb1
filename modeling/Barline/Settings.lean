/-!
# Settings

What a user may set: how many repeats are unremarkable, and how near an earlier note must be for a
deletion to find it.
-/

namespace Barline

structure Settings where
  /-- A repeat of more positions than this is remarked on. -/
  repeatLimit : Nat
  /-- How far apart, in quarter notes, a deletion and its note may start. -/
  deletionWindow : Float
deriving DecidableEq

namespace Settings

def usual : Settings := ⟨100, 0.001⟩

end Settings

end Barline
