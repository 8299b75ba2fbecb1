import Barline.CommandLine.Run

/-!
# The program

The only module that acts: it reads files, prints, and ends with an exit status.
-/

namespace Barline

def readFile? (path : String) : IO (Option String) := do
  try return some (← IO.FS.readFile path) catch _ => return none

def machine : CommandLine.Host IO where
  readInput := do (← IO.getStdin).readToEnd
  readFile := readFile?
  readSettings := do
    match ← IO.getEnv "HOME" with
    | none => return none
    | some home => readFile? (home ++ "/.barbeat/config.yaml")
  freshSeed := do
    let bytes ← IO.getRandomBytes 8
    return bytes.foldl (fun word b => word * 256 + b.toUInt64) 0

def usage : String :=
  "usage: barbeat [--beats-per-bar N] [--time-sig N/D] [-v] COMMAND\n" ++
  "  compile SCORE [--table]\n" ++
  "  format NOTES\n" ++
  "  modulate NOTES PROGRAM [--seed N]\n"

end Barline

def main (arguments : List String) : IO UInt32 := do
  let ending ← Barline.CommandLine.run Barline.machine arguments
  match ending with
  | .printed text => IO.print text
  | .failed failure => IO.eprintln failure.message
  | .misused => IO.eprint Barline.usage
  return ending.code
