import Barline.CommandLine.Run

/-!
# Directories in memory

A host that needs no machine: its files are given as a list of paths and texts, and its standard
input as a text that is read once.
-/

namespace Barline.CommandLine

def splitPath : List Char → List (List Char)
  | [] => [[]]
  | c :: rest =>
    match splitPath rest with
    | [] => [[c]]
    | part :: parts => if c = '/' then [] :: part :: parts else (c :: part) :: parts

structure Directory where
  files : List (String × String)

namespace Directory

def paths (d : Directory) : List (List (List Char)) := d.files.map fun f => splitPath f.1.toList

def hasFolder (d : Directory) (names : List (List Char)) : Bool :=
  names.isEmpty || d.paths.any fun p => names.isPrefixOf p && names.length < p.length

/-- The names on the way that a path describes, from the names on the way so far. Each folder on
the way has to be there, and none lies above the directory. -/
def follow? (d : Directory) (names : List (List Char)) :
    List (List Char) → Option (List (List Char))
  | [] => none
  | [last] => if last = [] ∨ last = ['.'] ∨ last = ['.', '.'] then none else some (names ++ [last])
  | part :: parts =>
    if part = [] ∨ part = ['.'] then d.follow? names parts
    else if part = ['.', '.'] then
      if names.isEmpty then none else d.follow? names.dropLast parts
    else if d.hasFolder (names ++ [part]) then d.follow? (names ++ [part]) parts
    else none

def read? (d : Directory) (path : String) : Option String := do
  let parts := splitPath path.toList
  if path.startsWith "/" then failure
  let names ← d.follow? [] parts
  let (_, text) ← d.files.find? fun f => splitPath f.1.toList = names
  return text

/-- The settings file of the user whose home the directory is. -/
def settingsPath : String := ".barbeat/config.yaml"

/-- The directory as a host. What is left of the standard input is the state. -/
def host (d : Directory) : Host (StateM String) where
  readInput := modifyGet fun input => (input, "")
  readFile path := pure (d.read? path)
  readSettings := pure (d.read? settingsPath)
  freshSeed := pure 0

def run (d : Directory) (arguments : List String) (input : String) : Ending :=
  ((CommandLine.run d.host arguments).run input).1

end Directory

end Barline.CommandLine
