import Barline.Meter
import Barline.Number.Reading
import Barline.Text.Blank

/-!
# Command line arguments

A command line names one of three commands. The options about the meter and the verbosity may stand
before or after its name; one that stands after it is preferred. An option that takes a value is
given at most once on either side.
-/

namespace Barline.CommandLine

inductive Command where
  /-- Perform a score, which is given in place, in a file or as input. -/
  | compile (score : String) (table : Bool)
  | format (notes : String)
  /-- Modulate notes. Without a seed the random numbers are fresh. -/
  | modulate (notes program : String) (seed : Option UInt64)
deriving DecidableEq

inductive Request where
  | version
  | run (command : Command) (timing : Timing)
deriving DecidableEq

inductive Part where
  | front
  | compile
  | format
  | modulate
deriving DecidableEq

def Part.ofName? : String → Option Part
  | "compile" => some .compile
  | "format" => some .format
  | "modulate" => some .modulate
  | _ => none

structure Given where
  beatsPerBar : Option UInt32
  meter : Option (UInt32 × UInt32)
  table : Bool
  seed : Option UInt64
  words : List String
deriving DecidableEq

def Given.nothing : Given := ⟨none, none, false, none, []⟩

def word? (text : List Char) : Option UInt32 :=
  (Number.naturalBelow? Number.bound32 text).map UInt32.ofNat

/-- A whole number that turns out to lie below `2 ^ 32`. -/
def count? (text : List Char) : Option UInt32 := do
  let n ← Number.integer? text
  if 0 ≤ n ∧ n < Number.bound32 then return UInt32.ofNat n.toNat else failure

def trim (text : List Char) : List Char :=
  ((text.dropWhile isBlank).reverse.dropWhile isBlank).reverse

/-- A time signature, `numerator/denominator`. -/
def meter? (text : List Char) : Option (UInt32 × UInt32) := do
  let numerator := text.takeWhile (· != '/')
  match text.dropWhile (· != '/') with
  | [] => failure
  | _ :: denominator => return (← word? (trim numerator), ← word? (trim denominator))

namespace Given

/-- Takes an option with a value. An option of another part, a value that makes no sense, or a
second value is refused. -/
def withValue? (g : Given) (part : Part) (name : String) (value : List Char) : Option Given :=
  match name with
  | "beats-per-bar" =>
    if g.beatsPerBar.isSome then none
    else (count? value).map fun n => { g with beatsPerBar := some n }
  | "time-sig" =>
    if g.meter.isSome then none else (meter? value).map fun m => { g with meter := some m }
  | "seed" =>
    if part ≠ .modulate ∨ g.seed.isSome then none
    else (Number.naturalBelow? Number.bound64 value).map fun n =>
      { g with seed := some (UInt64.ofNat n) }
  | _ => none

/-- Takes an option without a value. Only the verbosity may be given more than once. -/
def withFlag? (g : Given) (part : Part) (name : String) : Option Given :=
  match name with
  | "verbose" => some g
  | "table" => if part ≠ .compile ∨ g.table then none else some { g with table := true }
  | _ => none

end Given

def takesValue (name : String) : Bool := ["beats-per-bar", "time-sig", "seed"].contains name

/-- Whether a word would be taken for an option. A dash alone is not. -/
def looksLikeOption (word : String) : Bool := word.startsWith "-" && word != "-"

inductive Stop where
  | version
  /-- The part ends before the remaining words. -/
  | done (given : Given) (rest : List String)

def shorts (part : Part) : List Char → Option Bool
  | [] => some false
  | 'v' :: rest => shorts part rest
  | 'V' :: _ => if part = .front then some true else none
  | _ => none

/-- Takes a long option that is written in one word, with its value or without one. -/
def longOption? (part : Part) (g : Given) (body : List Char) : Option Given :=
  let name := String.ofList (body.takeWhile (· != '='))
  match body.dropWhile (· != '=') with
  | [] => g.withFlag? part name
  | _ :: value => g.withValue? part name value

/-- Takes the options of one part, and in a command its words. The front ends at the first word,
and after `--` all is words. -/
def options (part : Part) (g : Given) : List String → Option Stop
  | [] => some (.done g [])
  | arg :: rest =>
    match arg.toList with
    | ['-', '-'] =>
      if part = .front then none else some (.done { g with words := g.words ++ rest } [])
    | '-' :: '-' :: body =>
      if part = .front ∧ arg = "--version" then some .version
      else if takesValue (String.ofList body) then
        match rest with
        | [] => none
        | value :: rest =>
          if looksLikeOption value then none
          else (g.withValue? part (String.ofList body) value.toList).bind (options part · rest)
      else (longOption? part g body).bind (options part · rest)
    | '-' :: c :: cs =>
      match shorts part (c :: cs) with
      | some true => some .version
      | some false => options part g rest
      | none => none
    | _ =>
      if part = .front then some (.done g (arg :: rest))
      else options part { g with words := g.words ++ [arg] } rest

def command? (part : Part) (g : Given) : Option Command :=
  match part, g.words with
  | .compile, [score] => some (.compile score g.table)
  | .format, [notes] => some (.format notes)
  | .modulate, [notes, program] => some (.modulate notes program g.seed)
  | _, _ => none

/-- What is said about the meter before and after the name of a command. -/
def timingOf (front command : Given) : Timing :=
  let meter := command.meter <|> front.meter
  ⟨command.beatsPerBar <|> front.beatsPerBar, meter.map (·.1), meter.map (·.2)⟩

/-- What a command line asks for, if it makes sense. -/
def parse? (arguments : List String) : Option Request := do
  match ← options .front .nothing arguments with
  | .version => return .version
  | .done _ [] => failure
  | .done front (name :: rest) =>
    let part ← Part.ofName? name
    match ← options part .nothing rest with
    | .version => failure
    | .done g _ => return .run (← command? part g) (timingOf front g)

end Barline.CommandLine
