import Barline.Number.Reading
import Barline.Settings
import Barline.Yaml.Node

/-!
# Settings files

A settings file is a YAML mapping. Each of the two settings may be given once, as a plain number or
as a literal block that is tagged as a number; one that is not given is the usual one, and keys of
other names mean nothing.
-/

namespace Barline.Settings

open Yaml (Node Document)

def repeatLimitKey : List Char := "repeat_warning_threshold".toList

def deletionWindowKey : List Char := "deletion_tolerance".toList

/-- The values of digits in a base, if all of them are digits of it. -/
def digitsIn? (base : Nat) (digits : List Char) : Option Nat := do
  let values ← digits.mapM Number.hexDigit?
  if values.isEmpty ∨ values.any (base ≤ ·) then failure
  else return values.foldl (fun n d => base * n + d) 0

/-- A whole number: decimal without leading zeros, or marked as hexadecimal, octal or binary. -/
def wholeNumber? (text : List Char) : Option Nat :=
  let digits := match text with
    | '+' :: rest => rest
    | _ => text
  let value := match digits with
    | '0' :: 'x' :: rest => digitsIn? 16 rest
    | '0' :: 'o' :: rest => digitsIn? 8 rest
    | '0' :: 'b' :: rest => digitsIn? 2 rest
    | ['0'] => some 0
    | '0' :: _ => none
    | _ => Number.natural? digits
  value.filter (· < Number.bound64)

/-- A number: decimal and finite, or one of the words for infinity and for what is no number. -/
def realNumber? (text : List Char) : Option Float :=
  let body := match text with
    | '+' :: rest => rest
    | _ => text
  if [".inf", ".Inf", ".INF"].contains (String.ofList body) then some (1.0 / 0.0)
  else if ["-.inf", "-.Inf", "-.INF"].contains (String.ofList text) then some (-1.0 / 0.0)
  else if [".nan", ".NaN", ".NAN"].contains (String.ofList text) then some (0.0 / 0.0)
  else if body.length < text.length ∧ (body.head? = some '+' ∨ body.head? = some '-') then none
  else (Number.real? body).filter (·.isFinite)

def valuesOf (key : List Char) (entries : List (List Char × Node)) : List Node :=
  (entries.filter (·.1 == key)).map (·.2)

def wholeTag : List Char := Yaml.commonTag ++ "int".toList

def realTag : List Char := Yaml.commonTag ++ "float".toList

/-- The value of a setting from what is given for it: at most one scalar of the kind that a tag
names. -/
def given? {α : Type} (document : Document) (tag : List Char) (read : List Char → Option α)
    (usual : α) : List Node → Option α
  | [] => some usual
  | [value] => do
    let s ← document.scalar? value
    if s.mayBe tag then read s.text else none
  | _ => none

/-- The entries of a document that is a mapping from words, or that is empty. -/
def entries? (document : Document) : Option (List (List Char × Node)) :=
  match document.root with
  | .mapping entries => entries.mapM fun (key, value) =>
    (document.scalar? key).map fun s => (s.text, value)
  | .scalar s => if s.isEmpty then some [] else none
  | _ => none

def parse? (text : List Char) : Option Settings := do
  let document ← Yaml.document? text
  let entries ← entries? document
  let repeatLimit ←
    given? document wholeTag wholeNumber? usual.repeatLimit (valuesOf repeatLimitKey entries)
  let deletionWindow ←
    given? document realTag realNumber? usual.deletionWindow (valuesOf deletionWindowKey entries)
  return { repeatLimit, deletionWindow }

end Barline.Settings
