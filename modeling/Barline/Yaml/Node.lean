import Barline.Yaml.Layout

/-!
# Nodes of YAML

A document is a tree of scalars, sequences and mappings. A node may be named, and an alias stands
for the node that has its name. Tags are kept on scalars; on other nodes only their handles count.
-/

namespace Barline.Yaml

inductive Node where
  | scalar (s : Scalar)
  | sequence (items : List Node)
  | mapping (entries : List (Node × Node))
  | alias (number : Nat)

def Node.empty : Node := .scalar .empty

structure Document where
  root : Node
  /-- What the numbered nodes hold, the latest first: a scalar, or none for what is made of other
  nodes. -/
  numbered : List (Nat × Option Scalar)

def Document.scalar? (d : Document) : Node → Option Scalar
  | .scalar s => some s
  | .alias number => (d.numbered.lookup number).join
  | _ => none

/-- What is left of the tokens, and what was said by those read. -/
structure Parse where
  tokens : List Token
  /-- The handles that tags may use, and what they stand for. -/
  handles : List (List Char × List Char)
  /-- The numbers of the names that aliases may use. -/
  names : List (List Char × Nat)
  numbered : List (Nat × Option Scalar)

abbrev Parsing := StateT Parse Option

namespace Parsing

def peek : Parsing (Option Token) := fun s => some (s.tokens.head?, s)

def skip : Parsing Unit := fun s => some ((), { s with tokens := s.tokens.tail })

def require (condition : Bool) : Parsing Unit := if condition then pure () else failure

def eat (t : Token) : Parsing Bool := fun s =>
  if s.tokens.head? = some t then some (true, { s with tokens := s.tokens.tail })
  else some (false, s)

/-- Numbers a node that may have a name. The number is how many names there are, and stays with the
name until it is given again. -/
def number (name : Option (List Char)) (content : Option Scalar) : Parsing Unit := fun s =>
  match name with
  | none => some ((), s)
  | some name =>
    let n := s.names.length
    some ((), { s with
      names := (name, n) :: s.names.filter (·.1 != name)
      numbered := (n, content) :: s.numbered })

def tag : Parsing (Option (List Char)) := do
  match ← peek with
  | some (.tag handle rest) =>
    skip
    if handle.isEmpty then return some rest
    else
      match (← get).handles.lookup handle with
      | some beginning => return some (beginning ++ rest)
      | none => failure
  | _ => return none

def anchor : Parsing (Option (List Char)) := do
  match ← peek with
  | some (.anchor name) =>
    skip
    return some name
  | _ => return none

/-- Reads the name and the tag of a node, in either order. Both may be missing. -/
def properties : Parsing (Option (List Char) × Option (List Char)) := do
  let early ← anchor
  let tag ← tag
  let late ← if early.isNone && tag.isSome then anchor else pure none
  return (early.or late, tag)

/-- Reads a node unless one of a few tokens is next, which say that it is empty. -/
def orEmpty (stops : List Token) (node : Parsing Node) : Parsing Node := do
  if (← peek).any stops.contains then return .empty else node

/-- The tokens behind an empty key or value of a block mapping. -/
def mappingStops : List Token := [.key, .value, .blockEnd]

/-- The tokens behind an empty item of a block sequence. -/
def sequenceStops : List Token := [.blockEntry, .blockEnd]

mutual

/-- Reads a node. `block` tells whether it may be a block collection, and `level` whether it may be
a sequence that is not indented more deeply than what is around it. -/
def node (block level : Bool) : Nat → Parsing Node
  | 0 => failure
  | n + 1 => do
    match ← peek with
    | some (.alias name) =>
      skip
      match (← get).names.lookup name with
      | some number => return .alias number
      | none => failure
    | _ =>
      let (name, tag) ← properties
      match ← peek with
      | some (.scalar s) =>
        skip
        let s := { s with tag := tag.getD [] }
        number name (some s)
        return .scalar s
      | some .flowSequenceStart =>
        skip
        number name none
        return .sequence (← flowItems true n)
      | some .flowMappingStart =>
        skip
        number name none
        return .mapping (← flowEntries true n)
      | some .blockSequenceStart =>
        require block
        skip
        number name none
        return .sequence (← blockItems n)
      | some .blockMappingStart =>
        require block
        skip
        number name none
        return .mapping (← blockEntries n)
      | next =>
        if level && next == some .blockEntry then
          number name none
          return .sequence (← levelItems n)
        else
          require (name.isSome || tag.isSome)
          let s := { Scalar.empty with tag := tag.getD [] }
          number name (some s)
          return .scalar s

def blockEntries : Nat → Parsing (List (Node × Node))
  | 0 => failure
  | n + 1 => do
    if ← eat .blockEnd then return []
    else
      require (← eat .key)
      let key ← orEmpty mappingStops (node true true n)
      let valued ← eat .value
      let value ← if valued then orEmpty mappingStops (node true true n) else pure .empty
      return (key, value) :: (← blockEntries n)

def blockItems : Nat → Parsing (List Node)
  | 0 => failure
  | n + 1 => do
    if ← eat .blockEnd then return []
    else
      require (← eat .blockEntry)
      let item ← orEmpty sequenceStops (node true false n)
      return item :: (← blockItems n)

/-- Reads the items of a sequence that is not indented. It ends where no item begins. -/
def levelItems : Nat → Parsing (List Node)
  | 0 => failure
  | n + 1 => do
    if ← eat .blockEntry then
      let item ← orEmpty (.blockEntry :: mappingStops) (node true false n)
      return item :: (← levelItems n)
    else return []

/-- Reads the entries of a flow mapping up to its end. Commas stand between them, and perhaps behind
the last. -/
def flowEntries (first : Bool) : Nat → Parsing (List (Node × Node))
  | 0 => failure
  | n + 1 => do
    if ← eat .flowMappingEnd then return []
    else
      unless first do require (← eat .flowEntry)
      match ← peek with
      | some .flowMappingEnd =>
        skip
        return []
      | some .key =>
        skip
        let key ← orEmpty [.value, .flowEntry, .flowMappingEnd] (node false false n)
        let valued ← eat .value
        let value ← if valued then orEmpty [.flowEntry, .flowMappingEnd] (node false false n)
          else pure .empty
        return (key, value) :: (← flowEntries false n)
      | _ =>
        let key ← node false false n
        return (key, .empty) :: (← flowEntries false n)

/-- Reads the items of a flow sequence up to its end. An item with a key is a mapping of one
entry. -/
def flowItems (first : Bool) : Nat → Parsing (List Node)
  | 0 => failure
  | n + 1 => do
    if ← eat .flowSequenceEnd then return []
    else
      unless first do require (← eat .flowEntry)
      match ← peek with
      | some .flowSequenceEnd =>
        skip
        return []
      | some .key =>
        skip
        let entry ← flowPair n
        return .mapping [entry] :: (← flowItems false n)
      | _ =>
        let item ← node false false n
        return item :: (← flowItems false n)

/-- Reads the one entry of a mapping in a flow sequence, behind the beginning of its key. A token
that can begin no key is passed in place of an empty one. -/
def flowPair : Nat → Parsing (Node × Node)
  | 0 => failure
  | n + 1 => do
    let keyless := (← peek).any [Token.value, .flowEntry, .flowSequenceEnd].contains
    let key ← if keyless then (do skip; pure .empty) else node false false n
    let valued ← eat .value
    let value ← if valued then orEmpty [.flowEntry, .flowSequenceEnd] (node false false n)
      else pure .empty
    return (key, value)

end

/-- Reads what stands before a document: its version, once, and the handles that it declares, each
once. The result tells whether there was any. -/
def directives : Nat → Bool → List (List Char × List Char) → Parsing Bool
  | 0, _, _ => failure
  | n + 1, versioned, declared => do
    match ← peek with
    | some (.version major minor) =>
      require (!versioned && major == 1 && (minor == 1 || minor == 2))
      skip
      directives n true declared
    | some (.handle name beginning) =>
      require (declared.lookup name).isNone
      skip
      directives n versioned ((name, beginning) :: declared)
    | _ =>
      modify fun s => { s with handles := declared ++ s.handles }
      return versioned || !declared.isEmpty

def isBetween : Token → Bool
  | .version .. | .handle .. | .documentStart | .documentEnd => true
  | _ => false

/-- Reads the root of a document. Behind a marker it may be empty; without one, nothing may be
stated about the document. -/
def root (n : Nat) : Parsing Node := do
  let stated ← directives n false []
  match ← peek with
  | some .documentStart =>
    skip
    if (← peek).all isBetween then return .empty else node true false n
  | none =>
    require !stated
    return .empty
  | _ =>
    require !stated
    node true false n

/-- Reads the only document of a text. Markers of its end may be repeated. -/
def document (n : Nat) : Parsing Document := do
  let root ← root n
  let s ← get
  require ((s.tokens.dropWhile (· == .documentEnd)).isEmpty)
  return ⟨root, s.numbered⟩

end Parsing

def commonTag : List Char := "tag:yaml.org,2002:".toList

/-- The handles that need no declaration. They may be declared to stand for something else. -/
def commonHandles : List (List Char × List Char) := [(['!'], ['!']), (['!', '!'], commonTag)]

/-- The document in a text. A text without content is an empty document. -/
def document? (text : List Char) : Option Document := do
  let tokens ← tokens? text
  let (d, _) ← (Parsing.document (3 * tokens.length + 4)).run ⟨tokens, commonHandles, [], []⟩
  return d

end Barline.Yaml
