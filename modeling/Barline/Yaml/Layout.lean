import Barline.Yaml.Token

/-!
# From a text to tokens

The tokens are read from left to right. What the columns say is kept on the way: the columns of the
block collections that are open, and the place where a key may have begun. A colon turns such a
place into a key, so the token that begins the key is put in behind the reader.
-/

namespace Barline.Yaml

structure KeyPlace where
  before : Nat
  line : Nat
  column : Nat
  text : List Char
  /-- Whether nothing but a key can stand there. -/
  required : Bool
deriving DecidableEq

def longestKey : Nat := 1024

def octetLength (text : List Char) : Nat := text.foldl (fun n c => n + c.utf8Size) 0

/-- Whether a colon comes too late for a key that began at a place: on another line, or too far to
the right. -/
def KeyPlace.isPast (k : KeyPlace) (c : Cursor) : Bool :=
  k.line < c.position.line || longestKey < octetLength (k.text.take (columnOf c - k.column))

structure Layout where
  cursor : Cursor
  tokens : Array Token
  /-- The columns of the open block collections, the innermost first. -/
  columns : List Nat
  /-- Where the key may have begun that a colon would end. -/
  place : Option KeyPlace
  /-- The same for what is around each of the open flow collections, the innermost first. -/
  outer : List (Option KeyPlace)
  keyAllowed : Bool

namespace Layout

def start (c : Cursor) : Layout := ⟨c, #[], [], none, [], true⟩

def inFlow (s : Layout) : Bool := !s.outer.isEmpty

/-- The least column of what belongs to the innermost block collection. -/
def least (s : Layout) : Nat := s.columns.head?.elim 0 (· + 1)

def push (s : Layout) (t : Token) : Layout := { s with tokens := s.tokens.push t }

def insert (s : Layout) (n : Nat) (t : Token) : Layout :=
  { s with tokens := s.tokens.insertIdxIfInBounds n t }

/-- Closes the block collections whose columns satisfy a condition, from the innermost on. Columns
mean nothing inside of a flow collection. -/
def close (condition : Nat → Bool) (s : Layout) : Layout :=
  if s.inFlow then s
  else
    let closed := s.columns.takeWhile condition
    { s with
      tokens := s.tokens ++ Array.replicate closed.length Token.blockEnd
      columns := s.columns.dropWhile condition }

/-- Opens a block collection at a column, unless one is open there. Its first token is put in behind
the first `n`. -/
def openAt (column n : Nat) (t : Token) (s : Layout) : Layout :=
  if s.inFlow || !(s.columns.head?.all (· < column)) then s
  else { s.insert n t with columns := column :: s.columns }

def allowKey (allowed : Bool) (s : Layout) : Layout := { s with keyAllowed := allowed }

end Layout

abbrev Lex := StateT Layout Option

namespace Lex

variable {α : Type}

def look (view : Layout → α) : Lex α := fun s => some (view s, s)

def update (change : Layout → Layout) : Lex Unit := fun s => some ((), change s)

def require (condition : Bool) : Lex Unit := if condition then pure () else failure

def read (r : Read α) : Lex α := fun s => do
  let (a, c) ← r s.cursor
  return (a, { s with cursor := c })

def emit (t : Token) : Lex Unit := update (·.push t)

def allowKey (allowed : Bool) : Lex Unit := update (Layout.allowKey allowed)

/-- Gives up the place of a key. It must not be one where only a key can stand. -/
def dropPlace : Lex Unit := do
  require !(← look (·.place.any (·.required)))
  update fun s => { s with place := none }

/-- Keeps where a key may begin, if one may. Only a key can stand at the column of the innermost
block collection. -/
def keepPlace : Lex Unit := do
  if ← look (·.keyAllowed) then
    dropPlace
    update fun s =>
      let column := columnOf s.cursor
      { s with place := some {
        before := s.tokens.size
        line := s.cursor.position.line
        column
        text := s.cursor.rest
        required := !s.inFlow && s.columns.head? == some column } }

/-- Gives up the places of keys that colons would come too late for. -/
def dropPast : Lex Unit := fun s => do
  let current (place : Option KeyPlace) : Option (Option KeyPlace) :=
    match place with
    | none => some none
    | some k =>
      if !k.isPast s.cursor then some (some k)
      else if k.required then none
      else some none
  let place ← current s.place
  let outer ← s.outer.mapM current
  return ((), { s with place, outer })

/-- The blank lines, gaps and comments at the front of a text. Where a block goes on, a tab may not
stand before the first token of a line. -/
def filler (flow : Bool) : Bool → Bool → List Char → List Char
  | _, _, [] => []
  | tabs, comment, c :: rest =>
    if c = '\n' then c :: filler flow flow false rest
    else if comment ∨ c = ' ' ∨ (tabs ∧ c = '\t') then c :: filler flow tabs comment rest
    else if c = '#' then c :: filler flow tabs true rest
    else []

/-- Passes blank lines, gaps and comments. In a block, the next line may begin with a key. -/
def skip : Lex Unit := update fun s =>
  let text := filler s.inFlow (s.inFlow || !s.keyAllowed) false s.cursor.rest
  { s with
    cursor := s.cursor.advanceBy text.length
    keyAllowed := s.keyAllowed || (!s.inFlow && text.contains '\n') }

def mark (n : Nat) (t : Token) : Lex Unit := do
  read (Read.move (·.advanceBy n))
  emit t

/-- Ends everything that is open before something that stands between documents. -/
def endAll : Lex Unit := do
  update (Layout.close fun _ => true)
  dropPlace
  allowKey false

/-- Reads the beginning of a flow collection. It may be a key. -/
def openFlow (t : Token) : Lex Unit := do
  keepPlace
  update fun s => { s with outer := s.place :: s.outer, place := none, keyAllowed := true }
  mark 1 t

def closeFlow (t : Token) : Lex Unit := do
  dropPlace
  update fun s =>
    match s.outer with
    | [] => s
    | place :: outer => { s with place, outer }
  allowKey false
  mark 1 t

def flowEntry : Lex Unit := do
  dropPlace
  allowKey true
  mark 1 .flowEntry

def openBlock (t : Token) : Lex Unit := do
  require (← look fun s => s.inFlow || s.keyAllowed)
  update fun s => s.openAt (columnOf s.cursor) s.tokens.size t

def blockEntry : Lex Unit := do
  openBlock .blockSequenceStart
  dropPlace
  allowKey true
  mark 1 .blockEntry

def key : Lex Unit := do
  openBlock .blockMappingStart
  dropPlace
  allowKey !(← look (·.inFlow))
  mark 1 .key

/-- Reads a colon. It ends the key that may have begun, or the one after a question mark. -/
def value : Lex Unit := do
  match ← look (·.place) with
  | some k =>
    update fun s =>
      { (s.insert k.before .key).openAt k.column k.before .blockMappingStart with place := none }
    allowKey false
  | none =>
    openBlock .blockMappingStart
    allowKey !(← look (·.inFlow))
  mark 1 .value

/-- Reads a token that a key may begin with, and that nothing of a key can follow at once. -/
def atom (r : Read Token) : Lex Unit := do
  keepPlace
  allowKey false
  emit (← read r)

def plain : Lex Unit := do
  keepPlace
  let (s, ended) ← read (Read.plain (← look (·.inFlow)) (← look (·.least)))
  allowKey ended
  emit (.scalar s)

def block : Lex Unit := do
  dropPlace
  allowKey true
  emit (.scalar (← read (Read.block (← look (·.least)))))

def token (c : Char) : Lex Unit := do
  let cursor ← look (·.cursor)
  let flow ← look (·.inFlow)
  let apart := endsToken (cursor.peekAt 1)
  if columnOf cursor = 0 ∧ c = '%' then
    endAll
    emit (← read Read.directive)
  else if atMarker startMarker cursor then
    endAll
    mark 3 .documentStart
  else if atMarker finishMarker cursor then
    endAll
    mark 3 .documentEnd
  else
    match c with
    | '[' => openFlow .flowSequenceStart
    | '\x7b' => openFlow .flowMappingStart
    | ']' => closeFlow .flowSequenceEnd
    | '\x7d' => closeFlow .flowMappingEnd
    | ',' => flowEntry
    | '*' => atom (Token.alias <$> Read.name)
    | '&' => atom (Token.anchor <$> Read.name)
    | '!' => atom (Read.tag flow)
    | '\'' => atom (Token.scalar <$> Read.quoted false)
    | '\"' => atom (Token.scalar <$> Read.quoted true)
    | '|' | '>' => if flow then failure else block
    | '-' => if apart then blockEntry else plain
    | '?' => if flow || apart then key else plain
    | ':' => if flow || apart then value else plain
    | _ => if strayMarks.contains c then failure else plain

def all : Nat → Lex Unit
  | 0 => failure
  | n + 1 => do
    skip
    dropPast
    update fun s => s.close (columnOf s.cursor < ·)
    match ← look (·.cursor.peek) with
    | none => endAll
    | some c =>
      token c
      all n

end Lex

/-- The tokens of a text. A byte order mark at its front is passed, and takes up a column. -/
def tokens? (text : List Char) : Option (List Token) := do
  if !text.all isAllowed then failure
  let c := Cursor.start (unifyBreaks text)
  let c := if c.peek = some byteOrderMark then c.advance else c
  let ((), s) ← (Lex.all (text.length + 1)).run (Layout.start c)
  return s.tokens.toList

end Barline.Yaml
