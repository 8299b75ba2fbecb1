import Barline.Modulation.Program
import Barline.Modulation.Token

/-!
# Grammar of modulation texts

A parser on tokens by recursive descent: products bind closer than sums, both to the left, and a
minus sign in front of an operand subtracts it from zero. Nothing separates assignments; the next
one begins where an expression cannot go on.
-/

namespace Barline.Modulation

/-- Parsers that take their tokens from `σ` and fail with `ε`. -/
abbrev ParseFrom (σ ε : Type) := StateT σ (Except ε)

abbrev Parse := ParseFrom Tokens Error

namespace Parse

/-- What the grammar asks of the tokens. -/
class Feed (σ : Type) (ε : outParam Type) where
  /-- The token `offset` places ahead. Past the end it is `finish`. -/
  ahead (offset : Nat) : ParseFrom σ ε Token
  here : ParseFrom σ ε Position
  /-- Past the next token; the closing one stays. -/
  advance : ParseFrom σ ε Unit
  left : ParseFrom σ ε Nat
  refusal {α : Type} (error : Error) : ParseFrom σ ε α

def tokenAt (ts : Tokens) (offset : Nat) : Token := (ts[offset]?).elim .finish (·.value)

def positionOf (ts : Tokens) : Position := ts.head?.elim .start (·.position)

def past (ts : Tokens) : Tokens := if tokenAt ts 0 = .finish then ts else ts.tail

instance : Feed Tokens Error where
  ahead offset := fun ts => .ok (tokenAt ts offset, ts)
  here := fun ts => .ok (positionOf ts, ts)
  advance := fun ts => .ok ((), past ts)
  left := fun ts => .ok (ts.length, ts)
  refusal error := fun _ => .error error

export Feed (ahead here advance left refusal)

variable {σ ε α : Type} [Feed σ ε]

def next : ParseFrom σ ε Token := ahead 0

def expected (words : List String) : ParseFrom σ ε α := do
  let found := (← next).found
  refusal (.grammar words found (← here))

def refuse (cause : Cause) (position : Position) : ParseFrom σ ε α :=
  refusal (.domain cause (some position))

/-- Passes `t` if it is next, and refuses anything else, naming `words`. -/
def require (t : Token) (words : List String) : ParseFrom σ ε Unit := do
  if (← next) = t then advance else expected words

def operandStarts : List String := ["number", "note.<property>", "function call", "'('", "'-'"]

def sumOperator? : Token → Option Operator
  | .plus => some .add
  | .minus => some .subtract
  | _ => none

def productOperator? : Token → Option Operator
  | .star => some .multiply
  | .slash => some .divide
  | _ => none

/-- Whether a written bar count is a whole number of 32 bits. -/
def isBarCount (x : Float) : Bool := Number.fraction x == 0.0 && x ≤ 4294967295.0

def numeral (x : Float) : ParseFrom σ ε Expr := do
  let position ← here
  match ← ahead 1, ← ahead 2 with
  | .colon, .period beats =>
    if isBarCount x then
      advance
      advance
      advance
      return .period x.toUInt32 beats
    else refuse (.fractionalPeriod x) position
  | _, _ =>
    advance
    return .number x

def noteProperty : ParseFrom σ ε Expr := do
  advance
  require .dot ["'.'"]
  match ← next with
  | .word name =>
    advance
    return .property name
  | _ => expected ["property name"]

/-- What separates two arguments, or ends them, where some are still missing or none is. -/
def afterArgument (f : Function) (count : Nat) : List String :=
  if f.minArity ≤ count then ["','", "')'"] else ["','"]

mutual

/-- A sum of products. The count bounds the depth of the recursion. -/
def sum : Nat → ParseFrom σ ε Expr
  | 0 => expected operandStarts
  | depth + 1 => do sumFrom depth (← product depth)

def sumFrom : Nat → Expr → ParseFrom σ ε Expr
  | 0, _ => expected operandStarts
  | depth + 1, left => do
    match sumOperator? (← next) with
    | some op =>
      advance
      sumFrom depth (.binary op left (← product depth))
    | none => return left

def product : Nat → ParseFrom σ ε Expr
  | 0 => expected operandStarts
  | depth + 1 => do productFrom depth (← signed depth)

def productFrom : Nat → Expr → ParseFrom σ ε Expr
  | 0, _ => expected operandStarts
  | depth + 1, left => do
    match productOperator? (← next) with
    | some op =>
      advance
      productFrom depth (.binary op left (← signed depth))
    | none => return left

def signed : Nat → ParseFrom σ ε Expr
  | 0 => expected operandStarts
  | depth + 1 => do
    if (← next) = .minus then
      advance
      return .binary .subtract (.number 0.0) (← signed depth)
    else operand depth

/-- A number, a period, a property, a call or a sum in parentheses. -/
def operand : Nat → ParseFrom σ ε Expr
  | 0 => expected operandStarts
  | depth + 1 => do
    match ← next with
    | .number x => numeral x
    | .period beats =>
      advance
      return .period 0 beats
    | .word "note" => noteProperty
    | .word name =>
      match Function.ofName? name with
      | some f =>
        advance
        require .opening ["'('"]
        let args ← arguments depth f []
        require .closing ["')'"]
        return .call f args
      | none => expected (Function.all.map (·.name) ++ ["note"])
    | .opening =>
      advance
      let inner ← sum depth
      require .closing ["')'"]
      return inner
    | _ => expected operandStarts

/-- The arguments of a call after those already read. As soon as there are enough, a closing
parenthesis ends them. -/
def arguments : Nat → Function → List Expr → ParseFrom σ ε (List Expr)
  | 0, _, _ => expected operandStarts
  | depth + 1, f, done => do
    if f.maxArity ≤ done.length then return done
    else if f.minArity ≤ done.length && (← next) = .closing then return done
    else
      if !done.isEmpty then require .comma (afterArgument f done.length)
      arguments depth f (done ++ [← sum depth])

end

/-- Depth enough for every expression of so many tokens. -/
def depthFor (count : Nat) : Nat := 8 * count + 8

def expression : ParseFrom σ ε Expr := do sum (depthFor (← left))

theorem expression_apply (ts : Tokens) : expression ts = sum (depthFor ts.length) ts := rfl

def pitch : ParseFrom σ ε UInt8 := do
  let position ← here
  match ← next with
  | .pitch name midi =>
    match Pitch.ofMidi? midi with
    | some pitch =>
      advance
      return pitch
    | none => refuse (.pitchOutside name midi) position
  | _ => expected ["pitch"]

def isPitch : Token → Bool
  | .pitch .. => true
  | _ => false

def pitchRange : ParseFrom σ ε PitchRange := do
  let position ← here
  let low ← pitch
  let high ← if (← next) = .minus && isPitch (← ahead 1) then do
      advance
      pitch
    else pure low
  if high < low then refuse (.backwardPitches low high) position else return ⟨low, high⟩

def quotient (numerator denominator : Float) (position : Position) : ParseFrom σ ε Float :=
  if denominator == 0.0 then refuse (.zeroDenominator numerator) position
  else return numerator / denominator

/-- A decimal, a fraction `n/d` or a mixed number `w+n/d`. -/
def literal : ParseFrom σ ε Float := do
  let position ← here
  match ← next with
  | .number x =>
    advance
    match ← next, ← ahead 1, ← ahead 2, ← ahead 3 with
    | .slash, .number d, _, _ =>
      advance
      advance
      quotient x d position
    | .plus, .number n, .slash, .number d =>
      advance
      advance
      advance
      advance
      return x + (← quotient n d position)
    | _, _, _, _ => return x
  | _ => expected ["number"]

def place : ParseFrom σ ε (UInt32 × Float) := do
  let position ← here
  match ← next with
  | .number bar =>
    if bar < 1.0 || !isBarCount bar then refuse (.fractionalBar bar) position
    else
      advance
      require .pipe ["'|'"]
      return (bar.toUInt32, ← literal)
  | _ => expected ["bar number"]

def timeRange : ParseFrom σ ε TimeRange := do
  let (startBar, startBeat) ← place
  require .minus ["'-'"]
  let (endBar, endBeat) ← place
  return ⟨startBar, startBeat, endBar, endBeat⟩

def isNumber : Token → Bool
  | .number _ => true
  | _ => false

/-- What an assignment may go on with after the limits already read. -/
def parameterStarts (pitches : Option PitchRange) (stretch : Option TimeRange) : List String :=
  (if pitches.isNone && stretch.isNone then ["pitch"] else []) ++
    (if stretch.isNone then ["time range"] else []) ++ Parameter.all.map (·.keyword)

def parameter? : Token → Option Parameter
  | .word name => Parameter.ofKeyword? name
  | _ => none

def pitchLimit : ParseFrom σ ε (Option PitchRange) := do
  if isPitch (← next) then some <$> pitchRange else return none

def stretchLimit : ParseFrom σ ε (Option TimeRange) := do
  if isNumber (← next) && (← ahead 1) = .pipe then some <$> timeRange else return none

def valued (position : Position) (pitches : Option PitchRange) (stretch : Option TimeRange)
    (parameter : Parameter) (assign : Assign) : ParseFrom σ ε Assignment := do
  advance
  return ⟨pitches, stretch, parameter, assign, ← expression, position⟩

def assigned (position : Position) (pitches : Option PitchRange) (stretch : Option TimeRange) :
    ParseFrom σ ε Assignment := do
  match parameter? (← next) with
  | none => expected (parameterStarts pitches stretch)
  | some parameter =>
    advance
    match ← next with
    | .equals => valued position pitches stretch parameter .set
    | .plusEquals => valued position pitches stretch parameter .add
    | _ => expected ["'='", "'+='"]

def assignment : ParseFrom σ ε Assignment := do
  let position ← here
  let pitches ← pitchLimit
  assigned position pitches (← stretchLimit)

/-- Assignments until the end, in at most `rounds` rounds. -/
def assignments : Nat → ParseFrom σ ε Program
  | 0 => pure []
  | rounds + 1 => do
    if (← next) = .finish then return []
    else return (← assignment) :: (← assignments rounds)

def program (ts : Tokens) : Except Error Program :=
  ((assignments (ts.length + 1)).run ts).map (·.1)

end Parse

namespace Program

/-- The program of a text. A text of nothing but trivia is an empty program. -/
def parse (text : List Char) : Except Error Program := do
  Parse.program (← tokenize text)

end Program

end Barline.Modulation
