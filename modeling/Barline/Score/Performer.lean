import Barline.Score.History
import Barline.Score.Reader
import Barline.Score.Remark
import Barline.Settings

/-!
# Performing a score

A performer reads elements from left to right. Parameter elements change what holds from there on,
also for the pitches already gathered; a time position places the gathered pitches; a copy places
once more what a bar holds. Notes with velocity zero delete earlier ones at the end.
-/

namespace Barline.Score

structure Parameters where
  velocity : Float
  deviation : Float
  duration : Float
  probability : Float
deriving DecidableEq

def Parameters.usual : Parameters :=
  ⟨Note.usualVelocity, 0.0, Note.usualDuration, Note.usualProbability⟩

inductive Parameter where
  | velocity
  | duration
  | probability
deriving DecidableEq

inductive Change where
  | velocity (velocity deviation : Float)
  | duration (beats : Float)
  | probability (probability : Float)
deriving DecidableEq

namespace Change

def parameter : Change → Parameter
  | velocity .. => .velocity
  | duration _ => .duration
  | probability _ => .probability

def apply (p : Parameters) : Change → Parameters
  | velocity v d => { p with velocity := v, deviation := d }
  | duration x => { p with duration := x }
  | probability x => { p with probability := x }

end Change

structure Pending where
  pitch : UInt8
  parameters : Parameters
deriving DecidableEq

def Pending.apply (change : Change) (p : Pending) : Pending :=
  { p with parameters := change.apply p.parameters }

def Pending.note (start : Float) (p : Pending) : Note where
  pitch := p.pitch
  start := start
  duration := p.parameters.duration
  velocity := p.parameters.velocity
  probability := p.parameters.probability
  deviation := p.parameters.deviation

/-- The pitches at hand between two elements. -/
inductive Buffer where
  /-- No pitches, and the last change that none has picked up. -/
  | idle (unused : Option Position)
  /-- Pitches that wait for their first time position, and where the first of them stands. -/
  | collecting (pitches : List Pending) (began : Position)
  /-- Pitches that were placed and may be placed again, and the last change since. -/
  | placed (pitches : List Pending) (changed : Option Position)
deriving DecidableEq

/-- For each parameter, the last change that no placed note carries. -/
structure Unplaced where
  velocity : Option Position
  duration : Option Position
  probability : Option Position
deriving DecidableEq

namespace Unplaced

def settled : Unplaced := ⟨none, none, none⟩

def get (u : Unplaced) : Parameter → Option Position
  | .velocity => u.velocity
  | .duration => u.duration
  | .probability => u.probability

def set (u : Unplaced) (position : Position) : Parameter → Unplaced
  | .velocity => { u with velocity := some position }
  | .duration => { u with duration := some position }
  | .probability => { u with probability := some position }

end Unplaced

structure State where
  parameters : Parameters
  bar : Option UInt32
  buffer : Buffer
  unplaced : Unplaced
  /-- Notes since the last clear, by bar, in beats. -/
  history : History
  /-- All notes in the order they were placed, in beats. -/
  events : Array Note
  advisories : Array Advisory

namespace State

def initial : State where
  parameters := .usual
  bar := none
  buffer := .idle none
  unplaced := .settled
  history := .empty
  events := #[]
  advisories := #[]

def advise (s : State) (remark : Remark) (position : Position) : State :=
  { s with advisories := s.advisories.push ⟨remark, position⟩ }

/-- Gathers a pitch. After a placement it begins a new group. -/
def addPitch (s : State) (pitch : UInt8) (position : Position) : State :=
  let pending : Pending := ⟨pitch, s.parameters⟩
  match s.buffer with
  | .collecting pitches began => { s with buffer := .collecting (pitches ++ [pending]) began }
  | _ => { s with buffer := .collecting [pending] position }

/-- Remarks on a change that the next one of the same parameter makes useless. -/
def supersede (s : State) (parameter : Parameter) (position : Position) : State :=
  let s := match s.unplaced.get parameter with
    | some superseded => s.advise .unusedChange superseded
    | none => s
  { s with unplaced := s.unplaced.set position parameter }

/-- Changes a parameter, also of the pitches at hand. -/
def change (s : State) (change : Change) (position : Position) : State :=
  let s := { s with parameters := change.apply s.parameters }.supersede change.parameter position
  match s.buffer with
  | .idle _ => { s with buffer := .idle (some position) }
  | .collecting pitches began =>
    { s with buffer := .collecting (pitches.map (·.apply change)) began }
  | .placed pitches _ =>
    -- placed pitches can be placed again, so they change as well
    { s with buffer := .placed (pitches.map (·.apply change)) (some position) }

def emit (perBar : Float) (s : State) (note : Note) : State :=
  { s with
    history := s.history.record (Meter.barBeat note.start perBar).1 note
    events := s.events.push note }

def placeAt (perBar : Float) (pitches : List Pending) (bar : UInt32) (position : Position)
    (s : State) (beat : Float) : Except Error State :=
  let start := Meter.beatsAt bar beat perBar
  if Meter.inRange start perBar then
    .ok ((pitches.map (·.note start)).foldl (emit perBar) s)
  else .error (.domain (.beatPastLastBar beat bar) (some position))

def placeAll (perBar : Float) (s : State) (beats : List Float) (position : Position) :
    Except Error State :=
  let place (pitches : List Pending) : Except Error State := do
    let s ← beats.foldlM (placeAt perBar pitches (s.bar.getD 1) position) s
    return { s with buffer := .placed pitches none, unplaced := .settled }
  match s.buffer with
  | .idle _ => .ok (s.advise .nothingToPlace position)
  | .collecting pitches _ => place pitches
  | .placed pitches _ => place pitches

def seriesBeats (first step : Float) (times : UInt32) : List Float :=
  (List.range times.toNat).map fun i => first + (UInt32.ofNat i).toFloat * step

def place (perBar : Float) (repeatLimit : Nat) (s : State) (bar : Option UInt32) (beat : Beat)
    (position : Position) : Except Error State :=
  let s := { s with bar := bar <|> s.bar }
  match beat with
  | .single beat => s.placeAll perBar [beat] position
  | .series first times step =>
    let step := step.getD s.parameters.duration
    if step == 0.0 then .error (.domain .zeroStep (some position))
    else
      let s := if repeatLimit < times.toNat then
          s.advise (.excessiveRepeat times repeatLimit) position
        else s
      s.placeAll perBar (seriesBeats first step times) position

/-- Lets go of the pitches at hand, with a remark if none of them was placed. -/
def dropPitches (s : State) (position : Position) : State :=
  match s.buffer with
  | .idle _ => s
  | .collecting pitches _ =>
    { s with buffer := .idle none }.advise (.unflushedPitches pitches.length) position
  | .placed _ changed => { s with buffer := .idle changed }

def copyBar (perBar : Float) (position : Position) (s : State) (pair : UInt32 × UInt32) : State :=
  let (source, destination) := pair
  -- a bar copied onto itself would double its notes
  if source = destination then s.advise (.selfCopy source) position
  else
    let notes := s.history.notes source
    if notes.isEmpty then s.advise (.emptySource source) position
    else
      let offset := Meter.barStart destination perBar - Meter.barStart source perBar
      (notes.map fun n => { n with start := n.start + offset }).foldl (emit perBar) s

end State

/-- The single copies that a copy element stands for, as pairs of source and destination. -/
def copyPairs (destination : Bars) (source : Source) (position : Position) :
    Except Error (List (UInt32 × UInt32)) :=
  match source, destination with
  | .previous, destination =>
    if destination.first = 1 then .error (.domain .nothingBeforeFirstBar (some position))
    else .ok (destination.toList.map fun d => (d - 1, d))
  | .bars (.single source), destination => .ok (destination.toList.map fun d => (source, d))
  | .bars (.range first last), .single destination =>
    if destination.toNat + (last.toNat - first.toNat) < Number.bound32 then
      .ok ((barsFrom first last).map fun source => (source, destination + (source - first)))
    else .error (.domain (.copyPastLastBar first last destination) (some position))
  | .bars (.range first last), .range start finish =>
    -- the sources take turns for as long as there are destinations
    .ok ((barsFrom start finish).map fun d => (first + (d - start) % (last - first + 1), d))

namespace State

def copy (perBar : Float) (s : State) (destination : Bars) (source : Source)
    (position : Position) : Except Error State := do
  let s := s.dropPitches position
  let pairs ← copyPairs destination source position
  return pairs.foldl (copyBar perBar position) s

def clear (s : State) (position : Position) : State :=
  { s.dropPitches position with history := .empty }

/-- Remarks on what is left over at the end of a score. -/
def finish (s : State) : State :=
  match s.buffer with
  | .collecting pitches began => s.advise (.neverPlaced pitches.length) began
  | .placed _ (some position) => s.advise .unusedChange position
  | .idle (some position) => s.advise .unusedChange position
  | _ => s

end State

/-- Whether `event` deletes `note`: the same pitch, starting no further away than `window`. -/
def deletes (window : Float) (event note : Note) : Bool :=
  note.pitch == event.pitch && (note.start - event.start).abs ≤ window

/-- One step of the deletions, on the notes kept so far, the latest first. -/
def keep (window : Float) (kept : List Note) (event : Note) : List Note :=
  if event.velocity == 0.0 then kept.eraseP (deletes window event) else event :: kept

/-- A note of velocity zero deletes the latest earlier note of its pitch that starts within
`window` of it, and is itself dropped. -/
def applyDeletions (window : Float) (events : List Note) : List Note :=
  (events.foldl (keep window) []).reverse

/-- Whether a note may stand before another in the order of their starts. -/
def startsNoLater (a b : Note) : Bool := Number.orderKey a.start ≤ Number.orderKey b.start

structure Performance where
  /-- The notes by their start, in quarter notes. -/
  events : List Note
  advisories : List Advisory

structure Performer where
  signature : Signature
  settings : Settings

namespace Performer

def make (timing : Timing) (settings : Settings) : Except Error Performer := do
  return ⟨← timing.resolve, settings⟩

def step (p : Performer) (s : State) (element : Located Element) : Except Error State :=
  let perBar := p.signature.beatsPerBar
  let position := element.position
  match element.value with
  | .pitch pitch => .ok (s.addPitch pitch position)
  | .velocity v => .ok (s.change (.velocity v.toFloat 0.0) position)
  | .velocityRange low high =>
    .ok (s.change (.velocity low.toFloat (high - low).toFloat) position)
  | .duration length => .ok (s.change (.duration (length.inBeats perBar)) position)
  | .probability x => .ok (s.change (.probability x) position)
  | .position bar beat => s.place perBar p.settings.repeatLimit bar beat position
  | .copy destination source => s.copy perBar destination source position
  | .clear => .ok (s.clear position)

def inQuarters (p : Performer) (n : Note) : Note :=
  { n with
    start := p.signature.toQuarters n.start
    duration := p.signature.toQuarters n.duration }

def arrange (p : Performer) (events : List Note) : List Note :=
  (applyDeletions p.settings.deletionWindow (events.map p.inQuarters)).mergeSort startsNoLater

def perform (p : Performer) (elements : Elements) : Except Error Performance := do
  let s ← elements.foldlM p.step State.initial
  let s := s.finish
  return ⟨p.arrange s.events.toList, s.advisories.toList⟩

def run (p : Performer) (text : List Char) : Except Error Performance := do
  p.perform (← parse text)

end Performer

end Barline.Score
