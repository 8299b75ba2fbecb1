import Barline.Modulation.Pass
import Barline.Score.Engraving
import Barline.Score.Performer

/-!
# Sessions

A session is one list of notes that is worked on step by step: scores replace or extend it, programs
modulate it, and it is engraved again. A step that fails leaves the notes as they are.
-/

namespace Barline

open Barline.Random (Source)

inductive Session.Step where
  | timing (timing : Timing)
  | settings (settings : Settings)
  /-- Performs a score in place of the notes. -/
  | compile (text : List Char)
  | append (text : List Char)
  | modulate (text : List Char)
  | engrave
  /-- Performs the engraved notes in their own place, with the usual settings. -/
  | reload

inductive Session.Answer where
  | done
  | meter (signature : Signature)
  | advisories (advisories : List Score.Advisory)
  | outcome (outcome : Modulation.Outcome)
  | score (text : List Char)

structure Session (σ : Type) where
  notes : List Note
  timing : Timing
  settings : Settings
  source : σ

namespace Session

variable {σ : Type}

def perform (s : Session σ) (settings : Settings) (text : List Char) :
    Except Error Score.Performance := do
  (← Score.Performer.make s.timing settings).run text

variable [Source σ]

def attempt (s : Session σ) : Step → Except Error (Answer × Session σ)
  | .timing _ => return (.meter (← s.timing.resolve), s)
  | .settings settings => return (.done, { s with settings })
  | .compile text => do
    let p ← s.perform s.settings text
    return (.advisories p.advisories, { s with notes := p.events })
  | .append text => do
    let p ← s.perform s.settings text
    return (.advisories p.advisories, { s with notes := s.notes ++ p.events })
  | .modulate text => do
    let signature ← s.timing.resolve
    let ((notes, outcome), source) :=
      (Modulation.modulate text signature.numerator signature.denominator s.notes).run s.source
    return (.outcome outcome, { s with notes, source })
  | .engrave => return (.score (← Score.engrave s.notes s.timing), s)
  | .reload => do
    let text ← Score.engrave s.notes s.timing
    let p ← s.perform .usual text
    return (.score text, { s with notes := p.events })

/-- Carries out one step. What was said about the meter stays said even if it makes no sense. -/
def step (s : Session σ) (step : Step) : Except Error Answer × Session σ :=
  let s := match step with
    | .timing timing => { s with timing }
    | _ => s
  match s.attempt step with
  | .ok (answer, s) => (.ok answer, s)
  | .error e => (.error e, s)

end Session

end Barline
