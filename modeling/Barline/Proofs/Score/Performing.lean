import Mathlib
import Barline.Score.Performer

/-!
# Performing parts of a score

What a performer does with the elements that engraved chords are made of, told by the state that it
is left in: the parameters, the bar, the pitches at hand and the notes that were placed.
-/

namespace Barline.Score

namespace State

variable (s : State) (position : Position)

@[simp] lemma advise_parameters (remark : Remark) :
    (s.advise remark position).parameters = s.parameters := rfl

@[simp] lemma advise_bar (remark : Remark) : (s.advise remark position).bar = s.bar := rfl

@[simp] lemma advise_buffer (remark : Remark) : (s.advise remark position).buffer = s.buffer := rfl

@[simp] lemma advise_events (remark : Remark) : (s.advise remark position).events = s.events := rfl

@[simp] lemma advise_history (remark : Remark) :
    (s.advise remark position).history = s.history := rfl

@[simp] lemma supersede_parameters (p : Parameter) :
    (s.supersede p position).parameters = s.parameters := by
  unfold supersede
  cases s.unplaced.get p <;> rfl

@[simp] lemma supersede_bar (p : Parameter) : (s.supersede p position).bar = s.bar := by
  unfold supersede
  cases s.unplaced.get p <;> rfl

@[simp] lemma supersede_buffer (p : Parameter) : (s.supersede p position).buffer = s.buffer := by
  unfold supersede
  cases s.unplaced.get p <;> rfl

@[simp] lemma supersede_events (p : Parameter) : (s.supersede p position).events = s.events := by
  unfold supersede
  cases s.unplaced.get p <;> rfl

@[simp] lemma supersede_history (p : Parameter) : (s.supersede p position).history = s.history := by
  unfold supersede
  cases s.unplaced.get p <;> rfl

/-- A change of a parameter reaches the parameters and the pitches at hand, and nothing else. -/
lemma change_eq (c : Change) :
    (s.change c position).parameters = c.apply s.parameters ∧
      (s.change c position).bar = s.bar ∧ (s.change c position).events = s.events ∧
      (s.change c position).history = s.history := by
  unfold change
  dsimp only
  split <;> simp

@[simp] lemma emit_parameters (perBar : Float) (note : Note) :
    (emit perBar s note).parameters = s.parameters := rfl

@[simp] lemma emit_bar (perBar : Float) (note : Note) : (emit perBar s note).bar = s.bar := rfl

@[simp] lemma emit_buffer (perBar : Float) (note : Note) :
    (emit perBar s note).buffer = s.buffer := rfl

@[simp] lemma emit_events (perBar : Float) (note : Note) :
    (emit perBar s note).events.toList = s.events.toList ++ [note] := by simp [emit]

lemma foldl_emit (perBar : Float) (notes : List Note) :
    (notes.foldl (emit perBar) s).parameters = s.parameters ∧
      (notes.foldl (emit perBar) s).bar = s.bar ∧
      (notes.foldl (emit perBar) s).buffer = s.buffer ∧
      (notes.foldl (emit perBar) s).events.toList = s.events.toList ++ notes := by
  induction notes generalizing s with
  | nil => simp
  | cons note notes ih =>
    obtain ⟨h1, h2, h3, h4⟩ := ih (emit perBar s note)
    exact ⟨h1, h2, h3, by rw [List.foldl_cons, h4]; simp⟩

end State

/-- The change that an element makes, if it is one of a parameter. -/
def Element.change? (perBar : Float) : Element → Option Change
  | .velocity v => some (.velocity v.toFloat 0.0)
  | .velocityRange low high => some (.velocity low.toFloat (high - low).toFloat)
  | .duration length => some (.duration (length.inBeats perBar))
  | .probability x => some (.probability x)
  | _ => none

lemma step_change {p : Performer} {s : State} {e : Element} {c : Change}
    (h : e.change? p.signature.beatsPerBar = some c) (position : Position) :
    p.step s ⟨e, position⟩ = .ok (s.change c position) := by
  cases e <;> cases h <;> rfl

/-- Between two chords no pitch waits for its place. -/
structure Follows (P : Parameters) (bar : Option UInt32) (events : List Note) (s : State) :
    Prop where
  parameters : s.parameters = P
  bar : s.bar = bar
  free : ∀ pitches began, s.buffer ≠ .collecting pitches began
  events : s.events.toList = events

/-- Within a chord the pitches wait with the parameters that hold. -/
structure Gathers (P : Parameters) (bar : Option UInt32) (events : List Note)
    (pitches : List UInt8) (s : State) : Prop where
  parameters : s.parameters = P
  bar : s.bar = bar
  buffer : ∃ began, s.buffer = .collecting (pitches.map (⟨·, P⟩)) began
  events : s.events.toList = events

section

variable {P : Parameters} {bar : Option UInt32} {events : List Note} {s : State}

lemma follows_initial : Follows .usual none [] .initial := ⟨rfl, rfl, by simp [State.initial], rfl⟩

lemma Follows.change (h : Follows P bar events s) (c : Change) (position : Position) :
    Follows (c.apply P) bar events (s.change c position) := by
  obtain ⟨h1, h2, h3, -⟩ := s.change_eq position c
  refine ⟨by rw [h1, h.parameters], by rw [h2, h.bar], ?_, by rw [h3, h.events]⟩
  have hfree := h.free
  unfold State.change
  dsimp only
  cases hb : s.buffer with
  | collecting pitches began => exact (hfree pitches began hb).elim
  | idle _ => simp
  | placed _ _ => simp

lemma Follows.addPitch (h : Follows P bar events s) (pitch : UInt8) (position : Position) :
    Gathers P bar events [pitch] (s.addPitch pitch position) := by
  have hfree := h.free
  unfold State.addPitch
  dsimp only
  cases hb : s.buffer with
  | collecting pitches began => exact (hfree pitches began hb).elim
  | idle _ => exact ⟨h.parameters, h.bar, ⟨position, by simp [h.parameters]⟩, h.events⟩
  | placed _ _ => exact ⟨h.parameters, h.bar, ⟨position, by simp [h.parameters]⟩, h.events⟩

lemma Gathers.addPitch {pitches : List UInt8} (h : Gathers P bar events pitches s) (pitch : UInt8)
    (position : Position) :
    Gathers P bar events (pitches ++ [pitch]) (s.addPitch pitch position) := by
  obtain ⟨began, hb⟩ := h.buffer
  unfold State.addPitch
  dsimp only
  rw [hb]
  exact ⟨h.parameters, h.bar, ⟨began, by simp [h.parameters]⟩, h.events⟩

/-- The notes of a chord. -/
def chordNotes (P : Parameters) (start : Float) (pitches : List UInt8) : List Note :=
  pitches.map fun pitch =>
    { pitch := pitch
      start := start
      duration := P.duration
      velocity := P.velocity
      probability := P.probability
      deviation := P.deviation }

/-- A place sets the pitches down, unless it lies past the last bar. -/
lemma Gathers.place {pitches : List UInt8} (h : Gathers P bar events pitches s) (perBar : Float)
    (repeatLimit : ℕ) {place : Option UInt32} {next : UInt32} (hnext : (place <|> bar) = some next)
    (beat : Float) (position : Position) :
    if Meter.inRange (Meter.beatsAt next beat perBar) perBar then
      ∃ s', s.place perBar repeatLimit place (.single beat) position = .ok s' ∧
        Follows P (some next)
          (events ++ chordNotes P (Meter.beatsAt next beat perBar) pitches) s'
    else ∃ e, s.place perBar repeatLimit place (.single beat) position = .error e := by
  obtain ⟨began, hb⟩ := h.buffer
  unfold State.place
  dsimp only
  unfold State.placeAll
  rw [hb]
  dsimp only
  rw [List.foldlM_cons]
  unfold State.placeAt
  dsimp only
  rw [h.bar, hnext, Option.getD_some]
  split_ifs with hrange
  · refine ⟨_, rfl, ?_, ?_, by simp, ?_⟩
    · exact (State.foldl_emit _ perBar _).1.trans h.parameters
    · exact (State.foldl_emit _ perBar _).2.1
    · refine (State.foldl_emit _ perBar _).2.2.2.trans ?_
      simp [h.events, chordNotes, Pending.note]
  · exact ⟨_, rfl⟩

end

/-- Reads and performs a text under what is said about the meter. -/
def compile (timing : Timing) (settings : Settings) (text : List Char) :
    Except Error Performance := do
  (← Performer.make timing settings).run text

lemma compile_of_resolve {timing : Timing} {signature : Signature}
    (h : timing.resolve = .ok signature)
    (settings : Settings) (text : List Char) :
    compile timing settings text = Performer.run ⟨signature, settings⟩ text := by
  unfold compile Performer.make
  rw [h]
  rfl

lemma run_of_parse {p : Performer} {text : List Char} {elements : Elements}
    (h : parse text = .ok elements) : p.run text = p.perform elements := by
  unfold Performer.run
  rw [h]
  rfl

lemma run_of_parse_error {p : Performer} {text : List Char} {e : Error}
    (h : parse text = .error e) : p.run text = .error e := by
  unfold Performer.run
  rw [h]
  rfl

lemma finish_events (s : State) : s.finish.events = s.events := by
  unfold State.finish
  split <;> rfl

lemma perform_of_foldlM {p : Performer} {elements : Elements} {s : State}
    (h : elements.foldlM p.step .initial = .ok s) :
    ∃ performance, p.perform elements = .ok performance ∧
      performance.events = p.arrange s.events.toList := by
  unfold Performer.perform
  rw [h]
  exact ⟨_, rfl, by rw [finish_events]⟩

lemma perform_of_foldlM_error {p : Performer} {elements : Elements} {e : Error}
    (h : elements.foldlM p.step .initial = .error e) : p.perform elements = .error e := by
  unfold Performer.perform
  rw [h]
  rfl

lemma run_eq_ok {p : Performer} {text : List Char} {performance : Performance}
    (h : p.run text = .ok performance) :
    ∃ elements s, parse text = .ok elements ∧ elements.foldlM p.step .initial = .ok s ∧
      performance.events = p.arrange s.events.toList := by
  cases hparse : parse text with
  | error e =>
    rw [run_of_parse_error hparse] at h
    cases h
  | ok elements =>
    rw [run_of_parse hparse] at h
    cases hs : elements.foldlM p.step .initial with
    | error e =>
      rw [perform_of_foldlM_error hs] at h
      cases h
    | ok s =>
      obtain ⟨performance', hperform, hevents⟩ := perform_of_foldlM hs
      obtain rfl : performance' = performance := Except.ok.inj (hperform.symm.trans h)
      exact ⟨elements, s, rfl, hs, hevents⟩

lemma compile_eq_ok {timing : Timing} {settings : Settings} {text : List Char}
    {performance : Performance} (h : compile timing settings text = .ok performance) :
    ∃ signature, timing.resolve = .ok signature ∧
      Performer.run ⟨signature, settings⟩ text = .ok performance := by
  cases hsignature : timing.resolve with
  | error e =>
    unfold compile Performer.make at h
    rw [hsignature] at h
    cases h
  | ok signature =>
    rw [compile_of_resolve hsignature] at h
    exact ⟨signature, rfl, h⟩

lemma exists_performance {α : Type} {outcome : Except Error Performance} {f : Performance → α}
    {a : α} (h : outcome.toOption.map f = some a) :
    ∃ performance, outcome = .ok performance ∧ f performance = a := by
  cases outcome with
  | error e => cases h
  | ok performance => exact ⟨performance, rfl, Option.some.inj h⟩

end Barline.Score
