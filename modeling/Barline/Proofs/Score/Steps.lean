import Barline.Proofs.Score.Additive

/-!
# What each element does

A state is told by its parameters, the pitches at hand, the notes placed so far and the history of
them. Every element changes these in one of five ways, and a run is a sequence of such steps.
-/

namespace Barline.Score

/-- The pitches at hand. -/
def Buffer.pitches : Buffer → List Pending
  | .idle _ => []
  | .collecting pitches _ => pitches
  | .placed pitches _ => pitches

/-- What an element can do to a state. -/
inductive Performer.Steps (p : Performer) (s : State) (e : Located Element) : State → Prop
  | pitch {pitch : UInt8} (h : e.value = .pitch pitch) : Steps p s e (s.addPitch pitch e.position)
  | change {c : Change} (h : e.value.change? p.signature.beatsPerBar = some c) :
    Steps p s e (s.change c e.position)
  | position {bar : Option UInt32} {beat : Beat} {s' : State} (h : e.value = .position bar beat)
    (hs : s.place p.signature.beatsPerBar p.settings.repeatLimit bar beat e.position = .ok s') :
    Steps p s e s'
  | copy {destination : Bars} {source : Source} {pairs : List (UInt32 × UInt32)}
    (h : e.value = .copy destination source)
    (hpairs : copyPairs destination source e.position = .ok pairs) :
    Steps p s e (pairs.foldl (State.copyBar p.signature.beatsPerBar e.position)
      (s.dropPitches e.position))
  | clear (h : e.value = .clear) : Steps p s e (s.clear e.position)

lemma step_copy (p : Performer) (s : State) {destination : Bars} {source : Source}
    {position : Position} {pairs : List (UInt32 × UInt32)}
    (h : copyPairs destination source position = .ok pairs) :
    p.step s ⟨.copy destination source, position⟩ =
      .ok (pairs.foldl (State.copyBar p.signature.beatsPerBar position)
        (s.dropPitches position)) := by
  change s.copy _ destination source position = _
  unfold State.copy
  rw [h]
  rfl

/-- Every step that succeeds is one of the five. -/
theorem steps_of_step {p : Performer} {s s' : State} {e : Located Element}
    (h : p.step s e = .ok s') : p.Steps s e s' := by
  obtain ⟨value, position⟩ := e
  cases value with
  | pitch pitch => exact Except.ok.inj h ▸ .pitch rfl
  | velocity v => exact Except.ok.inj h ▸ .change rfl
  | velocityRange low high => exact Except.ok.inj h ▸ .change rfl
  | duration length => exact Except.ok.inj h ▸ .change rfl
  | probability x => exact Except.ok.inj h ▸ .change rfl
  | position bar beat => exact .position rfl h
  | clear => exact Except.ok.inj h ▸ .clear rfl
  | copy destination source =>
    cases hpairs : copyPairs destination source position with
    | ok pairs =>
      rw [step_copy p s hpairs] at h
      exact Except.ok.inj h ▸ .copy rfl hpairs
    | error error =>
      change s.copy _ destination source position = _ at h
      unfold State.copy at h
      rw [hpairs] at h
      cases h

/-- What holds before the first element and is kept by every step holds after every run. -/
theorem run_induction {p : Performer} {motive : Elements → State → Prop}
    (start : motive [] .initial)
    (step : ∀ elements s e s', motive elements s → p.step s e = .ok s' →
      motive (elements ++ [e]) s')
    {elements : Elements} {s : State} (h : elements.foldlM p.step .initial = .ok s) :
    motive elements s := by
  induction elements using List.reverseRecOn generalizing s with
  | nil => exact Except.ok.inj h ▸ start
  | append_singleton elements e ih =>
    rw [List.foldlM_append] at h
    cases hs : elements.foldlM p.step .initial with
    | error error =>
      rw [hs] at h
      cases h
    | ok s₁ =>
      rw [hs] at h
      have hstep : p.step s₁ e = .ok s := by
        change (p.step s₁ e >>= pure) = _ at h
        rwa [bind_pure] at h
      exact step elements s₁ e s (ih hs) hstep

lemma run_split {p : Performer} {before after : Elements} {e : Located Element} {s₀ s : State}
    (h : (before ++ e :: after).foldlM p.step s₀ = .ok s) :
    ∃ s₁ s₂, before.foldlM p.step s₀ = .ok s₁ ∧ p.step s₁ e = .ok s₂ ∧
      after.foldlM p.step s₂ = .ok s := by
  rw [List.foldlM_append] at h
  cases h₁ : before.foldlM p.step s₀ with
  | error error =>
    rw [h₁] at h
    cases h
  | ok s₁ =>
    rw [h₁] at h
    change (e :: after).foldlM p.step s₁ = .ok s at h
    rw [List.foldlM_cons] at h
    cases h₂ : p.step s₁ e with
    | error error =>
      rw [h₂] at h
      cases h
    | ok s₂ =>
      rw [h₂] at h
      exact ⟨s₁, s₂, rfl, h₂, h⟩

/-- A state that goes on from another with more notes, which the history records. -/
structure State.Extends (perBar : Float) (s : State) (notes : List Note) (s' : State) : Prop where
  events : s'.events.toList = s.events.toList ++ notes
  history : s'.history = recordAll perBar s.history notes

section

variable {perBar : Float} {s s' s'' : State} {notes more : List Note}

lemma State.Extends.refl (perBar : Float) (s : State) : s.Extends perBar [] s := ⟨by simp, rfl⟩

lemma State.Extends.trans (h : s.Extends perBar notes s') (h' : s'.Extends perBar more s'') :
    s.Extends perBar (notes ++ more) s'' where
  events := by rw [h'.events, h.events, List.append_assoc]
  history := by rw [h'.history, h.history, recordAll, recordAll, recordAll, List.foldl_append]

lemma State.extends_emit (perBar : Float) (s : State) (notes : List Note) :
    s.Extends perBar notes (notes.foldl (State.emit perBar) s) :=
  ⟨(State.foldl_emit s perBar notes).2.2.2, foldl_emit_history s notes⟩

lemma State.extends_change (perBar : Float) (s : State) (c : Change) (position : Position) :
    s.Extends perBar [] (s.change c position) := by
  obtain ⟨-, -, hevents, hhistory⟩ := s.change_eq position c
  exact ⟨by rw [hevents, List.append_nil], by rw [hhistory]; rfl⟩

lemma State.extends_addPitch (perBar : Float) (s : State) (pitch : UInt8) (position : Position) :
    s.Extends perBar [] (s.addPitch pitch position) := by
  unfold State.addPitch
  dsimp only
  split <;> exact ⟨(List.append_nil _).symm, rfl⟩

lemma State.extends_dropPitches (perBar : Float) (s : State) (position : Position) :
    s.Extends perBar [] (s.dropPitches position) := by
  obtain ⟨hevents, hhistory⟩ := dropPitches_eq s position
  exact ⟨by rw [hevents, List.append_nil], by rw [hhistory]; rfl⟩

lemma State.extends_copyBar (perBar : Float) (position : Position) (s : State)
    (pair : UInt32 × UInt32) :
    s.Extends perBar (copied perBar s.history pair) (s.copyBar perBar position pair) :=
  ⟨(copyBar_eq perBar position s pair).1, (copyBar_eq perBar position s pair).2⟩

lemma State.extends_copyBars (perBar : Float) (position : Position) (s : State)
    (pairs : List (UInt32 × UInt32)) :
    ∃ notes, s.Extends perBar notes (pairs.foldl (State.copyBar perBar position) s) := by
  induction pairs generalizing s with
  | nil => exact ⟨[], .refl perBar s⟩
  | cons pair pairs ih =>
    obtain ⟨more, hmore⟩ := ih (s.copyBar perBar position pair)
    exact ⟨_, (s.extends_copyBar perBar position pair).trans hmore⟩

/-- The beats of a time position. A series without a step takes the current duration. -/
def State.beats (s : State) : Beat → List Float
  | .single beat => [beat]
  | .series first times step => seriesBeats first (step.getD s.parameters.duration) times

/-- Where the notes of a time position start, in beats. -/
def State.starts (perBar : Float) (s : State) (bar : Option UInt32) (beat : Beat) : List Float :=
  (s.beats beat).map fun b => Meter.beatsAt ((bar <|> s.bar).getD 1) b perBar

/-- The notes that a time position places. -/
def State.placed (perBar : Float) (s : State) (bar : Option UInt32) (beat : Beat) : List Note :=
  (s.starts perBar bar beat).flatMap fun start => s.buffer.pitches.map (·.note start)

lemma foldlM_placeAt {pitches : List Pending} {bar : UInt32} {position : Position}
    {beats : List Float}
    (h : beats.foldlM (State.placeAt perBar pitches bar position) s = .ok s') :
    s'.parameters = s.parameters ∧ s.Extends perBar
      ((beats.map fun b => Meter.beatsAt bar b perBar).flatMap fun start =>
        pitches.map (·.note start)) s' := by
  induction beats generalizing s with
  | nil => exact Except.ok.inj h ▸ ⟨rfl, .refl perBar s⟩
  | cons beat beats ih =>
    rw [List.foldlM_cons] at h
    unfold State.placeAt at h
    dsimp only at h
    split_ifs at h with hrange
    · obtain ⟨hparameters, hextends⟩ := ih h
      refine ⟨?_, (State.extends_emit perBar s _).trans hextends⟩
      exact hparameters.trans (State.foldl_emit s perBar _).1
    · cases h

/-- Where pitches are at hand they are placed at each of the beats, and else a remark is made. -/
lemma placeAll_cases {beats : List Float} {position : Position}
    (h : s.placeAll perBar beats position = .ok s') :
    (∃ unused, s.buffer = .idle unused ∧ s' = s.advise .nothingToPlace position) ∨
      ∃ s₁, beats.foldlM (State.placeAt perBar s.buffer.pitches (s.bar.getD 1) position) s =
          .ok s₁ ∧ (∀ unused, s.buffer ≠ .idle unused) ∧
        s' = { s₁ with buffer := .placed s.buffer.pitches none, unplaced := .settled } := by
  have hplace {pitches : List Pending} (h : (do
        let s ← beats.foldlM (State.placeAt perBar pitches (s.bar.getD 1) position) s
        return { s with buffer := .placed pitches none, unplaced := .settled } :
          Except Error State) = .ok s') :
      ∃ s₁, beats.foldlM (State.placeAt perBar pitches (s.bar.getD 1) position) s = .ok s₁ ∧
        s' = { s₁ with buffer := .placed pitches none, unplaced := .settled } := by
    cases hs : beats.foldlM (State.placeAt perBar pitches (s.bar.getD 1) position) s with
    | error error =>
      rw [hs] at h
      cases h
    | ok s₁ =>
      rw [hs] at h
      exact ⟨s₁, rfl, (Except.ok.inj h).symm⟩
  unfold State.placeAll at h
  cases hbuffer : s.buffer with
  | idle unused =>
    rw [hbuffer] at h
    exact .inl ⟨unused, rfl, (Except.ok.inj h).symm⟩
  | collecting pitches began =>
    rw [hbuffer] at h
    obtain ⟨s₁, hs₁, heq⟩ := hplace h
    exact .inr ⟨s₁, hs₁, nofun, heq⟩
  | placed pitches changed =>
    rw [hbuffer] at h
    obtain ⟨s₁, hs₁, heq⟩ := hplace h
    exact .inr ⟨s₁, hs₁, nofun, heq⟩

lemma placeAll_eq_ok {beats : List Float} {position : Position}
    (h : s.placeAll perBar beats position = .ok s') :
    s'.parameters = s.parameters ∧ s'.buffer.pitches = s.buffer.pitches ∧ s.Extends perBar
      ((beats.map fun b => Meter.beatsAt (s.bar.getD 1) b perBar).flatMap fun start =>
        s.buffer.pitches.map (·.note start)) s' := by
  obtain ⟨unused, hbuffer, rfl⟩ | ⟨s₁, hs₁, -, rfl⟩ := placeAll_cases h
  · have hnone : ((beats.map fun b => Meter.beatsAt (s.bar.getD 1) b perBar).flatMap fun start =>
        s.buffer.pitches.map (·.note start)) = [] := by simp [hbuffer, Buffer.pitches]
    rw [hnone]
    exact ⟨rfl, rfl, (List.append_nil _).symm, rfl⟩
  · obtain ⟨hparameters, hextends⟩ := foldlM_placeAt hs₁
    exact ⟨hparameters, rfl, hextends.events, hextends.history⟩

/-- A time position keeps the parameters and the pitches at hand, and adds the notes that they
make at its beats. -/
theorem place_eq_ok {repeatLimit : ℕ} {bar : Option UInt32} {beat : Beat} {position : Position}
    (h : s.place perBar repeatLimit bar beat position = .ok s') :
    s'.parameters = s.parameters ∧ s'.buffer.pitches = s.buffer.pitches ∧
      s.Extends perBar (s.placed perBar bar beat) s' := by
  unfold State.place at h
  cases beat with
  | single beat =>
    obtain ⟨hparameters, hpitches, hextends⟩ := placeAll_eq_ok h
    exact ⟨hparameters, hpitches, hextends.events, hextends.history⟩
  | series first times step =>
    dsimp only at h
    split_ifs at h with hzero hlimit
    · obtain ⟨hparameters, hpitches, hextends⟩ := placeAll_eq_ok h
      exact ⟨hparameters, hpitches, hextends.events, hextends.history⟩
    · obtain ⟨hparameters, hpitches, hextends⟩ := placeAll_eq_ok h
      exact ⟨hparameters, hpitches, hextends.events, hextends.history⟩

end

end Barline.Score
