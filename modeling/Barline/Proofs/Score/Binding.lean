import Barline.Proofs.Score.Steps

/-!
# Late binding

A pitch takes on what is said before its place, also what is said after the pitch itself. So what
a time position places carries what was said last of each parameter, whatever pitches, places,
copies and clears came in between.
-/

namespace Barline.Score

/-- The velocity and deviation that an element says. -/
def Element.velocity? : Element → Option (Float × Float)
  | .velocity v => some (v.toFloat, 0.0)
  | .velocityRange low high => some (low.toFloat, (high - low).toFloat)
  | _ => none

/-- The duration in beats that an element says. -/
def Element.duration? (perBar : Float) : Element → Option Float
  | .duration length => some (length.inBeats perBar)
  | _ => none

/-- The probability that an element says. -/
def Element.probability? : Element → Option Float
  | .probability x => some x
  | _ => none

/-- What the last of the elements that say something says, or else what is usual. -/
def lastSaid {α : Type} (tells : Element → Option α) (usual : α) (elements : Elements) : α :=
  (elements.filterMap fun e => tells e.value).getLast?.getD usual

/-- The parameters after a list of elements: what was said last of each. -/
def said (perBar : Float) (elements : Elements) : Parameters where
  velocity := (lastSaid Element.velocity? (Note.usualVelocity, 0.0) elements).1
  deviation := (lastSaid Element.velocity? (Note.usualVelocity, 0.0) elements).2
  duration := lastSaid (Element.duration? perBar) Note.usualDuration elements
  probability := lastSaid Element.probability? Note.usualProbability elements

lemma lastSaid_append {α : Type} (tells : Element → Option α) (usual : α) (elements : Elements)
    (e : Located Element) :
    lastSaid tells usual (elements ++ [e]) =
      (tells e.value).getD (lastSaid tells usual elements) := by
  unfold lastSaid
  rw [List.filterMap_append]
  cases h : tells e.value <;> simp [h]

lemma said_append (perBar : Float) (elements : Elements) (e : Located Element) :
    said perBar (elements ++ [e]) = match e.value.change? perBar with
      | some c => c.apply (said perBar elements)
      | none => said perBar elements := by
  unfold said
  rw [lastSaid_append, lastSaid_append, lastSaid_append]
  cases e.value <;> rfl

/-- The pitches at hand carry the parameters that hold. -/
def State.Bound (s : State) : Prop :=
  ∀ pending ∈ s.buffer.pitches, pending.parameters = s.parameters

section

variable {s : State}

lemma State.Bound.addPitch (h : s.Bound) (pitch : UInt8) (position : Position) :
    (s.addPitch pitch position).Bound := by
  unfold State.Bound State.addPitch at *
  dsimp only
  cases hbuffer : s.buffer with
  | idle unused => simp [Buffer.pitches]
  | placed pitches changed => simp [Buffer.pitches]
  | collecting pitches began =>
    rw [hbuffer] at h
    intro pending hpending
    rcases List.mem_append.mp hpending with hold | hnew
    · exact h pending hold
    · rw [List.mem_singleton.mp hnew]

lemma pitches_change (s : State) (c : Change) (position : Position) :
    (s.change c position).buffer.pitches = s.buffer.pitches.map (·.apply c) := by
  unfold State.change
  dsimp only
  rw [State.supersede_buffer]
  cases s.buffer <;> rfl

lemma State.Bound.change (h : s.Bound) (c : Change) (position : Position) :
    (s.change c position).Bound := by
  unfold State.Bound
  rw [pitches_change, (s.change_eq position c).1]
  intro pending hpending
  obtain ⟨before, hbefore, rfl⟩ := List.mem_map.mp hpending
  exact congrArg c.apply (h before hbefore)

lemma pitches_dropPitches (s : State) (position : Position) :
    (s.dropPitches position).buffer.pitches = [] := by
  unfold State.dropPitches
  cases hbuffer : s.buffer with
  | idle unused => rw [hbuffer]; rfl
  | collecting pitches began => rfl
  | placed pitches changed => rfl

lemma parameters_dropPitches (s : State) (position : Position) :
    (s.dropPitches position).parameters = s.parameters := by
  unfold State.dropPitches
  split <;> rfl

lemma copyBars_eq (perBar : Float) (position : Position) (s : State)
    (pairs : List (UInt32 × UInt32)) :
    (pairs.foldl (State.copyBar perBar position) s).parameters = s.parameters ∧
      (pairs.foldl (State.copyBar perBar position) s).buffer = s.buffer := by
  induction pairs generalizing s with
  | nil => exact ⟨rfl, rfl⟩
  | cons pair pairs ih =>
    obtain ⟨hparameters, hbuffer⟩ := ih (s.copyBar perBar position pair)
    have hone : (s.copyBar perBar position pair).parameters = s.parameters ∧
        (s.copyBar perBar position pair).buffer = s.buffer := by
      unfold State.copyBar
      dsimp only
      split_ifs
      · exact ⟨rfl, rfl⟩
      · exact ⟨rfl, rfl⟩
      · obtain ⟨hparameters, -, hbuffer, -⟩ := s.foldl_emit perBar
          ((s.history.notes pair.1).map fun n => { n with
            start := n.start + (Meter.barStart pair.2 perBar - Meter.barStart pair.1 perBar) })
        exact ⟨hparameters, hbuffer⟩
    exact ⟨hparameters.trans hone.1, hbuffer.trans hone.2⟩

end

/-- Every step keeps the pitches at hand bound, and follows what is said. -/
theorem step_bound {p : Performer} {elements : Elements} {s s' : State} {e : Located Element}
    (hbound : s.Bound) (hsaid : s.parameters = said p.signature.beatsPerBar elements)
    (h : p.step s e = .ok s') :
    s'.Bound ∧ s'.parameters = said p.signature.beatsPerBar (elements ++ [e]) := by
  rw [said_append]
  cases steps_of_step h with
  | pitch hvalue =>
    rw [hvalue]
    refine ⟨hbound.addPitch _ _, ?_⟩
    unfold State.addPitch
    dsimp only
    split <;> exact hsaid
  | change hvalue =>
    rw [hvalue]
    exact ⟨hbound.change _ _, by rw [(s.change_eq _ _).1, hsaid]⟩
  | position hvalue hs =>
    rw [hvalue]
    obtain ⟨hparameters, hpitches, -⟩ := place_eq_ok hs
    refine ⟨?_, hparameters.trans hsaid⟩
    unfold State.Bound
    rw [hpitches, hparameters]
    exact hbound
  | copy hvalue hpairs =>
    rw [hvalue]
    obtain ⟨hparameters, hbuffer⟩ := copyBars_eq p.signature.beatsPerBar e.position
      (s.dropPitches e.position) _
    refine ⟨?_, hparameters.trans ((parameters_dropPitches s _).trans hsaid)⟩
    unfold State.Bound
    rw [hbuffer, pitches_dropPitches]
    exact List.forall_mem_nil _
  | clear hvalue =>
    rw [hvalue]
    refine ⟨?_, (parameters_dropPitches s _).trans hsaid⟩
    have hnone : (s.clear e.position).buffer.pitches = [] := pitches_dropPitches s _
    unfold State.Bound
    rw [hnone]
    exact List.forall_mem_nil _

/-- After every run the pitches at hand are bound, and the parameters are those said last. -/
theorem run_bound {p : Performer} {elements : Elements} {s : State}
    (h : elements.foldlM p.step .initial = .ok s) :
    s.Bound ∧ s.parameters = said p.signature.beatsPerBar elements :=
  run_induction (motive := fun elements s =>
      s.Bound ∧ s.parameters = said p.signature.beatsPerBar elements)
    ⟨List.forall_mem_nil _, rfl⟩ (fun _ _ _ _ ih hstep => step_bound ih.1 ih.2 hstep) h

lemma State.Bound.placed_eq {s : State} (h : s.Bound) (perBar : Float) (bar : Option UInt32)
    (beat : Beat) :
    s.placed perBar bar beat = (s.starts perBar bar beat).flatMap fun start =>
      chordNotes s.parameters start (s.buffer.pitches.map (·.pitch)) := by
  unfold State.placed chordNotes
  congr 1
  funext start
  rw [List.map_map]
  refine List.map_congr_left fun pending hpending => ?_
  change pending.note start = Pending.note start ⟨pending.pitch, s.parameters⟩
  rw [← h pending hpending]

/-- **Late binding.** After every run the pitches at hand carry the parameters that hold. So each
time position of a run adds, for each of its beats, one note for each of the pitches at hand, with
the velocity, deviation, duration and probability that were said last before it, or else 100, 0, 1
and 1. -/
theorem late_binding {p : Performer} {elements : Elements} {s : State}
    (h : elements.foldlM p.step .initial = .ok s) :
    (∀ pending ∈ s.buffer.pitches, pending.parameters = s.parameters) ∧
      ∀ before bar beat position after,
        elements = before ++ ⟨.position bar beat, position⟩ :: after →
        ∃ s₁ s₂, before.foldlM p.step .initial = .ok s₁ ∧
          p.step s₁ ⟨.position bar beat, position⟩ = .ok s₂ ∧
          after.foldlM p.step s₂ = .ok s ∧
          s₂.events.toList = s₁.events.toList ++
            (s₁.starts p.signature.beatsPerBar bar beat).flatMap fun start =>
              s₁.buffer.pitches.map fun pending =>
                { pitch := pending.pitch
                  start := start
                  duration := lastSaid (Element.duration? p.signature.beatsPerBar) 1.0 before
                  velocity := (lastSaid Element.velocity? (100.0, 0.0) before).1
                  probability := lastSaid Element.probability? 1.0 before
                  deviation := (lastSaid Element.velocity? (100.0, 0.0) before).2 } := by
  refine ⟨(run_bound h).1, ?_⟩
  rintro before bar beat position after rfl
  obtain ⟨s₁, s₂, h₁, h₂, h₃⟩ := run_split h
  obtain ⟨hbound, hsaid⟩ := run_bound h₁
  refine ⟨s₁, s₂, h₁, h₂, h₃, ?_⟩
  obtain ⟨-, -, hextends⟩ := place_eq_ok (show s₁.place _ _ bar beat position = .ok s₂ from h₂)
  rw [hextends.events, hbound.placed_eq, hsaid]
  simp only [chordNotes, List.map_map]
  rfl

/-- A velocity that is said between a pitch and its place, and a duration said before a copy. -/
theorem late_binding_across_copy :
    let before : Elements := [⟨.duration (.beats 2.0), ⟨1, 1⟩⟩, ⟨.pitch 60, ⟨1, 4⟩⟩,
      ⟨.position none (.single 1.0), ⟨1, 8⟩⟩, ⟨.copy (.single 2) .previous, ⟨1, 10⟩⟩,
      ⟨.pitch 62, ⟨1, 13⟩⟩, ⟨.velocityRange 80 90, ⟨1, 16⟩⟩]
    let last : Located Element := ⟨.position (some 3) (.series 1.0 2 none), ⟨1, 23⟩⟩
    let p : Performer := ⟨.common, .usual⟩
    ∃ s s₁, (before ++ [last]).foldlM p.step .initial = .ok s ∧
      before.foldlM p.step .initial = .ok s₁ ∧
      s₁.events.toList = [⟨60, 0.0, 2.0, 100.0, 1.0, 0.0⟩, ⟨60, 4.0, 2.0, 100.0, 1.0, 0.0⟩] ∧
      s.events.toList = s₁.events.toList ++
        [⟨62, 8.0, 2.0, 80.0, 1.0, 10.0⟩, ⟨62, 10.0, 2.0, 80.0, 1.0, 10.0⟩] := by
  intro before last p
  have hrun : (before.foldlM p.step .initial).toOption.map (fun s =>
      (s.events.toList, s.buffer.pitches,
        s.starts p.signature.beatsPerBar (some 3) (.series 1.0 2 none))) =
      some ([⟨60, 0.0, 2.0, 100.0, 1.0, 0.0⟩, ⟨60, 4.0, 2.0, 100.0, 1.0, 0.0⟩],
        [⟨62, 80.0, 10.0, 2.0, 1.0⟩], [8.0, 10.0]) := by decide +kernel
  have hok : ((before ++ [last]).foldlM p.step .initial).isOk := by decide +kernel
  cases h : (before ++ [last]).foldlM p.step .initial with
  | error e => cases h ▸ hok
  | ok s =>
    obtain ⟨s₁, s₂, h₁, -, h₂, hevents⟩ := (late_binding h).2 before _ _ _ [] rfl
    rw [h₁] at hrun
    obtain ⟨hbefore, hpitches, hstarts⟩ : _ ∧ _ ∧ _ := by simpa [Except.toOption] using hrun
    rw [hstarts, hpitches, Except.ok.inj h₂] at hevents
    exact ⟨s, s₁, rfl, h₁, hbefore, hevents⟩

end Barline.Score
