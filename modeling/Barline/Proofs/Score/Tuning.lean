import Barline.Proofs.Score.Shorthand

/-!
# What the settings reach

The user's limit decides which series of beats are remarked on and the window decides which notes
are deleted at the end. A performer is compared with one that remarks on no series: what it leaves
behind is the same once the remarks on series are taken away.
-/

namespace Barline.Score

/-- A remark on a long series. -/
def Remark.isExcess : Remark → Bool
  | .excessiveRepeat .. => true
  | _ => false

/-- The remark that an element draws under a limit, if it is a series of more beats than that. -/
def excess? (limit : ℕ) (e : Located Element) : Option Advisory :=
  match e.value with
  | .position _ (.series _ times _) =>
    if limit < times.toNat then some ⟨.excessiveRepeat times limit, e.position⟩ else none
  | _ => none

/-- A state without its remarks on long series. -/
def State.muted (s : State) : State :=
  { s with advisories := s.advisories.filter fun a => !a.value.isExcess }

/-- A performance without its remarks on long series. -/
def Performance.muted (performance : Performance) : Performance :=
  { performance with advisories := performance.advisories.filter fun a => !a.value.isExcess }

/-- A performer whose limit no series exceeds. -/
def Performer.silent (p : Performer) : Performer :=
  { p with settings := { p.settings with repeatLimit := 2 ^ 32 } }

section

variable {p : Performer} {s s' : State} {e : Located Element} {elements : Elements}
  {perBar : Float} {position : Position} {remark : Remark}

lemma muted_advise (h : remark.isExcess = false) :
    (s.advise remark position).muted = s.muted.advise remark position := by
  simp [State.muted, State.advise, h]

lemma muted_advise_excess (h : remark.isExcess) : (s.advise remark position).muted = s.muted := by
  simp [State.muted, State.advise, h]

lemma muted_addPitch (pitch : UInt8) :
    (s.addPitch pitch position).muted = s.muted.addPitch pitch position := by
  obtain ⟨parameters, bar, buffer, unplaced, history, events, advisories⟩ := s
  cases buffer <;> rfl

lemma muted_supersede (q : Parameter) :
    (s.supersede q position).muted = s.muted.supersede q position := by
  have hunplaced : s.muted.unplaced.get q = s.unplaced.get q := rfl
  unfold State.supersede
  rw [hunplaced]
  cases s.unplaced.get q with
  | none => rfl
  | some superseded => simp [State.muted, State.advise, Remark.isExcess]

lemma muted_change (c : Change) : (s.change c position).muted = s.muted.change c position := by
  obtain ⟨parameters, bar, buffer, unplaced, history, events, advisories⟩ := s
  let t : State := ⟨c.apply parameters, bar, buffer, unplaced, history, events, advisories⟩
  have hsupersede : (t.supersede c.parameter position).muted =
      t.muted.supersede c.parameter position := muted_supersede c.parameter
  unfold State.change
  dsimp only
  rw [State.supersede_buffer, State.supersede_buffer]
  cases buffer with
  | idle unused =>
    exact congrArg (fun t : State => { t with buffer := .idle (some position) }) hsupersede
  | collecting pitches began =>
    exact congrArg (fun t : State =>
      { t with buffer := .collecting (pitches.map (Pending.apply c)) began }) hsupersede
  | placed pitches changed =>
    exact congrArg (fun t : State =>
      { t with buffer := .placed (pitches.map (Pending.apply c)) (some position) }) hsupersede

lemma muted_dropPitches : (s.dropPitches position).muted = s.muted.dropPitches position := by
  obtain ⟨parameters, bar, buffer, unplaced, history, events, advisories⟩ := s
  cases buffer with
  | idle unused => rfl
  | collecting pitches began => exact muted_advise rfl
  | placed pitches changed => rfl

lemma muted_copyBar (pair : UInt32 × UInt32) :
    (s.copyBar perBar position pair).muted = s.muted.copyBar perBar position pair := by
  unfold State.copyBar
  dsimp only
  change _ = ite _ _ (ite ((s.history.notes _).isEmpty) _ (List.foldl _ s.muted _))
  split_ifs
  · exact muted_advise rfl
  · exact muted_advise rfl
  · exact (foldl_emit_map (fun _ _ => rfl) s _).symm

lemma muted_copyBars (pairs : List (UInt32 × UInt32)) :
    (pairs.foldl (State.copyBar perBar position) s).muted =
      pairs.foldl (State.copyBar perBar position) s.muted := by
  induction pairs generalizing s with
  | nil => rfl
  | cons pair pairs ih => rw [List.foldl_cons, ih, muted_copyBar, List.foldl_cons]

lemma muted_placeAll (beats : List Float) :
    (s.placeAll perBar beats position).map State.muted =
      s.muted.placeAll perBar beats position := by
  by_cases h : ∀ unused, s.buffer ≠ .idle unused
  · exact (placeAll_map (fun _ _ => rfl) (fun _ _ => rfl) rfl rfl h).symm
  · obtain ⟨unused, hbuffer⟩ := by simpa using h
    have hmuted : s.muted.buffer = .idle unused := hbuffer
    unfold State.placeAll
    rw [hbuffer, hmuted]
    exact congrArg Except.ok (muted_advise rfl)

lemma muted_place (limit : ℕ) (bar : Option UInt32) (beat : Beat) :
    (s.place perBar limit bar beat position).map State.muted =
      s.muted.place perBar (2 ^ 32) bar beat position := by
  unfold State.place
  cases beat with
  | single beat => exact muted_placeAll _
  | series first times step =>
    have htimes : ¬ 2 ^ 32 < times.toNat := by
      have := times.toNat_lt
      omega
    let t : State := { s with bar := bar <|> s.bar }
    have hparameters : s.muted.parameters = s.parameters := rfl
    dsimp only
    rw [hparameters, if_neg htimes]
    split_ifs
    · rfl
    · have hadvise : (t.advise (.excessiveRepeat times limit) position).muted = t.muted :=
        muted_advise_excess rfl
      refine (muted_placeAll _).trans ?_
      rw [hadvise]
      rfl
    · exact muted_placeAll _

theorem muted_step : (p.step s e).map State.muted = p.silent.step s.muted e := by
  obtain ⟨value, position⟩ := e
  cases value with
  | pitch pitch => exact congrArg Except.ok (muted_addPitch pitch)
  | velocity v => exact congrArg Except.ok (muted_change _)
  | velocityRange low high => exact congrArg Except.ok (muted_change _)
  | duration length => exact congrArg Except.ok (muted_change _)
  | probability x => exact congrArg Except.ok (muted_change _)
  | position bar beat => exact muted_place _ bar beat
  | copy destination source =>
    cases hpairs : copyPairs destination source position with
    | error e => rw [step_copy_error p s hpairs, step_copy_error p.silent _ hpairs]; rfl
    | ok pairs =>
      rw [step_copy p s hpairs, step_copy p.silent _ hpairs, ← muted_dropPitches]
      exact congrArg Except.ok (muted_copyBars pairs)
  | clear =>
    have hclear : (s.clear position).muted = s.muted.clear position := by
      unfold State.clear
      rw [← muted_dropPitches]
      rfl
    exact congrArg Except.ok hclear

theorem muted_run : (elements.foldlM p.step s).map State.muted =
    elements.foldlM p.silent.step s.muted := by
  induction elements generalizing s with
  | nil => rfl
  | cons e elements ih =>
    rw [List.foldlM_cons, List.foldlM_cons, ← muted_step]
    cases p.step s e with
    | error error => rfl
    | ok s₁ => exact ih

lemma muted_finish : s.finish.muted = s.muted.finish := by
  obtain ⟨parameters, bar, buffer, unplaced, history, events, advisories⟩ := s
  rcases buffer with (_ | unused) | ⟨pitches, began⟩ | ⟨pitches, _ | changed⟩
  · rfl
  · exact muted_advise rfl
  · exact muted_advise rfl
  · rfl
  · exact muted_advise rfl

/-- Without the remarks on series, a performance is that of the silent performer. -/
theorem muted_perform : (p.perform elements).map Performance.muted = p.silent.perform elements := by
  have hrun : (elements.foldlM p.step .initial).map State.muted =
      elements.foldlM p.silent.step .initial := muted_run
  unfold Performer.perform
  rw [← hrun]
  cases elements.foldlM p.step .initial with
  | error error => rfl
  | ok s =>
    change Except.ok (Performance.muted ⟨p.arrange s.finish.events.toList, _⟩) =
      Except.ok ⟨p.arrange s.muted.finish.events.toList, s.muted.finish.advisories.toList⟩
    rw [← muted_finish]
    simp [Performance.muted, State.muted]

/-- The remarks on long series. -/
def State.excesses (s : State) : List Advisory := s.advisories.toList.filter (·.value.isExcess)

lemma excesses_advise (h : remark.isExcess = false) :
    (s.advise remark position).excesses = s.excesses := by
  simp [State.excesses, State.advise, h]

lemma excesses_foldl_emit (notes : List Note) :
    (notes.foldl (State.emit perBar) s).excesses = s.excesses := by
  have hemit : _ = { notes.foldl (State.emit perBar) s with advisories := s.advisories } :=
    foldl_emit_map (f := fun t => { t with advisories := s.advisories }) (fun _ _ => rfl) s notes
  exact (congrArg State.excesses hemit).trans rfl

lemma excesses_copyBars (pairs : List (UInt32 × UInt32)) :
    (pairs.foldl (State.copyBar perBar position) s).excesses = s.excesses := by
  induction pairs generalizing s with
  | nil => rfl
  | cons pair pairs ih =>
    refine ih.trans ?_
    unfold State.copyBar
    dsimp only
    split_ifs
    · exact excesses_advise rfl
    · exact excesses_advise rfl
    · exact excesses_foldl_emit _

lemma excesses_placeAll {beats : List Float} (h : s.placeAll perBar beats position = .ok s') :
    s'.excesses = s.excesses := by
  obtain ⟨unused, hbuffer, rfl⟩ | ⟨s₁, hs₁, -, rfl⟩ := placeAll_cases h
  · exact excesses_advise rfl
  · have hmap : beats.foldlM (State.placeAt perBar s.buffer.pitches (s.bar.getD 1) position) s =
        _ :=
      foldlM_placeAt_map (f := fun t => { t with advisories := s.advisories }) (fun _ _ => rfl) s
    rw [hs₁] at hmap
    exact (congrArg State.excesses (Except.ok.inj hmap)).trans rfl

lemma excesses_place {limit : ℕ} {bar : Option UInt32} {beat : Beat}
    (h : s.place perBar limit bar beat position = .ok s') :
    s'.excesses = s.excesses ++ (excess? limit ⟨.position bar beat, position⟩).toList := by
  unfold State.place at h
  cases beat with
  | single beat =>
    rw [excesses_placeAll h]
    exact (List.append_nil _).symm
  | series first times step =>
    dsimp only at h
    unfold excess?
    dsimp only
    split_ifs at h ⊢ with hzero hlimit
    · rw [excesses_placeAll h]
      simp [State.excesses, State.advise, Remark.isExcess]
    · rw [excesses_placeAll h]
      exact (List.append_nil _).symm

lemma excesses_dropPitches : (s.dropPitches position).excesses = s.excesses := by
  unfold State.dropPitches
  cases hbuffer : s.buffer with
  | idle unused => rfl
  | collecting pitches began => exact excesses_advise rfl
  | placed pitches changed => rfl

/-- Of the elements only a series beyond the limit draws such a remark, and it draws one. -/
theorem excesses_step (h : p.step s e = .ok s') :
    s'.excesses = s.excesses ++ (excess? p.settings.repeatLimit e).toList := by
  obtain ⟨value, position⟩ := e
  cases steps_of_step h with
  | pitch hvalue =>
    cases hvalue
    obtain ⟨pitches, began, -, heq⟩ := s.addPitch_eq _ position
    rw [heq]
    exact (List.append_nil _).symm
  | change hvalue =>
    have hnone : excess? p.settings.repeatLimit ⟨value, position⟩ = none := by
      cases value <;> cases hvalue <;> rfl
    rw [hnone]
    unfold State.excesses
    rw [State.change_advisories]
    simp [List.filter_append, List.filter_map, Function.comp_def, Remark.isExcess]
  | position hvalue hplace =>
    cases hvalue
    exact excesses_place hplace
  | copy hvalue hpairs =>
    cases hvalue
    rw [excesses_copyBars, excesses_dropPitches]
    exact (List.append_nil _).symm
  | clear hvalue =>
    cases hvalue
    exact excesses_dropPitches.trans (List.append_nil _).symm

/-- A run remarks on every series beyond the limit once, in the order they are written. -/
theorem excesses_run (h : elements.foldlM p.step s = .ok s') :
    s'.excesses = s.excesses ++ elements.filterMap (excess? p.settings.repeatLimit) := by
  induction elements generalizing s with
  | nil =>
    cases h
    exact (List.append_nil _).symm
  | cons e elements ih =>
    rw [List.foldlM_cons] at h
    cases hstep : p.step s e with
    | error error =>
      rw [hstep] at h
      cases h
    | ok s₁ =>
      rw [hstep] at h
      rw [ih h, excesses_step hstep, List.append_assoc]
      cases hexcess : excess? p.settings.repeatLimit e <;> simp [hexcess]

lemma excesses_finish : s.finish.excesses = s.excesses := by
  unfold State.excesses
  rw [State.finish_advisories]
  cases s.buffer with
  | collecting pitches began => simp [Remark.isExcess]
  | idle unused => cases unused <;> simp [Buffer.changed, Remark.isExcess]
  | placed pitches changed => cases changed <;> simp [Buffer.changed, Remark.isExcess]

end

/-- Of what a performer is made of, a step looks at the signature and the limit. -/
lemma step_congr {p q : Performer} (hsignature : p.signature = q.signature)
    (hlimit : p.settings.repeatLimit = q.settings.repeatLimit) : p.step = q.step := by
  funext s e
  unfold Performer.step
  rw [hsignature, hlimit]

lemma advisories_perform (p : Performer) (elements : Elements) :
    (p.perform elements).map (·.advisories) =
      (elements.foldlM p.step .initial).map (·.finish.advisories.toList) := by
  unfold Performer.perform
  cases elements.foldlM p.step .initial with
  | error e => rfl
  | ok s => rfl

lemma excesses_perform {p : Performer} {elements : Elements} {performance : Performance}
    (h : p.perform elements = .ok performance) :
    performance.advisories.filter (·.value.isExcess) =
      elements.filterMap (excess? p.settings.repeatLimit) := by
  have hrun := advisories_perform p elements
  rw [h] at hrun
  cases hs : elements.foldlM p.step .initial with
  | error e =>
    rw [hs] at hrun
    cases hrun
  | ok s =>
    rw [hs] at hrun
    have hadvisories : performance.advisories = s.finish.advisories.toList := Except.ok.inj hrun
    rw [hadvisories]
    exact excesses_finish.trans (excesses_run hs)

/-- A text that cannot be performed fails with the same error under all settings, and else the
settings reach what is performed of its elements. -/
lemma compile_cases (timing : Timing) (text : List Char) :
    (∃ e, ∀ settings, compile timing settings text = .error e) ∨
      ∃ signature elements, parse text = .ok elements ∧
        ∀ settings, compile timing settings text =
          Performer.perform ⟨signature, settings⟩ elements := by
  cases hsignature : timing.resolve with
  | error e =>
    refine .inl ⟨e, fun settings => ?_⟩
    unfold compile Performer.make
    rw [hsignature]
    rfl
  | ok signature =>
    cases hparse : parse text with
    | error e =>
      refine .inl ⟨e, fun settings => ?_⟩
      rw [compile_of_resolve hsignature]
      exact run_of_parse_error hparse
    | ok elements =>
      refine .inr ⟨signature, elements, rfl, fun settings => ?_⟩
      rw [compile_of_resolve hsignature]
      exact run_of_parse hparse

/-- **The reach of the settings.** Two limits lead to the same error, or to the same notes and
advisories but for the remarks on long series, of which there is one for each series beyond the
limit. Two windows lead to the same error or the same advisories. -/
theorem compile_settings (timing : Timing) (text : List Char) (limit limit' : ℕ)
    (window window' : Float) :
    (compile timing ⟨limit, window⟩ text).map Performance.muted =
        (compile timing ⟨limit', window⟩ text).map Performance.muted ∧
      (∀ performance, compile timing ⟨limit, window⟩ text = .ok performance →
        ∃ elements, parse text = .ok elements ∧
          performance.advisories.filter (·.value.isExcess) = elements.filterMap (excess? limit)) ∧
      (compile timing ⟨limit, window⟩ text).map (·.advisories) =
        (compile timing ⟨limit, window'⟩ text).map (·.advisories) := by
  obtain ⟨e, he⟩ | ⟨signature, elements, hparse, hperform⟩ := compile_cases timing text
  · refine ⟨?_, ?_, ?_⟩
    · rw [he, he]
    · intro performance h
      rw [he] at h
      cases h
    · rw [he, he]
  · refine ⟨?_, ?_, ?_⟩
    · rw [hperform, hperform, muted_perform, muted_perform]
      rfl
    · intro performance h
      rw [hperform] at h
      exact ⟨elements, hparse, excesses_perform h⟩
    · rw [hperform, hperform, advisories_perform, advisories_perform,
        step_congr (p := ⟨signature, limit, window⟩) (q := ⟨signature, limit, window'⟩) rfl rfl]

/-- Three beats where the limit is two, and where it is three. -/
theorem compile_settings_three :
    ∃ performance, compile .unstated ⟨2, 0.001⟩ "C3 1|1x3@0.5 @3=2".toList = .ok performance ∧
      performance.advisories = [⟨.excessiveRepeat 3 2, ⟨1, 6⟩⟩, ⟨.emptySource 2, ⟨1, 14⟩⟩] ∧
      (compile .unstated ⟨3, 0.001⟩ "C3 1|1x3@0.5 @3=2".toList).map Performance.muted =
        .ok performance.muted ∧
      ∃ elements, parse "C3 1|1x3@0.5 @3=2".toList = .ok elements ∧
        performance.advisories.filter (·.value.isExcess) = elements.filterMap (excess? 2) := by
  have hadvisories : (compile .unstated ⟨2, 0.001⟩
      "C3 1|1x3@0.5 @3=2".toList).toOption.map (·.advisories) =
        some [⟨.excessiveRepeat 3 2, ⟨1, 6⟩⟩, ⟨.emptySource 2, ⟨1, 14⟩⟩] := by decide +kernel
  obtain ⟨performance, h, hremarks⟩ := exists_performance hadvisories
  obtain ⟨hmuted, hexcess, -⟩ :=
    compile_settings .unstated "C3 1|1x3@0.5 @3=2".toList 2 3 0.001 0.001
  rw [h] at hmuted
  exact ⟨performance, h, hremarks, hmuted.symm, hexcess performance h⟩

end Barline.Score
