import Barline.Proofs.Score.Changes

/-!
# Pitches among changes

A change of a parameter reaches the pitches that are gathered already and those that are gathered
later, so a pitch may as well stand before the change as behind it. Of a passage of pitches and
changes only the order of its pitches and that of its changes count.
-/

namespace Barline.Score

/-- Whether pitches are at hand or not, a new pitch ends up with the changed parameters, and what is
said of changes does not hang on pitches. -/
theorem State.addPitch_change (s : State) (c : Change) (pitch : UInt8) (began position : Position) :
    (s.addPitch pitch began).change c position = (s.change c position).addPitch pitch began := by
  obtain ⟨parameters, bar, buffer, unplaced, history, events, advisories⟩ := s
  cases hlast : unplaced.get c.parameter with
  | none => cases buffer <;> simp [addPitch, change, supersede, hlast, Pending.apply]
  | some superseded =>
    cases buffer <;> simp [addPitch, change, supersede, hlast, advise, Pending.apply]

lemma Element.change?_of_parameter? (perBar : Float) {e : Element} (h : e.parameter?.isSome) :
    ∃ c, e.change? perBar = some c := by
  cases e <;> first | exact ⟨_, rfl⟩ | cases h

lemma Element.of_pitch? {e : Element} (h : e.pitch?.isSome) : ∃ pitch, e = .pitch pitch := by
  cases e <;> first | exact ⟨_, rfl⟩ | cases h

section

variable (p : Performer) (s : State)

lemma step_pitch (pitch : UInt8) (position : Position) :
    p.step s ⟨.pitch pitch, position⟩ = .ok (s.addPitch pitch position) := rfl

lemma step_comm {e f : Located Element} (he : e.value.pitch?.isSome)
    (hf : f.value.parameter?.isSome) :
    ∃ s₁ s₂ s', p.step s e = .ok s₁ ∧ p.step s₁ f = .ok s' ∧ p.step s f = .ok s₂ ∧
      p.step s₂ e = .ok s' := by
  obtain ⟨value, position⟩ := f
  obtain ⟨value', began⟩ := e
  obtain ⟨pitch, rfl⟩ := Element.of_pitch? he
  obtain ⟨c, hc⟩ := Element.change?_of_parameter? p.signature.beatsPerBar hf
  refine ⟨_, _, _, step_pitch p s pitch began, step_change hc position, step_change hc position, ?_⟩
  rw [step_pitch, s.addPitch_change]

/-- The pitches among some elements. -/
def pitchesOf (es : Elements) : Elements := es.filter (·.value.pitch?.isSome)

/-- The changes of parameters among some elements. -/
def changesOf (es : Elements) : Elements := es.filter (·.value.parameter?.isSome)

/-- Whether all elements are pitches and changes of parameters. -/
def Passage (es : Elements) : Prop :=
  ∀ e ∈ es, e.value.pitch?.isSome ∨ e.value.parameter?.isSome

/-- Two passages of the same pitches and the same changes, each of them in their order. -/
structure Rearranged (es fs : Elements) : Prop where
  left : Passage es
  right : Passage fs
  pitches : pitchesOf es = pitchesOf fs
  changes : changesOf es = changesOf fs

lemma run_passage {es : Elements} (h : Passage es) : ∃ s', es.foldlM p.step s = .ok s' := by
  induction es generalizing s with
  | nil => exact ⟨s, rfl⟩
  | cons e es ih =>
    obtain ⟨he, hes⟩ := List.forall_mem_cons.mp h
    have hstep : ∃ s₁, p.step s e = .ok s₁ := by
      rcases he with hpitch | hchange
      · obtain ⟨value, position⟩ := e
        obtain ⟨pitch, rfl⟩ := Element.of_pitch? hpitch
        exact ⟨_, step_pitch p s pitch position⟩
      · obtain ⟨c, hc⟩ := Element.change?_of_parameter? p.signature.beatsPerBar hchange
        exact ⟨_, step_change hc e.position⟩
    obtain ⟨s₁, hs₁⟩ := hstep
    rw [List.foldlM_cons, hs₁]
    exact ih s₁ hes

/-- A change may wait until after some pitches. -/
lemma run_change_pitches {f : Located Element} (hf : f.value.parameter?.isSome) {es : Elements}
    (hes : ∀ e ∈ es, e.value.pitch?.isSome) :
    (f :: es).foldlM p.step s = (es ++ [f]).foldlM p.step s := by
  induction es generalizing s with
  | nil => rfl
  | cons e es ih =>
    obtain ⟨he, hes⟩ := List.forall_mem_cons.mp hes
    obtain ⟨s₁, s₂, s', hs₁, hs', hs₂, hs''⟩ := step_comm p s he hf
    calc (f :: e :: es).foldlM p.step s
        = es.foldlM p.step s' := by
          rw [List.foldlM_cons, hs₂]
          change (e :: es).foldlM p.step s₂ = _
          rw [List.foldlM_cons, hs'']
          rfl
      _ = (f :: es).foldlM p.step s₁ := by
          rw [List.foldlM_cons, hs']
          rfl
      _ = (es ++ [f]).foldlM p.step s₁ := ih s₁ hes
      _ = (e :: es ++ [f]).foldlM p.step s := by
          rw [List.cons_append, List.foldlM_cons, hs₁]
          rfl

/-- A passage has the same outcome with all pitches in front of all changes. -/
theorem run_pitches_changes {es : Elements} (h : Passage es) :
    es.foldlM p.step s = (pitchesOf es ++ changesOf es).foldlM p.step s := by
  induction es generalizing s with
  | nil => rfl
  | cons e es ih =>
    obtain ⟨he, hes⟩ := List.forall_mem_cons.mp h
    have hrest : (e :: es).foldlM p.step s =
        (e :: (pitchesOf es ++ changesOf es)).foldlM p.step s := by
      rw [List.foldlM_cons, List.foldlM_cons]
      exact bind_congr fun s₁ => ih s₁ hes
    rw [hrest]
    cases hchange : e.value.parameter?.isSome with
    | false =>
      have hpitch := he.resolve_right (by simp [hchange])
      simp [pitchesOf, changesOf, hpitch, hchange]
    | true =>
      have hpitch : e.value.pitch?.isSome = false := by
        obtain ⟨q, hq⟩ := Option.isSome_iff_exists.mp hchange
        simp [(Element.of_parameter? hq).1]
      have hpitches : pitchesOf (e :: es) = pitchesOf es := by simp [pitchesOf, hpitch]
      have hchanges : changesOf (e :: es) = e :: changesOf es := by simp [changesOf, hchange]
      have hswap : (e :: pitchesOf es).foldlM p.step s = (pitchesOf es ++ [e]).foldlM p.step s :=
        run_change_pitches p s hchange fun f hf => (List.mem_filter.mp hf).2
      calc (e :: (pitchesOf es ++ changesOf es)).foldlM p.step s
          = (pitchesOf es ++ [e]).foldlM p.step s >>= (changesOf es).foldlM p.step := by
            rw [← List.cons_append, List.foldlM_append, hswap]
        _ = (pitchesOf (e :: es) ++ changesOf (e :: es)).foldlM p.step s := by
            rw [hpitches, hchanges, ← List.foldlM_append, List.append_assoc, List.singleton_append]

lemma Rearranged.run_eq {es fs : Elements} (h : Rearranged es fs) :
    es.foldlM p.step s = fs.foldlM p.step s := by
  rw [run_pitches_changes p s h.left, h.pitches, h.changes, ← run_pitches_changes p s h.right]

end

/-- **Pitches and changes commute.** A pitch and a change of a parameter lead from every state to
the same state in both orders. So do passages that differ only in where the pitches stand among the
changes, and a score that holds one of them sounds like the score that holds the other, with the
same remarks. -/
theorem pitches_changes_commute (p : Performer) :
    (∀ (s : State) (e f : Located Element), e.value.pitch?.isSome → f.value.parameter?.isSome →
      ∃ s', [e, f].foldlM p.step s = .ok s' ∧ [f, e].foldlM p.step s = .ok s') ∧
    ∀ es fs, Rearranged es fs →
      (∀ s, ∃ s', es.foldlM p.step s = .ok s' ∧ fs.foldlM p.step s = .ok s') ∧
      ∀ before after, p.perform (before ++ es ++ after) = p.perform (before ++ fs ++ after) := by
  refine ⟨fun s e f he hf => ?_, fun es fs h => ⟨fun s => ?_, fun before after => ?_⟩⟩
  · obtain ⟨s₁, s₂, s', hs₁, hs', hs₂, hs''⟩ := step_comm p s he hf
    refine ⟨s', ?_, ?_⟩
    · rw [List.foldlM_cons, hs₁]
      exact congrArg (· >>= pure) hs'
    · rw [List.foldlM_cons, hs₂]
      exact congrArg (· >>= pure) hs''
  · obtain ⟨s', hs'⟩ := run_passage p s h.left
    exact ⟨s', hs', h.run_eq p s ▸ hs'⟩
  · have hrun : (before ++ es ++ after).foldlM p.step .initial =
        (before ++ fs ++ after).foldlM p.step .initial := by
      rw [List.append_assoc, List.append_assoc, List.foldlM_append, List.foldlM_append]
      refine bind_congr fun s => ?_
      rw [List.foldlM_append, List.foldlM_append, h.run_eq p s]
    unfold Performer.perform
    rw [hrun]

/-- A chord with a change between its pitches, and another that makes the first one useless. -/
theorem pitches_changes_commute_chord :
    let p : Performer := ⟨.common, .usual⟩
    let v80 : Located Element := ⟨.velocity 80, ⟨1, 1⟩⟩
    let c3 : Located Element := ⟨.pitch 60, ⟨1, 5⟩⟩
    let v90 : Located Element := ⟨.velocity 90, ⟨1, 8⟩⟩
    let e3 : Located Element := ⟨.pitch 64, ⟨1, 12⟩⟩
    let place : Located Element := ⟨.position (some 1) (.single 1.0), ⟨1, 15⟩⟩
    Rearranged [v80, c3, v90, e3] [c3, e3, v80, v90] ∧
      (∃ s', [c3, v90].foldlM p.step .initial = .ok s' ∧
        [v90, c3].foldlM p.step .initial = .ok s') ∧
      p.perform ([] ++ [v80, c3, v90, e3] ++ [place]) =
        p.perform ([] ++ [c3, e3, v80, v90] ++ [place]) := by
  intro p v80 c3 v90 e3 place
  have h : Rearranged [v80, c3, v90, e3] [c3, e3, v80, v90] :=
    ⟨by unfold Passage; decide, by unfold Passage; decide, by decide, by decide⟩
  obtain ⟨hswap, hpassage⟩ := pitches_changes_commute p
  exact ⟨h, hswap .initial c3 v90 rfl rfl, (hpassage _ _ h).2 [] [place]⟩

end Barline.Score
