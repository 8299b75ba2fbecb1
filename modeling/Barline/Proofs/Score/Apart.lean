import Barline.Proofs.Score.Timely

/-!
# Beats that lie apart

The beats of a series lie a step apart, a written one or else the current duration, and a step of
zero is refused where the series is performed. It is never met in a text that was read: no step and
no duration is written as zero, and no meter makes a zero of what is written.
-/

namespace Barline.Score

open Binary64 Number

lemma ne_zero_of_value_pos {x : Float} (h : x.isNaN = false → 0 < value x) :
    (x == 0.0) = false := by
  by_cases hn : x.isNaN
  · exact beq_eq_false_of_isNaN hn 0.0
  · rw [Bool.not_eq_true] at hn
    rw [← Bool.not_eq_true, beq_iff hn rfl, value_zero]
    exact (h hn).ne'

lemma value_pos_of_lt {x : Float} (hn : x.isNaN = false) (h : 0.0 < x) : 0 < value x := by
  rwa [lt_iff rfl hn, value_zero] at h

lemma value_bars_pos {n : UInt32} (hn : 0 < n) (signature : Signature) :
    0 < value (n.toFloat * signature.beatsPerBar) := by
  have hone : (1 : ℚ) ≤ n.toNat * signature.numerator.toNat :=
    one_le_mul_of_one_le_of_one_le (Meter.one_le_toNat (UInt32.ne_of_lt hn).symm)
      (Meter.one_le_toNat (UInt32.ne_of_lt signature.numerator_pos).symm)
  have hr := rounds_mul (isFinite_toFloat32 n) (isFinite_toFloat32 signature.numerator)
  rw [value_toFloat32, value_toFloat32] at hr
  have hle := hr.value_le 1.0 (by rwa [value_one])
  rw [value_one] at hle
  exact zero_lt_one.trans_le hle

lemma Length.inBeats_ne_zero {length : Length} (h : length.isPositive)
    (hunsigned : (Element.duration length).Unsigned) (signature : Signature) :
    (length.inBeats signature.beatsPerBar == 0.0) = false := by
  refine ne_zero_of_value_pos fun hn => ?_
  cases length with
  | beats x => exact value_pos_of_lt hn (of_decide_eq_true h)
  | bars n x =>
    have hbars : NonNeg (n.toFloat * signature.beatsPerBar) :=
      (nonNeg_toFloat n).mul (nonNeg_toFloat signature.numerator)
    obtain hpos | hpos := (Bool.or_eq_true _ _).mp h
    · exact (value_bars_pos (of_decide_eq_true hpos) signature).trans_le (hbars.le_add hunsigned hn)
    · have hx : x.isNaN = false := by
        by_contra hnan
        rw [Bool.not_eq_false] at hnan
        rw [Length.inBeats, Meter.span, isNaN_add_right hnan] at hn
        cases hn
      exact (value_pos_of_lt hx (of_decide_eq_true hpos)).trans_le
        (hbars.le_add_right hunsigned hn)

section

variable {perBar : Float} {s : State} {position : Position} {error : Error}

lemma foldlM_placeAt_error {pitches : List Pending} {bar : UInt32} {beats : List Float}
    (h : beats.foldlM (State.placeAt perBar pitches bar position) s = .error error) :
    ∃ beat, error = .domain (.beatPastLastBar beat bar) (some position) := by
  induction beats generalizing s with
  | nil => cases h
  | cons beat beats ih =>
    rw [List.foldlM_cons] at h
    unfold State.placeAt at h
    dsimp only at h
    split_ifs at h
    · exact ih h
    · cases h
      exact ⟨beat, rfl⟩

lemma placeAll_error {beats : List Float} (h : s.placeAll perBar beats position = .error error) :
    ∃ beat bar, error = .domain (.beatPastLastBar beat bar) (some position) := by
  have hplace {pitches : List Pending} (h : (do
        let s ← beats.foldlM (State.placeAt perBar pitches (s.bar.getD 1) position) s
        return { s with buffer := .placed pitches none, unplaced := .settled } :
          Except Error State) = .error error) :
      ∃ beat bar, error = .domain (.beatPastLastBar beat bar) (some position) := by
    cases hs : beats.foldlM (State.placeAt perBar pitches (s.bar.getD 1) position) s with
    | error e =>
      obtain ⟨beat, rfl⟩ := foldlM_placeAt_error hs
      rw [hs] at h
      cases h
      exact ⟨beat, _, rfl⟩
    | ok s₁ =>
      rw [hs] at h
      cases h
  unfold State.placeAll at h
  cases hbuffer : s.buffer with
  | idle unused =>
    rw [hbuffer] at h
    cases h
  | collecting pitches began =>
    rw [hbuffer] at h
    exact hplace h
  | placed pitches changed =>
    rw [hbuffer] at h
    exact hplace h

lemma copy_error {destination : Bars} {source : Source}
    (h : s.copy perBar destination source position = .error error) :
    error = .domain .nothingBeforeFirstBar (some position) ∨ ∃ first last bar,
      error = .domain (.copyPastLastBar first last bar) (some position) := by
  have hpairs : copyPairs destination source position = .error error := by
    unfold State.copy at h
    cases hpairs : copyPairs destination source position with
    | error e =>
      rw [hpairs] at h
      cases h
      rfl
    | ok pairs =>
      rw [hpairs] at h
      cases h
  unfold copyPairs at hpairs
  split at hpairs
  · split_ifs at hpairs
    exact .inl (Except.error.inj hpairs).symm
  · cases hpairs
  · split_ifs at hpairs
    exact .inr ⟨_, _, _, (Except.error.inj hpairs).symm⟩
  · cases hpairs

/-- A step is refused as zero only at a series of beats, whose step is zero. -/
theorem step_zeroStep {p : Performer} {e : Located Element} {place : Option Position}
    (h : p.step s e = .error (.domain .zeroStep place)) :
    ∃ bar first times step, e.value = .position bar (.series first times step) ∧
      (step.getD s.parameters.duration == 0.0) = true := by
  obtain ⟨value, position⟩ := e
  cases value with
  | position bar beat =>
    change s.place _ _ bar beat position = _ at h
    unfold State.place at h
    cases beat with
    | single beat =>
      obtain ⟨_, _, hcause⟩ := placeAll_error h
      cases hcause
    | series first times step =>
      refine ⟨bar, first, times, step, rfl, ?_⟩
      dsimp only at h
      split_ifs at h with hzero
      · exact hzero
      all_goals
        obtain ⟨_, _, hcause⟩ := placeAll_error h
        cases hcause
  | copy destination source =>
    obtain hcause | ⟨_, _, _, hcause⟩ := copy_error h <;> cases hcause
  | _ => cases h

end

section

variable {p : Performer} {elements : Elements}

/-- A run that is refused has come to a state in which one of its elements is refused. -/
lemma run_error {s₀ : State} {error : Error} (h : elements.foldlM p.step s₀ = .error error) :
    ∃ before e after s, elements = before ++ e :: after ∧ before.foldlM p.step s₀ = .ok s ∧
      p.step s e = .error error := by
  induction elements generalizing s₀ with
  | nil => cases h
  | cons e elements ih =>
    rw [List.foldlM_cons] at h
    cases hstep : p.step s₀ e with
    | error error' =>
      rw [hstep] at h
      cases h
      exact ⟨[], e, elements, s₀, rfl, rfl, hstep⟩
    | ok s₁ =>
      rw [hstep] at h
      obtain ⟨before, e', after, s, rfl, hbefore, herror⟩ := ih h
      refine ⟨e :: before, e', after, s, rfl, ?_, herror⟩
      rw [List.foldlM_cons, hstep]
      exact hbefore

/-- The current duration is never zero, where the durations that are said are not. -/
lemma run_duration_ne_zero (hproper : ∀ e ∈ elements, e.value.Proper)
    (hunsigned : ∀ e ∈ elements, e.value.Unsigned) {s : State}
    (h : elements.foldlM p.step .initial = .ok s) : (s.parameters.duration == 0.0) = false := by
  rw [(run_bound h).2]
  refine lastSaid_induction (Q := fun x => (x == 0.0) = false) rfl fun e he x hx => ?_
  have hpos := hproper e he
  have hnonneg := hunsigned e he
  cases hvalue : e.value with
  | duration length =>
    rw [hvalue] at hpos hnonneg hx
    obtain rfl := Option.some.inj hx
    exact length.inBeats_ne_zero hpos hnonneg p.signature
  | _ =>
    rw [hvalue] at hx
    cases hx

end

/-- **Beats lie apart.** Whatever meter and settings, performing the elements of a text never fails
for a step of zero: in each state that is reached on the way the current duration is no zero, and
no series of the text is written with a step of zero. -/
theorem compile_ne_zeroStep {timing : Timing} {signature : Signature} {settings : Settings}
    {text : List Char} {elements : Elements} (h : parse text = .ok elements)
    (hsignature : timing.resolve = .ok signature) :
    (∀ place : Option Position, compile timing settings text ≠ .error (.domain .zeroStep place)) ∧
      (∀ before s, before <+: elements →
        before.foldlM (Performer.step ⟨signature, settings⟩) .initial = .ok s →
        (s.parameters.duration == 0.0) = false) ∧
      ∀ e ∈ elements, ∀ bar first times step,
        e.value = .position bar (.series first times (some step)) → (step == 0.0) = false := by
  have hproper := proper_of_parse h
  have hunsigned := unsigned_of_parse h
  have hduration {before : Elements} {s : State} (hbefore : before <+: elements)
      (hs : before.foldlM (Performer.step ⟨signature, settings⟩) .initial = .ok s) :
      (s.parameters.duration == 0.0) = false :=
    run_duration_ne_zero (fun e he => hproper e (hbefore.subset he))
      (fun e he => hunsigned e (hbefore.subset he)) hs
  have hstep {e : Located Element} (he : e ∈ elements) {bar : Option UInt32} {first step : Float}
      {times : UInt32} (hvalue : e.value = .position bar (.series first times (some step))) :
      (step == 0.0) = false := by
    have hbeats := hproper e he
    rw [hvalue] at hbeats
    exact hbeats.2.2.2 step rfl
  refine ⟨fun place hfails => ?_, fun before s => hduration, fun e he bar first times step =>
    hstep he⟩
  rw [compile_of_resolve hsignature, run_of_parse h] at hfails
  cases hrun : elements.foldlM (Performer.step ⟨signature, settings⟩) .initial with
  | ok s =>
    obtain ⟨performance, hperform, -⟩ := perform_of_foldlM hrun
    rw [hperform] at hfails
    cases hfails
  | error error =>
    rw [perform_of_foldlM_error hrun] at hfails
    obtain rfl := Except.error.inj hfails
    -- a run that fails for a zero step fails at a series, whose step is written or the duration
    obtain ⟨before, e, after, s, rfl, hs, herror⟩ := run_error hrun
    obtain ⟨bar, first, times, step, hvalue, hzero⟩ := step_zeroStep herror
    have hne : (step.getD s.parameters.duration == 0.0) = false := by
      cases step with
      | none => exact hduration (List.prefix_append ..) hs
      | some step => exact hstep (by simp) hvalue
    rw [hne] at hzero
    cases hzero

/-- A series without a step in a meter of six beats, under durations that are written without beats
or without bars. -/
theorem compile_ne_zeroStep_bars :
    let timing : Timing := ⟨none, some 6, some 8⟩
    let signature : Signature := ⟨6, 8, by decide, by decide⟩
    let text := "C3 t0:1/3 1|1x2 t1:0 |1x3 |2x2@.5".toList
    timing.resolve = .ok signature ∧ ∃ elements, parse text = .ok elements ∧
      (∀ place : Option Position, compile timing .usual text ≠ .error (.domain .zeroStep place)) ∧
      (∀ before s, before <+: elements →
        before.foldlM (Performer.step ⟨signature, .usual⟩) .initial = .ok s →
        (s.parameters.duration == 0.0) = false) ∧
      ∀ e ∈ elements, ∀ bar first times step,
        e.value = .position bar (.series first times (some step)) → (step == 0.0) = false := by
  intro timing signature text
  have hok : (parse text).isOk := by decide +kernel
  cases h : parse text with
  | error e =>
    rw [h] at hok
    cases hok
  | ok elements => exact ⟨rfl, elements, rfl, compile_ne_zeroStep h rfl⟩

end Barline.Score
