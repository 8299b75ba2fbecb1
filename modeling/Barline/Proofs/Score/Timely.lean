import Barline.Proofs.Score.Origins
import Barline.Proofs.Score.Ranges

/-!
# Notes in time

Numbers in a score are read without a check that they are finite, and comparisons let pass what is
no number. So the notes of a performance start at or after the first bar line and last for a while
with three exceptions, which are told by where a note comes from.
-/

namespace Barline.Score

open Binary64 Number

lemma Numeral.nonNeg {w : List Char} {x : Float} (h : Numeral w x) : NonNeg x := by
  have hvalue (d : Decimal) : NonNeg d.value := nonNeg_ofScientific _ _
  cases h with
  | decimal _ => exact hvalue _
  | fraction _ _ hzero => exact (hvalue _).div (hvalue _) hzero
  | mixed _ _ _ hzero => exact (hvalue _).add ((hvalue _).div (hvalue _) hzero)

/-- Durations and steps that are not negative. -/
def Element.Unsigned : Element → Prop
  | .duration (.beats x) => NonNeg x
  | .duration (.bars _ x) => NonNeg x
  | .position _ (.series _ _ (some step)) => NonNeg step
  | _ => True

lemma Denotes.unsigned {w : List Char} {e : Element} (h : Denotes ReadAs w e) : e.Unsigned := by
  cases h with
  | duration h =>
    cases h with
    | beats h => exact h.nonNeg
    | bars _ h => exact h.nonNeg
  | _ => trivial

lemma DenotesBeat.unsigned {w : List Char} {beat : Beat} (h : DenotesBeat w beat)
    (bar : Option UInt32) : (Element.position bar beat).Unsigned := by
  cases h with
  | seriesStep _ _ _ _ hstep => exact hstep.nonNeg
  | _ => trivial

theorem unsigned_of_parse {text : List Char} {elements : Elements}
    (h : parse text = .ok elements) : ∀ e ∈ elements, e.value.Unsigned :=
  forall_of_parse Denotes.unsigned (fun _ hbeat => hbeat.unsigned _) h

lemma nonNeg_toFloat (n : UInt32) : NonNeg n.toFloat := by
  intro _
  rw [value_toFloat32]
  exact Nat.cast_nonneg _

lemma nonNeg_one : NonNeg 1.0 := fun _ => by rw [value_one]; exact zero_le_one

/-- What holds of all that is said, and of what is usual, holds of what was said last. -/
lemma lastSaid_induction {α : Type} {Q : α → Prop} {tells : Element → Option α} {usual : α}
    {elements : Elements} (husual : Q usual)
    (h : ∀ e ∈ elements, ∀ x ∈ tells e.value, Q x) : Q (lastSaid tells usual elements) := by
  induction elements using List.reverseRecOn with
  | nil => exact husual
  | append_singleton elements e ih =>
    obtain ⟨hbefore, he⟩ := List.forall_mem_append.mp h
    rw [lastSaid_append]
    cases htold : tells e.value with
    | none => exact ih hbefore
    | some x => exact he e (List.mem_singleton_self e) x htold

variable {p : Performer} {elements : Elements} {s : State}

lemma Element.Unsigned.nonNeg_duration {e : Element} (h : e.Unsigned) {perBar : Float}
    (hbar : NonNeg perBar) : ∀ x ∈ e.duration? perBar, NonNeg x := by
  intro x hx
  cases e <;> cases hx
  case duration length =>
    cases length with
    | beats x => exact h
    | bars n x => exact ((nonNeg_toFloat n).mul hbar).add h

lemma run_nonNeg_duration (h : elements.foldlM p.step .initial = .ok s)
    (hunsigned : ∀ e ∈ elements, e.value.Unsigned) : NonNeg s.parameters.duration := by
  rw [(run_bound h).2]
  exact lastSaid_induction nonNeg_one fun e he =>
    (hunsigned e he).nonNeg_duration (nonNeg_toFloat p.signature.numerator)

lemma beats_proper (h : elements.foldlM p.step .initial = .ok s)
    (hunsigned : ∀ e ∈ elements, e.value.Unsigned) {bar : Option UInt32} {beat : Beat}
    (hproper : beat.Proper) (hbeat : (Element.position bar beat).Unsigned) :
    ∀ b ∈ s.beats beat, ¬ b < 1.0 := by
  cases beat with
  | single x =>
    intro b hb
    rw [List.mem_singleton.mp hb]
    exact hproper
  | series first times step =>
    intro b hb
    obtain ⟨i, -, rfl⟩ := List.mem_map.mp hb
    have hstep : NonNeg (step.getD s.parameters.duration) := by
      cases step with
      | none => exact run_nonNeg_duration h hunsigned
      | some step => exact hbeat
    by_cases hnumber : (first + (UInt32.ofNat i).toFloat * step.getD s.parameters.duration).isNaN
    · exact not_lt_of_isNaN hnumber 1.0
    · rw [Bool.not_eq_true] at hnumber
      have hfirst : first.isNaN = false := by
        by_contra hnan
        rw [Bool.not_eq_false] at hnan
        rw [isNaN_add_left hnan] at hnumber
        cases hnumber
      have hone : 1 ≤ value first := by
        have hx := hproper.1
        rwa [lt_iff hfirst rfl, value_one, not_lt] at hx
      have hnonneg : NonNeg first := fun _ => zero_le_one.trans hone
      rw [lt_iff hnumber rfl, value_one, not_lt]
      exact hone.trans (hnonneg.le_add ((nonNeg_toFloat _).mul hstep) hnumber)

namespace Origin

/-- What is copied to the first bar must not lie before its own bar, not even by the hair that
counts as on the bar line. -/
def OnTime (perBar : Float) : Origin → Prop
  | placed .. => True
  | copied original source destination =>
    destination = 1 → Meter.barStart source perBar ≤ (original.note perBar).start

variable {o : Origin}

/-- A beat that is no number makes no start, and neither do the copies. -/
lemma isNaN_start (perBar : Float) (h : o.beat.isNaN) : (o.note perBar).start.isNaN := by
  induction o with
  | placed bar beat pending => exact Meter.isNaN_beatsAt h bar perBar
  | copied original source destination ih => exact isNaN_add_left (ih h) _

/-- Any other beat makes a place in time, and all copies from there on are places in time. -/
theorem Arises.lies (h : o.Arises p elements) (hproper : ∀ e ∈ elements, e.value.Proper)
    (hunsigned : ∀ e ∈ elements, e.value.Unsigned) (hbeat : o.beat.isNaN = false) :
    Meter.Lies p.signature.numerator (o.note p.signature.beatsPerBar).start ∧
      (0 ≤ value (o.note p.signature.beatsPerBar).start ↔
        o.OnTime p.signature.beatsPerBar) := by
  have hn := (UInt32.ne_of_lt p.signature.numerator_pos).symm
  induction h with
  | @placed before bar beat position s s' b pending hs hstep hb hpending =>
    obtain ⟨hearlier, hposition⟩ := List.forall_mem_append.mp hproper
    obtain ⟨hearlier', hseries⟩ := List.forall_mem_append.mp hunsigned
    obtain ⟨hwritten, hbeats⟩ := hposition _ (List.mem_singleton_self _)
    have hbar : (bar <|> s.bar).getD 1 ≠ 0 := by
      cases bar with
      | some bar => exact hwritten bar rfl
      | none =>
        cases hlast : s.bar with
        | none => decide
        | some bar => exact run_bar hs hearlier bar hlast
    have hrange := (place_inRange hstep).2 (List.ne_nil_of_mem hpending) b hb
    have hfirst := beats_proper hs hearlier' hbeats (hseries _ (List.mem_singleton_self _)) b hb
    obtain ⟨hlies, h0⟩ := Meter.lies_beatsAt hn hbar hfirst hbeat hrange
    exact ⟨hlies, iff_of_true h0 trivial⟩
  | @copied before destination source position s done rest a b o hs hpairs hne ho hmem ih =>
    obtain ⟨hlies, -⟩ := ih hproper hunsigned hbeat
    have hfiled := (mem_history_copying hs position done hmem).2
    have ha : a ≠ 0 := hfiled ▸ Meter.barBeat_ne_zero _ _
    have hdestination : destination.Proper := by
      have hcopy := hproper _ (List.mem_append_right _ (List.mem_singleton_self _))
      cases source with
      | previous => exact hcopy
      | bars source => exact hcopy.1
    have hb := copyPairs_ne_zero hdestination hpairs (a, b) (by simp)
    obtain ⟨hmoved, h0⟩ := hlies.moved hn hfiled hb hne
    have hline := isNaN_of_isFinite (Meter.barStart_bounds ha p.signature.numerator).1
    exact ⟨hmoved, h0.trans (imp_congr_right fun _ =>
      (le_iff hline (isNaN_of_isFinite hlies.isFinite)).symm)⟩
  | later h ih =>
    exact ih (fun e he => hproper e (List.mem_append_left _ he))
      (fun e he => hunsigned e (List.mem_append_left _ he)) hbeat

lemma Arises.nonNeg_duration (h : o.Arises p elements)
    (hunsigned : ∀ e ∈ elements, e.value.Unsigned) :
    NonNeg (o.note p.signature.beatsPerBar).duration := by
  induction h with
  | @placed before bar beat position s s' b pending hs hstep hb hpending =>
    have hcarried := (run_bound hs).1 pending hpending
    change NonNeg pending.parameters.duration
    rw [hcarried]
    exact run_nonNeg_duration hs fun e he => hunsigned e (List.mem_append_left _ he)
  | copied hs hpairs hne ho hmem ih => exact ih hunsigned
  | later h ih => exact ih fun e he => hunsigned e (List.mem_append_left _ he)

end Origin

/-- A note that starts at the first bar line or after it and that lasts, both by finite numbers. -/
structure Timely (n : Note) : Prop where
  start_isFinite : n.start.isFinite
  start_nonneg : 0.0 ≤ n.start
  duration_isFinite : n.duration.isFinite
  duration_pos : 0.0 < n.duration

/-- What it takes for a note to be in time: a beat that is a number, no copy of what lies before
its bar to the first bar, and a duration in quarter notes that is neither out of reach nor rounded
to nothing. -/
structure Origin.Sound (signature : Signature) (o : Origin) : Prop where
  beat : o.beat.isNaN = false
  onTime : o.OnTime signature.beatsPerBar
  duration_isFinite :
    (signature.toQuarters (o.note signature.beatsPerBar).duration).isFinite
  duration_ne_zero :
    (signature.toQuarters (o.note signature.beatsPerBar).duration == 0.0) = false

lemma nonNeg_toQuarters {x : Float} (h : NonNeg x) (signature : Signature) :
    NonNeg (signature.toQuarters x) := by
  obtain ⟨-, hlow, -⟩ := Meter.quartersPerBeat_bounds signature
  exact h.mul fun _ => le_trans (by positivity) hlow

lemma NonNeg.pos_iff {x : Float} (h : NonNeg x) (hx : x.isFinite) :
    0.0 < x ↔ (x == 0.0) = false := by
  have hn := isNaN_of_isFinite hx
  rw [lt_iff rfl hn, value_zero, ← Bool.not_eq_true, beq_iff hn rfl, value_zero]
  exact (h hn).lt_iff_ne'

theorem Origin.Arises.timely_iff {o : Origin} (h : o.Arises p elements)
    (hproper : ∀ e ∈ elements, e.value.Proper) (hunsigned : ∀ e ∈ elements, e.value.Unsigned) :
    Timely (p.inQuarters (o.note p.signature.beatsPerBar)) ↔ o.Sound p.signature := by
  have hduration := nonNeg_toQuarters (h.nonNeg_duration hunsigned) p.signature
  constructor
  · intro ht
    have hbeat : o.beat.isNaN = false := by
      by_contra hnan
      rw [Bool.not_eq_false] at hnan
      have hstart := isNaN_mul_left (o.isNaN_start p.signature.beatsPerBar hnan)
        p.signature.quartersPerBeat
      have hnumber := isNaN_of_isFinite ht.start_isFinite
      change (_ * _ : Float).isNaN = false at hnumber
      rw [hstart] at hnumber
      cases hnumber
    obtain ⟨hlies, h0⟩ := h.lies hproper hunsigned hbeat
    exact ⟨hbeat, h0.mp ((hlies.toQuarters p.signature).2.mp ht.start_nonneg),
      ht.duration_isFinite, (NonNeg.pos_iff hduration ht.duration_isFinite).mp ht.duration_pos⟩
  · intro hs
    obtain ⟨hlies, h0⟩ := h.lies hproper hunsigned hs.beat
    obtain ⟨hfinite, hnonneg⟩ := hlies.toQuarters p.signature
    exact ⟨hfinite, hnonneg.mpr (h0.mpr hs.onTime), hs.duration_isFinite,
      (NonNeg.pos_iff hduration hs.duration_isFinite).mpr hs.duration_ne_zero⟩

/-- **Notes in time.** Whatever text, meter and settings, each note that is played comes from a time
position by copies, and it starts at the first bar line or after it and lasts, both for a finite
time, exactly if its beat is a number, what was copied to the first bar does not lie before its own
bar, and its duration in quarter notes is finite and not zero. -/
theorem compile_timely_iff {timing : Timing} {settings : Settings} {text : List Char}
    {performance : Performance} (h : compile timing settings text = .ok performance) :
    ∃ p elements, Performer.make timing settings = .ok p ∧ parse text = .ok elements ∧
      (∀ n ∈ performance.events, ∃ o : Origin, o.Arises p elements ∧
        n = p.inQuarters (o.note p.signature.beatsPerBar)) ∧
      ∀ o : Origin, o.Arises p elements →
        (Timely (p.inQuarters (o.note p.signature.beatsPerBar)) ↔ o.Sound p.signature) := by
  obtain ⟨signature, hsignature, hrun⟩ := compile_eq_ok h
  obtain ⟨elements, s, hparse, hs, hevents⟩ := run_eq_ok hrun
  have hmake : Performer.make timing settings = .ok ⟨signature, settings⟩ := by
    unfold Performer.make
    rw [hsignature]
    rfl
  refine ⟨⟨signature, settings⟩, elements, hmake, hparse, ?_, ?_⟩
  · intro n hn
    rw [hevents] at hn
    obtain ⟨m, hm, rfl, -⟩ := mem_arrange hn
    obtain ⟨o, ho, rfl⟩ := exists_origin hs m hm
    exact ⟨o, ho, rfl⟩
  · intro o ho
    exact ho.timely_iff (proper_of_parse hparse) (unsigned_of_parse hparse)

/-- A copy to the next bar of a note that is deleted afterwards. -/
theorem compile_timely_iff_copied :
    ∃ performance, compile .unstated .usual "t1/2 C3 1|4 @2=1 v0 C3 1|4".toList =
        .ok performance ∧
      performance.events = [⟨60, 7.0, 0.5, 100.0, 1.0, 0.0⟩] ∧
      ∃ p elements, Performer.make .unstated .usual = .ok p ∧
        parse "t1/2 C3 1|4 @2=1 v0 C3 1|4".toList = .ok elements ∧
        (∀ n ∈ performance.events, ∃ o : Origin, o.Arises p elements ∧
          n = p.inQuarters (o.note p.signature.beatsPerBar)) ∧
        ∀ o : Origin, o.Arises p elements →
          (Timely (p.inQuarters (o.note p.signature.beatsPerBar)) ↔ o.Sound p.signature) := by
  have hevents : (compile .unstated .usual
      "t1/2 C3 1|4 @2=1 v0 C3 1|4".toList).toOption.map (·.events) =
        some [⟨60, 7.0, 0.5, 100.0, 1.0, 0.0⟩] := by decide +kernel
  obtain ⟨performance, h, hleft⟩ := exists_performance hevents
  exact ⟨performance, h, hleft, compile_timely_iff h⟩

/-- A duration of 309 nines is read as infinity, which is positive. -/
theorem compile_untimely :
    ¬ ∀ timing settings text performance, compile timing settings text = .ok performance →
      ∀ n ∈ performance.events, Timely n := by
  intro htimely
  have hevents : (compile .unstated .usual
      ('t' :: List.replicate 309 '9' ++ " C3 1|1".toList)).toOption.map (·.events) =
        some [⟨60, 0.0, 1.0 / 0.0, 100.0, 1.0, 0.0⟩] := by decide +kernel
  obtain ⟨performance, h, hleft⟩ := exists_performance hevents
  have hnote := htimely _ _ _ performance h ⟨60, 0.0, 1.0 / 0.0, 100.0, 1.0, 0.0⟩
    (by rw [hleft]; exact List.mem_singleton_self _)
  exact absurd hnote.duration_isFinite (by decide)

end Barline.Score
