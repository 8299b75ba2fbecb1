import Barline.Proofs.Number.Rounding
import Barline.Proofs.Score.Elements
import Barline.Proofs.Score.Index
import Barline.Proofs.Score.Binding

/-!
# Notes within their ranges

Pitches, velocities and probabilities are only checked where they are read. From there they get into
the parameters, the pitches at hand, the history and the notes, and nothing takes them out of range
on the way. Velocity zero is in range until the deletions are done, and none of it is left then.
-/

namespace Barline.Score

open Binary64

/-- The velocity and its deviation are whole, and their sum is a velocity still. -/
def Spread (velocity deviation : Float) (low high : UInt8) : Prop :=
  low ≤ high ∧ high ≤ 127 ∧ velocity = low.toFloat ∧ deviation = (high - low).toFloat

/-- Parameters that may be said. -/
structure Parameters.InRange (P : Parameters) : Prop where
  velocity : ∃ low high, Spread P.velocity P.deviation low high
  probability : 0.0 ≤ P.probability ∧ P.probability ≤ 1.0

/-- A pitch and parameters that may be said. -/
structure Pending.InRange (p : Pending) : Prop where
  pitch : p.pitch ≤ 127
  parameters : p.parameters.InRange

/-- The pitch of a note with the parameters it was placed with. -/
def pendingOf (n : Note) : Pending := ⟨n.pitch, n.velocity, n.deviation, n.duration, n.probability⟩

/-- Everything that becomes a note, or is one already, is in range. -/
structure State.InRange (s : State) : Prop where
  parameters : s.parameters.InRange
  pitches : ∀ pending ∈ s.buffer.pitches, pending.InRange
  history : ∀ bar, ∀ n ∈ s.history.notes bar, (pendingOf n).InRange
  events : ∀ n ∈ s.events.toList, (pendingOf n).InRange

lemma spread_single {low : UInt8} (h : low ≤ 127) : Spread low.toFloat 0.0 low low := by
  refine ⟨UInt8.le_refl low, h, rfl, ?_⟩
  rw [UInt8.sub_self]
  rfl

lemma usual_inRange : Parameters.usual.InRange where
  velocity := ⟨100, 100, spread_single (by decide : (100 : UInt8) ≤ 127)⟩
  probability := ⟨by decide, by decide⟩

lemma Element.Proper.apply_inRange {e : Element} (h : e.Proper) {perBar : Float} {c : Change}
    (hc : e.change? perBar = some c) {P : Parameters} (hP : P.InRange) : (c.apply P).InRange := by
  cases e <;> cases hc
  case probability x => exact ⟨hP.velocity, h⟩
  case velocityRange low high => exact ⟨⟨low, high, h.1, h.2, rfl, rfl⟩, hP.probability⟩
  case velocity v => exact ⟨⟨v, v, spread_single h⟩, hP.probability⟩
  case duration length => exact ⟨hP.velocity, hP.probability⟩

lemma mem_recordAll {perBar : Float} {h : History} {notes : List Note} {bar : UInt32} {n : Note}
    (hn : n ∈ (recordAll perBar h notes).notes bar) : n ∈ h.notes bar ∨ n ∈ notes := by
  induction notes generalizing h with
  | nil => exact .inl hn
  | cons note notes ih =>
    rcases ih hn with hold | hnew
    · rw [History.notes_record] at hold
      split_ifs at hold
      · rcases List.mem_append.mp hold with hold | hnote
        · exact .inl hold
        · exact .inr (List.mem_cons.mpr (.inl (List.mem_singleton.mp hnote)))
      · exact .inl hold
    · exact .inr (List.mem_cons_of_mem _ hnew)

section

variable {perBar : Float} {s s' : State} {notes : List Note}

lemma State.InRange.extends (h : s.InRange) (hs : s.Extends perBar notes s')
    (hparameters : s'.parameters = s.parameters)
    (hpitches : ∀ pending ∈ s'.buffer.pitches, pending ∈ s.buffer.pitches)
    (hnotes : ∀ n ∈ notes, (pendingOf n).InRange) : s'.InRange where
  parameters := hparameters ▸ h.parameters
  pitches pending hpending := h.pitches pending (hpitches pending hpending)
  history bar n hn := by
    rw [hs.history] at hn
    rcases mem_recordAll hn with hold | hnew
    · exact h.history bar n hold
    · exact hnotes n hnew
  events n hn := by
    rw [hs.events] at hn
    rcases List.mem_append.mp hn with hold | hnew
    · exact h.events n hold
    · exact hnotes n hnew

lemma State.InRange.addPitch (h : s.InRange) {pitch : UInt8} (hpitch : pitch ≤ 127)
    (position : Position) : (s.addPitch pitch position).InRange := by
  have hnew : Pending.InRange ⟨pitch, s.parameters⟩ := ⟨hpitch, h.parameters⟩
  unfold State.addPitch
  dsimp only
  cases hbuffer : s.buffer with
  | idle unused => exact ⟨h.parameters, by simpa [Buffer.pitches] using hnew, h.history, h.events⟩
  | placed pitches changed =>
    exact ⟨h.parameters, by simpa [Buffer.pitches] using hnew, h.history, h.events⟩
  | collecting pitches began =>
    have hold := h.pitches
    rw [hbuffer] at hold
    refine ⟨h.parameters, ?_, h.history, h.events⟩
    exact List.forall_mem_append.mpr ⟨hold, by simpa using hnew⟩

lemma State.InRange.change (h : s.InRange) {c : Change}
    (hc : ∀ P : Parameters, P.InRange → (c.apply P).InRange) (position : Position) :
    (s.change c position).InRange := by
  obtain ⟨hparameters, -, hevents, hhistory⟩ := s.change_eq position c
  refine ⟨?_, ?_, hhistory ▸ h.history, hevents ▸ h.events⟩
  · rw [hparameters]
    exact hc _ h.parameters
  · rw [pitches_change]
    intro pending hpending
    obtain ⟨before, hbefore, rfl⟩ := List.mem_map.mp hpending
    have hb := h.pitches before hbefore
    exact ⟨hb.pitch, hc _ hb.parameters⟩

lemma State.InRange.dropPitches (h : s.InRange) (position : Position) :
    (s.dropPitches position).InRange := by
  refine h.extends (s.extends_dropPitches 0.0 position) (parameters_dropPitches s position) ?_
    (List.forall_mem_nil _)
  rw [pitches_dropPitches]
  exact List.forall_mem_nil _

lemma State.InRange.copyBars (h : s.InRange) (perBar : Float) (position : Position)
    (pairs : List (UInt32 × UInt32)) :
    (pairs.foldl (State.copyBar perBar position) s).InRange := by
  induction pairs generalizing s with
  | nil => exact h
  | cons pair pairs ih =>
    obtain ⟨hparameters, hbuffer⟩ := copyBars_eq perBar position s [pair]
    refine ih (h.extends (s.extends_copyBar perBar position pair) hparameters ?_ ?_)
    · intro pending hpending
      rwa [← hbuffer]
    · unfold copied
      split_ifs
      · exact List.forall_mem_nil _
      · intro n hn
        obtain ⟨m, hm, rfl⟩ := List.mem_map.mp hn
        exact h.history _ m hm

end

theorem step_inRange {p : Performer} {s s' : State} {e : Located Element} (hs : s.InRange)
    (he : e.value.Proper) (h : p.step s e = .ok s') : s'.InRange := by
  cases steps_of_step h with
  | pitch hvalue =>
    rw [hvalue] at he
    exact hs.addPitch he _
  | change hvalue => exact hs.change (fun P hP => he.apply_inRange hvalue hP) _
  | position hvalue hplace =>
    obtain ⟨hparameters, hpitches, hextends⟩ := place_eq_ok hplace
    refine hs.extends hextends hparameters (by simp [hpitches]) ?_
    intro n hn
    obtain ⟨start, -, hn⟩ := List.mem_flatMap.mp hn
    obtain ⟨pending, hpending, rfl⟩ := List.mem_map.mp hn
    exact hs.pitches pending hpending
  | copy _ _ => exact (hs.dropPitches _).copyBars _ _ _
  | clear _ =>
    have hdrop := hs.dropPitches e.position
    exact ⟨hdrop.parameters, hdrop.pitches, by simp [History.notes, History.empty, State.clear],
      hdrop.events⟩

theorem run_inRange {p : Performer} {elements : Elements} {s : State}
    (hproper : ∀ e ∈ elements, e.value.Proper) (h : elements.foldlM p.step .initial = .ok s) :
    s.InRange := by
  revert hproper
  refine run_induction (motive := fun elements s => (∀ e ∈ elements, e.value.Proper) → s.InRange)
    ?_ ?_ h
  · intro _
    exact ⟨usual_inRange, List.forall_mem_nil _, by simp [History.notes, History.empty,
      State.initial], List.forall_mem_nil _⟩
  · intro elements s e s' ih hstep hproper
    obtain ⟨hbefore, he⟩ := List.forall_mem_append.mp hproper
    exact step_inRange (ih hbefore) (he e (List.mem_singleton_self e)) hstep

/-- The notes that are left are among those that were placed, and none of them is a deletion. -/
lemma mem_applyDeletions {window : Float} {events : List Note} {n : Note}
    (h : n ∈ applyDeletions window events) : n ∈ events ∧ (n.velocity == 0.0) = false := by
  have hkept (kept : List Note) (hn : n ∈ events.foldl (keep window) kept) :
      n ∈ kept ∨ n ∈ events ∧ (n.velocity == 0.0) = false := by
    clear h
    induction events generalizing kept with
    | nil => exact .inl hn
    | cons e events ih =>
      rcases ih _ hn with hn | ⟨hn, hvelocity⟩
      · unfold keep at hn
        split_ifs at hn with hzero
        · exact .inl (List.mem_of_mem_eraseP hn)
        · rcases List.mem_cons.mp hn with rfl | hn
          · exact .inr ⟨List.mem_cons_self, by simpa using hzero⟩
          · exact .inl hn
      · exact .inr ⟨List.mem_cons_of_mem _ hn, hvelocity⟩
  rcases hkept [] (List.mem_reverse.mp h) with hn | hn
  · cases hn
  · exact hn

lemma mem_arrange {p : Performer} {events : List Note} {n : Note} (h : n ∈ p.arrange events) :
    ∃ m ∈ events, n = p.inQuarters m ∧ (n.velocity == 0.0) = false := by
  obtain ⟨hn, hvelocity⟩ := mem_applyDeletions (List.mem_mergeSort.mp h)
  obtain ⟨m, hm, rfl⟩ := List.mem_map.mp hn
  exact ⟨m, hm, rfl, hvelocity⟩

lemma Spread.one_le {velocity deviation : Float} {low high : UInt8}
    (h : Spread velocity deviation low high) (hzero : (velocity == 0.0) = false) : 1 ≤ low := by
  obtain ⟨-, -, rfl, -⟩ := h
  by_contra hlow
  obtain rfl : low = 0 := by
    rw [UInt8.le_iff_toNat_le] at hlow
    apply UInt8.toNat_inj.mp
    change low.toNat = 0
    change ¬ 1 ≤ low.toNat at hlow
    omega
  cases hzero

/-- The highest velocity is reached without a rounding error. -/
lemma Spread.sum_le {velocity deviation : Float} {low high : UInt8}
    (h : Spread velocity deviation low high) : velocity + deviation ≤ 127.0 := by
  obtain ⟨hle, hhigh, rfl, rfl⟩ := h
  have hfinite (n : UInt8) : n.toFloat.isFinite := by
    refine (isFinite_iff _).mpr ⟨isNaN_toFloat8 n, ?_⟩
    rw [value_toFloat8, Nat.abs_cast]
    have hn : (n.toNat : ℚ) < 2 ^ 64 := by exact_mod_cast n.toNat_lt.trans (by norm_num)
    exact hn.trans_le pow_le_reach
  have hsum := rounds_add (hfinite low) (hfinite (high - low))
  have htop : value (127 : UInt8).toFloat = 127 := value_toFloat8 127
  refine (le_iff hsum.isNaN_eq (isNaN_toFloat8 127)).mpr (hsum.le_value _ ?_)
  rw [UInt8.le_iff_toNat_le] at hle hhigh
  rw [htop, value_toFloat8, value_toFloat8, UInt8.toNat_sub_of_le _ _ hle]
  have hexact : low.toNat + (high.toNat - low.toNat) ≤ 127 := by
    change high.toNat ≤ 127 at hhigh
    omega
  exact_mod_cast hexact

/-- **Notes within range.** Whatever text, meter and settings, each note that is played has a MIDI
pitch, a whole velocity of 1 at least, a whole deviation that does not lead past 127, and a
probability. None of them is a deletion. -/
theorem compile_inRange {timing : Timing} {settings : Settings} {text : List Char}
    {performance : Performance} (h : compile timing settings text = .ok performance) :
    ∀ n ∈ performance.events, n.pitch ≤ 127 ∧
      (∃ low high : UInt8, 1 ≤ low ∧ low ≤ high ∧ high ≤ 127 ∧
        n.velocity = low.toFloat ∧ n.deviation = (high - low).toFloat) ∧
      n.velocity + n.deviation ≤ 127.0 ∧ (0.0 ≤ n.probability ∧ n.probability ≤ 1.0) ∧
      (n.velocity == 0.0) = false := by
  obtain ⟨signature, -, hrun⟩ := compile_eq_ok h
  obtain ⟨elements, s, hparse, hs, hevents⟩ := run_eq_ok hrun
  have hrange := run_inRange (proper_of_parse hparse) hs
  intro n hn
  rw [hevents] at hn
  obtain ⟨m, hm, rfl, hvelocity⟩ := mem_arrange hn
  have hplaced := hrange.events m hm
  obtain ⟨low, high, hspread⟩ := hplaced.parameters.velocity
  have hone : 1 ≤ low := hspread.one_le hvelocity
  have hsum : m.velocity + m.deviation ≤ 127.0 := hspread.sum_le
  obtain ⟨hle, hhigh, hlow, hdeviation⟩ := hspread
  exact ⟨hplaced.pitch, ⟨low, high, hone, hle, hhigh, hlow, hdeviation⟩, hsum,
    hplaced.parameters.probability, hvelocity⟩

/-- A range of velocities up to the highest, and a deletion that takes one of the two notes. -/
theorem compile_inRange_deleted :
    ∃ performance, compile .unstated .usual "v80-127 p0.25 C3 E3 1|1 v0 C3 |1".toList =
        .ok performance ∧
      performance.events = [⟨64, 0.0, 1.0, 80.0, 0.25, 47.0⟩] ∧
      ∀ n ∈ performance.events, n.pitch ≤ 127 ∧
        (∃ low high : UInt8, 1 ≤ low ∧ low ≤ high ∧ high ≤ 127 ∧
          n.velocity = low.toFloat ∧ n.deviation = (high - low).toFloat) ∧
        n.velocity + n.deviation ≤ 127.0 ∧ (0.0 ≤ n.probability ∧ n.probability ≤ 1.0) ∧
        (n.velocity == 0.0) = false := by
  have hevents : (compile .unstated .usual
      "v80-127 p0.25 C3 E3 1|1 v0 C3 |1".toList).toOption.map (·.events) =
        some [⟨64, 0.0, 1.0, 80.0, 0.25, 47.0⟩] := by decide +kernel
  obtain ⟨performance, h, hleft⟩ := exists_performance hevents
  exact ⟨performance, h, hleft, compile_inRange h⟩

end Barline.Score
