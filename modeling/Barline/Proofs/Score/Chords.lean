import Barline.Proofs.Meter.Filing
import Barline.Proofs.Score.Performing
import Barline.Proofs.Score.Spaced

/-!
# Chords, engraved and performed

The engraver writes a marking only where it differs from the one in effect, and a bar only where it
is not the last one written. The performer keeps in step: after each chord its parameters are what
the markings in effect stand for, and its bar is the last one written.
-/

namespace Barline.Score

open Number

/-- Elements of these values lead from any state of one kind to a state of another. -/
def Leads (p : Performer) (R : State → Prop) (es : List Element) (R' : State → Prop) : Prop :=
  ∀ s, R s → ∀ elements : Elements, elements.map (·.value) = es →
    ∃ s', elements.foldlM p.step s = .ok s' ∧ R' s'

/-- Elements of these values are refused in any state of one kind. -/
def Fails (p : Performer) (R : State → Prop) (es : List Element) : Prop :=
  ∀ s, R s → ∀ elements : Elements, elements.map (·.value) = es →
    ∃ e, elements.foldlM p.step s = .error e

section

variable {p : Performer} {R R' R'' : State → Prop} {es fs : List Element}

lemma Leads.nil (h : ∀ s, R s → R' s) : Leads p R [] R' := by
  intro s hs elements he
  obtain rfl := List.map_eq_nil_iff.mp he
  exact ⟨s, rfl, h s hs⟩

lemma Leads.single {e : Element}
    (h : ∀ s, R s → ∀ position, ∃ s', p.step s ⟨e, position⟩ = .ok s' ∧ R' s') :
    Leads p R [e] R' := by
  intro s hs elements he
  obtain ⟨element, rest, rfl, hvalue, hrest⟩ := List.map_eq_cons_iff.mp he
  obtain rfl := List.map_eq_nil_iff.mp hrest
  obtain ⟨s', hs', hR'⟩ := h s hs element.position
  refine ⟨s', ?_, hR'⟩
  rw [List.foldlM_cons, show element = ⟨e, element.position⟩ by rw [← hvalue], hs']
  rfl

lemma Fails.single {e : Element}
    (h : ∀ s, R s → ∀ position, ∃ x, p.step s ⟨e, position⟩ = .error x) : Fails p R [e] := by
  intro s hs elements he
  obtain ⟨element, rest, rfl, hvalue, hrest⟩ := List.map_eq_cons_iff.mp he
  obtain ⟨x, hx⟩ := h s hs element.position
  refine ⟨x, ?_⟩
  rw [List.foldlM_cons, show element = ⟨e, element.position⟩ by rw [← hvalue], hx]
  rfl

lemma Leads.append (h : Leads p R es R') (h' : Leads p R' fs R'') : Leads p R (es ++ fs) R'' := by
  intro s hs elements he
  obtain ⟨front, back, rfl, hfront, hback⟩ := List.map_eq_append_iff.mp he
  obtain ⟨s', hs', hR'⟩ := h s hs front hfront
  obtain ⟨s'', hs'', hR''⟩ := h' s' hR' back hback
  exact ⟨s'', by rw [List.foldlM_append, hs']; exact hs'', hR''⟩

lemma Leads.append_fails (h : Leads p R es R') (h' : Fails p R' fs) : Fails p R (es ++ fs) := by
  intro s hs elements he
  obtain ⟨front, back, rfl, hfront, hback⟩ := List.map_eq_append_iff.mp he
  obtain ⟨s', hs', hR'⟩ := h s hs front hfront
  obtain ⟨x, hx⟩ := h' s' hR' back hback
  exact ⟨x, by rw [List.foldlM_append, hs']; exact hx⟩

lemma Fails.append (h : Fails p R es) (fs : List Element) : Fails p R (es ++ fs) := by
  intro s hs elements he
  obtain ⟨front, back, rfl, hfront, -⟩ := List.map_eq_append_iff.mp he
  obtain ⟨x, hx⟩ := h s hs front hfront
  exact ⟨x, by rw [List.foldlM_append, hx]; rfl⟩

end

/-- A word that is read as a change. -/
def Signals (perBar : Float) (w : List Char) (c : Change) : Prop :=
  ∃ e, Reads w e ∧ e.change? perBar = some c

lemma Signals.eq {perBar : Float} {w : List Char} {c c' : Change} (h : Signals perBar w c)
    (h' : Signals perBar w c') : c = c' := by
  obtain ⟨e, he, hc⟩ := h
  obtain ⟨e', he', hc'⟩ := h'
  obtain rfl := he.eq he'
  exact Option.some.inj (hc.symm.trans hc')

/-- Markings that stand for parameters. -/
structure Markings.Gives (perBar : Float) (m : Markings) (P : Parameters) : Prop where
  velocity : Signals perBar m.velocity (.velocity P.velocity P.deviation)
  duration : Signals perBar ('t' :: m.duration) (.duration P.duration)
  probability : Signals perBar ('p' :: m.probability) (.probability P.probability)

section

variable {p : Performer} {bar : Option UInt32} {events : List Note}

/-- A word is left out only where it would change nothing. -/
lemma leads_word (bar : Option UInt32) (events : List Note) {P : Parameters} {w w' : List Char}
    {c c' : Change} (h : Signals p.signature.beatsPerBar w c)
    (h' : Signals p.signature.beatsPerBar w' c') (hc : c.apply P = P) :
    ∃ es, List.Forall₂ Reads (if w' = w then [] else [w']) es ∧
      Leads p (Follows P bar events) es (Follows (c'.apply P) bar events) := by
  by_cases hw : w' = w
  · rw [if_pos hw]
    rw [hw] at h'
    rw [← h.eq h', hc]
    exact ⟨[], .nil, .nil fun _ hs => hs⟩
  · obtain ⟨e, he, hce⟩ := h'
    rw [if_neg hw]
    refine ⟨[e], .cons he .nil, .single fun s hs position => ?_⟩
    exact ⟨_, step_change hce position, hs.change c' position⟩

/-- The words between two markings lead from what the one stands for to what the other does. -/
theorem leads_changes (bar : Option UInt32) (events : List Note) {m m' : Markings}
    {P P' : Parameters} (hm : m.Gives p.signature.beatsPerBar P)
    (hm' : m'.Gives p.signature.beatsPerBar P') :
    ∃ es, List.Forall₂ Reads (m.changes m') es ∧
      Leads p (Follows P bar events) es (Follows P' bar events) := by
  obtain ⟨vs, hvs, hv⟩ := leads_word bar events (P := P) hm.velocity hm'.velocity rfl
  obtain ⟨ds, hds, hd⟩ := leads_word bar events
    (P := (Change.velocity P'.velocity P'.deviation).apply P) hm.duration hm'.duration rfl
  obtain ⟨qs, hqs, hq⟩ := leads_word bar events
    (P := (Change.duration P'.duration).apply ((Change.velocity P'.velocity P'.deviation).apply P))
    hm.probability hm'.probability rfl
  simp only [List.cons.injEq, true_and] at hds hqs
  exact ⟨vs ++ ds ++ qs, List.rel_append (List.rel_append hvs hds) hqs, (hv.append hd).append hq⟩

lemma leads_pitch {P : Parameters} {pitches : List UInt8} (pitch : UInt8) :
    Leads p (Gathers P bar events pitches) [.pitch pitch]
      (Gathers P bar events (pitches ++ [pitch])) :=
  .single fun _ hs position => ⟨_, rfl, hs.addPitch pitch position⟩

lemma leads_more_pitches {P : Parameters} (pitches more : List UInt8) :
    Leads p (Gathers P bar events pitches) (more.map .pitch)
      (Gathers P bar events (pitches ++ more)) := by
  induction more generalizing pitches with
  | nil => exact .nil fun _ hs => by simpa using hs
  | cons pitch more ih =>
    have h := (leads_pitch pitch).append (ih (pitches ++ [pitch]))
    rwa [List.append_assoc] at h

lemma leads_pitches {P : Parameters} {pitches : List UInt8} (hne : pitches ≠ []) :
    Leads p (Follows P bar events) (pitches.map .pitch) (Gathers P bar events pitches) := by
  obtain ⟨pitch, more, rfl⟩ := List.exists_cons_of_ne_nil hne
  have hfirst : Leads p (Follows P bar events) [.pitch pitch] (Gathers P bar events [pitch]) :=
    .single fun _ hs position => ⟨_, rfl, hs.addPitch pitch position⟩
  exact hfirst.append (leads_more_pitches [pitch] more)

/-- The number that the beat of a chord is read as. -/
def Chord.beat? (perBar : Float) (c : Chord) : Option Float :=
  amount? (amountText (Meter.barBeat c.start perBar).2)

/-- Where a chord lands when its beat is read as `x`. -/
def Chord.landing (perBar : Float) (c : Chord) (x : Float) : Float :=
  Meter.beatsAt (Meter.barBeat c.start perBar).1 x perBar

/-- A beat that is read as one of a bar. -/
def Chord.OnBeat (perBar : Float) (c : Chord) : Prop :=
  ∃ x, c.beat? perBar = some x ∧ ¬ x < 1.0

/-- A chord of which each word is read as what it was written for. -/
structure Chord.Legible (perBar : Float) (c : Chord) : Prop where
  markings : ∃ P, c.markings.Gives perBar P
  pitches_ne_nil : c.pitches ≠ []
  pitches : ∀ pitch ∈ c.pitches, pitch ≤ 127
  onBeat : c.OnBeat perBar

/-- What a note is written from: its start in beats, its markings and its pitch. -/
def Chord.entries (c : Chord) : List (Float × Markings × UInt8) :=
  c.pitches.map (c.start, c.markings, ·)

/-- A note as it sounds in beats when it is read from what was written. -/
def Sounds (perBar : Float) : Float × Markings × UInt8 → Note → Prop
  | (start, markings, pitch), note => ∃ P x, markings.Gives perBar P ∧
      amount? (amountText (Meter.barBeat start perBar).2) = some x ∧
      note = Pending.note (Meter.beatsAt (Meter.barBeat start perBar).1 x perBar) ⟨pitch, P⟩

lemma Chord.sounds {perBar : Float} {c : Chord} {P : Parameters} (hP : c.markings.Gives perBar P)
    {x : Float} (hx : c.beat? perBar = some x) :
    List.Forall₂ (Sounds perBar) c.entries (chordNotes P (c.landing perBar x) c.pitches) := by
  unfold Chord.entries chordNotes
  rw [List.forall₂_map_left_iff, List.forall₂_map_right_iff, List.forall₂_same]
  exact fun pitch _ => ⟨P, x, hP, hx, rfl⟩

/-- The words of a chord, given the markings in effect and the last bar that was written. -/
def Chord.wordsAfter (perBar : Float) (inEffect : Markings) (last : Option UInt32) (c : Chord) :
    List (List Char) :=
  let (bar, beat) := Meter.barBeat c.start perBar
  inEffect.changes c.markings ++ c.words bar beat (last = some bar)

/-- The bar of a chord, if it is not the last one that was written. -/
def Chord.bar? (perBar : Float) (last : Option UInt32) (c : Chord) : Option UInt32 :=
  if last = some (Meter.barBeat c.start perBar).1 then none
  else some (Meter.barBeat c.start perBar).1

/-- The place of a chord as it is written. -/
def Chord.placeText (perBar : Float) (last : Option UInt32) (c : Chord) : List Char :=
  barText (c.bar? perBar last) ++ '|' :: amountText (Meter.barBeat c.start perBar).2

lemma Chord.wordsAfter_eq (perBar : Float) (m : Markings) (last : Option UInt32) (c : Chord) :
    c.wordsAfter perBar m last =
      m.changes c.markings ++ c.pitches.map Pitch.name ++ [c.placeText perBar last] := by
  unfold Chord.wordsAfter Chord.words Chord.placeText Chord.bar?
  by_cases h : last = some (Meter.barBeat c.start perBar).1 <;> simp [barText, h]

lemma Chord.bar?_ne_zero (perBar : Float) (last : Option UInt32) (c : Chord) :
    c.bar? perBar last ≠ some 0 := by
  unfold Chord.bar?
  split_ifs
  · simp
  · simpa using Meter.barBeat_ne_zero c.start perBar

lemma Chord.bar?_orElse (perBar : Float) (last : Option UInt32) (c : Chord) :
    (c.bar? perBar last <|> last) = some (Meter.barBeat c.start perBar).1 := by
  unfold Chord.bar?
  split_ifs with h
  · rw [← h]
    rfl
  · rfl

lemma amount?_eq_some {x y : Float} (h : amount? (amountText x) = some y) :
    ∃ d : Decimal, d.Proper ∧ amountText x = d.text ∧ d.value = y := by
  obtain ⟨d, hd, htext⟩ | ⟨c, rest, htext, hc⟩ := amountText_cases x
  · rw [htext, amount?_text hd] at h
    exact ⟨d, hd, htext, Option.some.inj h⟩
  · rw [htext, amount?_of_sign hc] at h
    cases h

lemma Chord.reads_placeText {perBar : Float} {c : Chord} {x : Float}
    (hx : c.beat? perBar = some x) (hone : ¬ x < 1.0) (last : Option UInt32) :
    Reads (c.placeText perBar last) (.position (c.bar? perBar last) (.single x)) := by
  obtain ⟨d, hd, htext, rfl⟩ := amount?_eq_some hx
  have h := reads_place (c.bar?_ne_zero perBar last) hd hone
  rwa [← htext] at h

/-- A chord is performed at the bar and beat that are written, unless they lie past the last
bar. -/
theorem Chord.Legible.performed {c : Chord} (hc : c.Legible p.signature.beatsPerBar)
    (bar : Option UInt32) (events : List Note) {m : Markings} {P : Parameters}
    (hm : m.Gives p.signature.beatsPerBar P) :
    let perBar := p.signature.beatsPerBar
    ∃ es x P', List.Forall₂ Reads (c.wordsAfter perBar m bar) es ∧
      c.beat? perBar = some x ∧ c.markings.Gives perBar P' ∧
      if Meter.inRange (c.landing perBar x) perBar then
        Leads p (Follows P bar events) es (Follows P' (some (Meter.barBeat c.start perBar).1)
          (events ++ chordNotes P' (c.landing perBar x) c.pitches))
      else Fails p (Follows P bar events) es := by
  intro perBar
  obtain ⟨P', hP'⟩ := hc.markings
  obtain ⟨x, hx, hone⟩ := hc.onBeat
  obtain ⟨changes, hreads, hchanges⟩ := leads_changes bar events hm hP'
  have hpitches : List.Forall₂ Reads (c.pitches.map Pitch.name) (c.pitches.map .pitch) := by
    rw [List.forall₂_map_left_iff, List.forall₂_map_right_iff, List.forall₂_same]
    exact fun pitch hpitch => reads_pitch (hc.pitches pitch hpitch)
  have hplace := c.reads_placeText hx hone bar
  have hgather := hchanges.append (leads_pitches hc.pitches_ne_nil)
  refine ⟨changes ++ c.pitches.map .pitch ++ [.position (c.bar? perBar bar) (.single x)], x, P', ?_,
    hx, hP', ?_⟩
  · rw [c.wordsAfter_eq]
    exact List.rel_append (List.rel_append hreads hpitches) (.cons hplace .nil)
  · have hset := fun s (hs : Gathers P' bar events c.pitches s) =>
      hs.place perBar p.settings.repeatLimit (c.bar?_orElse perBar bar) x
    unfold Chord.landing
    split_ifs with hrange
    · refine hgather.append (.single fun s hs position => ?_)
      have h := hset s hs position
      rwa [if_pos hrange] at h
    · refine hgather.append_fails (.single fun s hs position => ?_)
      have h := hset s hs position
      rwa [if_neg hrange] at h

end

end Barline.Score
