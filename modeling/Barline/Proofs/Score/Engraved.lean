import Barline.Proofs.Score.Chords

/-!
# Engraved scores

An engraved score is the words of its chords in order, with a blank between each two. It is
performed chord by chord; it is refused where one word is not read as what it was written for, or
where one chord lands past the last bar.
-/

namespace Barline.Score

lemma Spaced.append {us vs : List (List Char)} {s t : List Char} (hs : Spaced us s)
    (ht : Spaced vs t) (hu : us ≠ []) (hv : vs ≠ []) {b : Char} (hb : isBlank b) :
    Spaced (us ++ vs) (s ++ b :: t) := by
  induction hs with
  | nil => exact absurd rfl hu
  | single w =>
    obtain ⟨v, vs, rfl⟩ := List.exists_cons_of_ne_nil hv
    exact .cons w hb ht
  | cons w hc _ ih =>
    rw [List.append_assoc, List.cons_append]
    exact .cons w hc (ih (by simp))

lemma spaced_line (ws : List (List Char)) : Spaced ws ([' '].intercalate ws) := by
  induction ws with
  | nil => exact .nil
  | cons w ws ih =>
    cases ws with
    | nil => simpa [List.intercalate] using Spaced.single w
    | cons v ws =>
      have h := Spaced.cons w (by decide : isBlank ' ') ih
      simpa [List.intercalate, List.intersperse] using h

lemma spaced_lines {lines : List (List (List Char))} (hne : ∀ line ∈ lines, line ≠ []) :
    Spaced lines.flatten (['\n'].intercalate (lines.map ([' '].intercalate ·))) := by
  induction lines with
  | nil => exact .nil
  | cons line lines ih =>
    cases lines with
    | nil => simpa [List.intercalate] using spaced_line line
    | cons next lines =>
      have hrest : (next :: lines).flatten ≠ [] := by simp [hne next (by simp)]
      have h := (spaced_line line).append (ih fun l hl => hne l (by simp [List.mem_cons.mp hl]))
        (hne line (by simp)) hrest (by decide : isBlank '\n')
      simpa [List.intercalate, List.intersperse] using h

/-- The words of a score, given the markings in effect and the last bar that was written. -/
def wordsFrom (perBar : Float) (inEffect : Markings) (last : Option UInt32) :
    List Chord → List (List Char)
  | [] => []
  | c :: chords => c.wordsAfter perBar inEffect last ++
      wordsFrom perBar c.markings (some (Meter.barBeat c.start perBar).1) chords

section

variable {perBar : Float} {m : Markings} {chords : List Chord}

lemma linesFrom_flatten (bar : UInt32) (line : List (List Char)) :
    (linesFrom perBar m bar line chords).flatten =
      line ++ wordsFrom perBar m (some bar) chords := by
  induction chords generalizing m bar line with
  | nil => simp [linesFrom, wordsFrom]
  | cons c chords ih =>
    unfold linesFrom wordsFrom Chord.wordsAfter
    dsimp only
    split_ifs with h
    · rw [ih, h]
      simp
    · rw [List.flatten_cons, ih]
      simp [Ne.symm h]

lemma lines_flatten : (lines perBar chords).flatten = wordsFrom perBar .usual none chords := by
  cases chords with
  | nil => rfl
  | cons c chords =>
    unfold lines wordsFrom Chord.wordsAfter
    dsimp only
    rw [linesFrom_flatten]
    simp

lemma linesFrom_ne_nil (bar : UInt32) {line : List (List Char)} (hline : line ≠ []) :
    ∀ l ∈ linesFrom perBar m bar line chords, l ≠ [] := by
  induction chords generalizing m bar line with
  | nil => simpa [linesFrom] using hline
  | cons c chords ih =>
    unfold linesFrom
    dsimp only
    split_ifs
    · exact ih bar (by simp [hline])
    · intro l hl
      rcases List.mem_cons.mp hl with rfl | hl
      · exact hline
      · exact ih _ (by simp [Chord.words]) l hl

lemma lines_ne_nil : ∀ l ∈ lines perBar chords, l ≠ [] := by
  cases chords with
  | nil => simp [lines]
  | cons c chords => exact linesFrom_ne_nil _ (by simp [Chord.words])

/-- The text of a score. -/
def scoreText (perBar : Float) (chords : List Chord) : List Char :=
  ['\n'].intercalate ((lines perBar chords).map ([' '].intercalate ·))

theorem spaced_scoreText :
    Spaced (wordsFrom perBar .usual none chords) (scoreText perBar chords) := by
  rw [← lines_flatten]
  exact spaced_lines lines_ne_nil

end

section

variable {p : Performer} {chords : List Chord} {m : Markings} {P : Parameters}

/-- A chord that does not land past the last bar. -/
def Chord.Fits (perBar : Float) (c : Chord) : Prop :=
  ∃ x, c.beat? perBar = some x ∧ Meter.inRange (c.landing perBar x) perBar

lemma Chord.fits_iff {perBar : Float} {c : Chord} {x : Float} (hx : c.beat? perBar = some x) :
    c.Fits perBar ↔ Meter.inRange (c.landing perBar x) perBar := by
  refine ⟨?_, fun h => ⟨x, hx, h⟩⟩
  rintro ⟨y, hy, h⟩
  rwa [Option.some.inj (hx.symm.trans hy)]

/-- The elements of a legible score place all its notes, or are refused at the first chord that
does not fit. -/
theorem score_performed (h : ∀ c ∈ chords, c.Legible p.signature.beatsPerBar)
    (hm : m.Gives p.signature.beatsPerBar P) (bar : Option UInt32) (events : List Note) :
    let perBar := p.signature.beatsPerBar
    ∃ es, List.Forall₂ Reads (wordsFrom perBar m bar chords) es ∧
      ((∀ c ∈ chords, c.Fits perBar) →
        ∃ placed, List.Forall₂ (Sounds perBar) (chords.flatMap Chord.entries) placed ∧
          Leads p (Follows P bar events) es fun s => s.events.toList = events ++ placed) ∧
      ((∃ c ∈ chords, ¬ c.Fits perBar) → Fails p (Follows P bar events) es) := by
  intro perBar
  induction chords generalizing m P bar events with
  | nil =>
    refine ⟨[], .nil, fun _ => ⟨[], .nil, .nil fun s hs => by simp [hs.events]⟩, ?_⟩
    rintro ⟨c, hc, -⟩
    cases hc
  | cons c chords ih =>
    obtain ⟨es, x, P', hes, hx, hP', hland⟩ := (h c (by simp)).performed bar events hm
    obtain ⟨fs, hfs, hok, herror⟩ := ih (fun c hc => h c (by simp [hc])) hP'
      (some (Meter.barBeat c.start perBar).1)
      (events ++ chordNotes P' (c.landing perBar x) c.pitches)
    refine ⟨es ++ fs, List.rel_append hes hfs, fun hfits => ?_, ?_⟩
    · obtain ⟨placed, hsounds, hleads⟩ := hok fun c hc => hfits c (by simp [hc])
      rw [if_pos ((Chord.fits_iff hx).mp (hfits c (by simp)))] at hland
      refine ⟨chordNotes P' (c.landing perBar x) c.pitches ++ placed, ?_, ?_⟩
      · rw [List.flatMap_cons]
        exact List.rel_append (Chord.sounds hP' hx) hsounds
      · rw [← List.append_assoc]
        exact hland.append hleads
    · rintro ⟨d, hd, hnot⟩
      by_cases hc : c.Fits perBar
      · rw [if_pos ((Chord.fits_iff hx).mp hc)] at hland
        refine hland.append_fails (herror ⟨d, ?_, hnot⟩)
        rcases List.mem_cons.mp hd with rfl | hd
        · exact absurd hc hnot
        · exact hd
      · rw [if_neg fun hrange => hc ((Chord.fits_iff hx).mpr hrange)] at hland
        exact hland.append fs

end

/-- A word that is read as one element wherever it stands, or refused wherever it stands. -/
def Settled (w : List Char) : Prop := Unreadable w ∨ ∃ e, Reads w e

/-- Markings of which each is readable or refused. -/
structure Markings.Settled (m : Markings) : Prop where
  velocity : Score.Settled m.velocity
  duration : Score.Settled ('t' :: m.duration)
  probability : Score.Settled ('p' :: m.probability)

/-- Markings of which one is refused. -/
def Markings.Garbled (m : Markings) : Prop :=
  Unreadable m.velocity ∨ Unreadable ('t' :: m.duration) ∨ Unreadable ('p' :: m.probability)

section

variable {perBar : Float} {m : Markings} {last : Option UInt32} {chords : List Chord}

lemma settled_pitch (pitch : UInt8) : Settled (Pitch.name pitch) := by
  by_cases h : pitch ≤ 127
  · exact .inr ⟨_, reads_pitch h⟩
  · exact .inl (unreadable_pitch h)

lemma Chord.unreadable_placeText {c : Chord} (h : ¬ c.OnBeat perBar) (last : Option UInt32) :
    Unreadable (c.placeText perBar last) := by
  refine unreadable_place (c.bar?_ne_zero perBar last) fun s hs => ?_
  obtain ⟨d, hd, htext⟩ | ⟨b, rest, htext, hb⟩ :=
    amountText_cases (Meter.barBeat c.start perBar).2
  · rw [htext]
    refine refuses_beat_early hd ?_ hs
    by_contra hone
    refine h ⟨d.value, ?_, hone⟩
    rw [Chord.beat?, htext, amount?_text hd]
  · rw [htext]
    exact refuses_beat hb _

lemma Chord.settled_placeText (c : Chord) (last : Option UInt32) :
    Settled (c.placeText perBar last) := by
  by_cases h : c.OnBeat perBar
  · obtain ⟨x, hx, hone⟩ := h
    exact .inr ⟨_, c.reads_placeText hx hone last⟩
  · exact .inl (Chord.unreadable_placeText h last)

lemma Markings.settled_changes (m : Markings) {m' : Markings} (h : m'.Settled) :
    ∀ w ∈ m.changes m', Score.Settled w := by
  intro w hw
  unfold Markings.changes at hw
  simp only [List.mem_append, List.mem_ite_nil_left, List.mem_singleton] at hw
  rcases hw with (⟨-, rfl⟩ | ⟨-, rfl⟩) | ⟨-, rfl⟩
  · exact h.velocity
  · exact h.duration
  · exact h.probability

lemma settled_wordsFrom (h : ∀ c ∈ chords, c.markings.Settled) :
    ∀ w ∈ wordsFrom perBar m last chords, Settled w := by
  induction chords generalizing m last with
  | nil => simp [wordsFrom]
  | cons c chords ih =>
    intro w hw
    unfold wordsFrom at hw
    rw [c.wordsAfter_eq] at hw
    simp only [List.mem_append, List.mem_map, List.mem_singleton] at hw
    obtain ((hw | ⟨pitch, -, rfl⟩) | rfl) | hw := hw
    · exact m.settled_changes (h c (by simp)) w hw
    · exact settled_pitch pitch
    · exact c.settled_placeText last
    · exact ih (fun c hc => h c (by simp [hc])) w hw

/-- Garbled markings differ from those in effect, so the garbled one is written. -/
lemma Markings.Gives.unreadable_changes {P : Parameters} (hm : m.Gives perBar P) {m' : Markings}
    (h : m'.Garbled) : ∃ w ∈ m.changes m', Unreadable w := by
  have hne {w w' : List Char} {c : Change} (hw : Signals perBar w c) (hw' : Unreadable w') :
      w' ≠ w := by
    rintro rfl
    obtain ⟨e, he, -⟩ := hw
    exact he.not_unreadable hw'
  unfold Markings.changes
  rcases h with h | h | h
  · exact ⟨_, by simp [hne hm.velocity h], h⟩
  · refine ⟨_, ?_, h⟩
    have := hne hm.duration h
    simp [show m'.duration ≠ m.duration by simpa using this]
  · refine ⟨_, ?_, h⟩
    have := hne hm.probability h
    simp [show m'.probability ≠ m.probability by simpa using this]

/-- A chord that is not legible leaves a word in the score that is refused. -/
theorem unreadable_wordsFrom {P : Parameters} (hm : m.Gives perBar P)
    (h : ∀ c ∈ chords, c.pitches ≠ [] ∧ ((∃ P, c.markings.Gives perBar P) ∨ c.markings.Garbled))
    (hbad : ∃ c ∈ chords, ¬ c.Legible perBar) :
    ∃ w ∈ wordsFrom perBar m last chords, Unreadable w := by
  induction chords generalizing m P last with
  | nil => simp at hbad
  | cons c chords ih =>
    unfold wordsFrom
    rw [c.wordsAfter_eq]
    simp only [List.mem_append, List.mem_map, List.mem_singleton]
    obtain ⟨hne, ⟨P', hP'⟩ | hgarbled⟩ := h c (by simp)
    · by_cases hpitches : ∀ pitch ∈ c.pitches, pitch ≤ 127
      · by_cases hbeat : c.OnBeat perBar
        · have hrest : ∃ c ∈ chords, ¬ c.Legible perBar := by
            obtain ⟨d, hd, hnot⟩ := hbad
            rcases List.mem_cons.mp hd with rfl | hd
            · exact absurd ⟨⟨P', hP'⟩, hne, hpitches, hbeat⟩ hnot
            · exact ⟨d, hd, hnot⟩
          obtain ⟨w, hw, hbad⟩ := ih hP' (fun c hc => h c (by simp [hc])) hrest
          exact ⟨w, .inr hw, hbad⟩
        · exact ⟨_, .inl (.inr rfl), Chord.unreadable_placeText hbeat last⟩
      · simp only [not_forall, exists_prop] at hpitches
        obtain ⟨pitch, hpitch, hlarge⟩ := hpitches
        exact ⟨_, .inl (.inl (.inr ⟨pitch, hpitch, rfl⟩)), unreadable_pitch hlarge⟩
    · obtain ⟨w, hw, hbad⟩ := hm.unreadable_changes hgarbled
      exact ⟨w, .inl (.inl (.inl hw)), hbad⟩

end

end Barline.Score
