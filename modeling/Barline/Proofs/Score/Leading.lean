import Barline.Proofs.Score.Engraved

/-!
# The chords of a list of notes

What the markings of a note are read as, and which note leads the chord that each note is written
in.
-/

namespace Barline.Score

open Binary64 Number

/-- The deviation that is engraved for a note. -/
def engravedDeviation (velocity deviation : Float) : Float :=
  if lowVelocity velocity < highVelocity velocity deviation then
    (highVelocity velocity deviation - lowVelocity velocity).toFloat
  else 0.0

section

variable {perBar : Float} {n : Note} {beats : Float}

lemma signals_velocity (perBar velocity deviation : Float) :
    Signals perBar (velocityText velocity deviation)
      (.velocity (lowVelocity velocity).toFloat (engravedDeviation velocity deviation)) := by
  refine ⟨velocityMark (lowVelocity velocity) (highVelocity velocity deviation), ?_, ?_⟩
  · rw [velocityText_eq]
    exact reads_velocity (lowVelocity_le velocity) (highVelocity_le velocity deviation)
  · unfold velocityMark engravedDeviation
    split_ifs <;> rfl

lemma signals_duration (perBar : Float) (h : (larger beats smallestAmount * precision).isFinite) :
    ∃ x, amount? (amountText (larger beats smallestAmount)) = some x ∧
      Signals perBar ('t' :: amountText (larger beats smallestAmount)) (.duration x) := by
  obtain ⟨d, hd, htext, hpos⟩ := duration_readable h
  rw [htext]
  exact ⟨d.value, amount?_text hd, _, reads_duration hd hpos, rfl⟩

lemma signals_probability (perBar : Float) {x : Float} (h : x.isNaN = false) :
    ∃ y, amount? (amountText (clamp 0.0 1.0 x)) = some y ∧
      Signals perBar ('p' :: amountText (clamp 0.0 1.0 x)) (.probability y) := by
  obtain ⟨d, hd, htext, h0, h1⟩ := probability_readable h
  rw [htext]
  exact ⟨d.value, amount?_text hd, _, reads_probability hd h0 h1, rfl⟩

lemma usual_gives : Markings.usual.Gives perBar .usual where
  velocity := by
    have hlow : (lowVelocity Note.usualVelocity).toFloat = Note.usualVelocity := by decide +kernel
    have hdeviation : engravedDeviation Note.usualVelocity 0.0 = 0.0 := by decide +kernel
    have h := signals_velocity perBar Note.usualVelocity 0.0
    rwa [hlow, hdeviation] at h
  duration := by
    have hone : larger Note.usualDuration smallestAmount = Note.usualDuration := rfl
    have hread : amount? (amountText Note.usualDuration) = some Note.usualDuration := by
      decide +kernel
    obtain ⟨x, hx, h⟩ := signals_duration perBar
      (rfl : (larger Note.usualDuration smallestAmount * precision).isFinite)
    rw [hone] at hx h
    obtain rfl : Note.usualDuration = x := Option.some.inj (hread.symm.trans hx)
    dsimp only [Markings.usual, Parameters.usual]
    exact h
  probability := by
    have hone : clamp 0.0 1.0 Note.usualProbability = Note.usualProbability := rfl
    have hread : amount? (amountText Note.usualProbability) = some Note.usualProbability := by
      decide +kernel
    obtain ⟨x, hx, h⟩ := signals_probability perBar
      (rfl : Note.usualProbability.isNaN = false)
    rw [hone] at hx h
    obtain rfl : Note.usualProbability = x := Option.some.inj (hread.symm.trans hx)
    dsimp only [Markings.usual, Parameters.usual]
    exact h

lemma unreadable_of_duration (h : ¬ (larger beats smallestAmount * precision).isFinite) :
    Unreadable ('t' :: (Markings.of n beats).duration) := by
  rw [Bool.not_eq_true] at h
  obtain ⟨c, rest, htext, hc⟩ := duration_unreadable h
  rw [show (Markings.of n beats).duration = c :: rest from htext]
  exact unreadable_duration hc rest

lemma unreadable_of_probability (h : ¬ n.probability.isNaN = false) :
    Unreadable ('p' :: (Markings.of n beats).probability) := by
  rw [Bool.not_eq_false] at h
  rw [show (Markings.of n beats).probability = ['N', 'a', 'N'] from probability_unreadable h]
  exact unreadable_probability (by simp) _

/-- Markings stand for parameters exactly if the duration is finite as it is written and the
probability is a number. -/
lemma Markings.gives_iff : (∃ P, (Markings.of n beats).Gives perBar P) ↔
    (larger beats smallestAmount * precision).isFinite ∧ n.probability.isNaN = false := by
  constructor
  · rintro ⟨P, h⟩
    constructor
    · by_contra hnot
      obtain ⟨e, he, -⟩ := h.duration
      exact he.not_unreadable (unreadable_of_duration hnot)
    · by_contra hnot
      obtain ⟨e, he, -⟩ := h.probability
      exact he.not_unreadable (unreadable_of_probability hnot)
  · rintro ⟨hfinite, hnumber⟩
    obtain ⟨x, -, hx⟩ := signals_duration perBar hfinite
    obtain ⟨y, -, hy⟩ := signals_probability perBar hnumber
    exact ⟨⟨_, _, x, y⟩, signals_velocity perBar n.velocity n.deviation, hx, hy⟩

lemma Markings.gives_or_garbled (n : Note) (beats : Float) :
    (∃ P, (Markings.of n beats).Gives perBar P) ∨ (Markings.of n beats).Garbled := by
  rw [Markings.gives_iff]
  by_cases hfinite : (larger beats smallestAmount * precision).isFinite
  · by_cases hnumber : n.probability.isNaN = false
    · exact .inl ⟨hfinite, hnumber⟩
    · exact .inr (.inr (.inr (unreadable_of_probability hnumber)))
  · exact .inr (.inr (.inl (unreadable_of_duration hfinite)))

lemma Markings.settled_of_note (n : Note) (beats : Float) : (Markings.of n beats).Settled where
  velocity := by
    obtain ⟨e, he, -⟩ := signals_velocity 0.0 n.velocity n.deviation
    exact .inr ⟨e, he⟩
  duration := by
    by_cases hfinite : (larger beats smallestAmount * precision).isFinite
    · obtain ⟨x, -, e, he, -⟩ := signals_duration 0.0 hfinite
      exact .inr ⟨e, he⟩
    · exact .inl (unreadable_of_duration hfinite)
  probability := by
    by_cases hnumber : n.probability.isNaN = false
    · obtain ⟨x, -, e, he, -⟩ := signals_probability 0.0 hnumber
      exact .inr ⟨e, he⟩
    · exact .inl (unreadable_of_probability hnumber)

/-- The parameters that the markings of a note stand for are what their texts are read as. -/
lemma Markings.Gives.of_note {P : Parameters} (h : (Markings.of n beats).Gives perBar P) :
    P.velocity = (lowVelocity n.velocity).toFloat ∧
      P.deviation = engravedDeviation n.velocity n.deviation ∧
      amount? (amountText (larger beats smallestAmount)) = some P.duration ∧
      amount? (amountText (clamp 0.0 1.0 n.probability)) = some P.probability := by
  obtain ⟨hfinite, hnumber⟩ := Markings.gives_iff.mp ⟨P, h⟩
  obtain ⟨x, hx, hduration⟩ := signals_duration perBar hfinite
  obtain ⟨y, hy, hprobability⟩ := signals_probability perBar hnumber
  have h1 := h.velocity.eq (signals_velocity perBar n.velocity n.deviation)
  have h2 := h.duration.eq hduration
  have h3 := h.probability.eq hprobability
  rw [Change.velocity.injEq] at h1
  rw [Change.duration.injEq] at h2
  rw [Change.probability.injEq] at h3
  exact ⟨h1.1, h1.2, h2 ▸ hx, h3 ▸ hy⟩

end

/-- Each note with the first note of its chord, where the chord of `first` is being gathered. -/
def ledFrom (signature : Signature) (first : Note) : List Note → List (Note × Note)
  | [] => []
  | n :: notes =>
    if (Chord.single signature first).admits (.single signature n) then
      (n, first) :: ledFrom signature first notes
    else (n, n) :: ledFrom signature n notes

/-- Each note of a sequence with the first note of its chord. -/
def led (signature : Signature) : List Note → List (Note × Note)
  | [] => []
  | n :: notes => (n, n) :: ledFrom signature n notes

/-- What a note is written from when another one leads its chord. -/
def entry (signature : Signature) (n first : Note) : Float × Markings × UInt8 :=
  (signature.toBeats first.start, .of n (signature.toBeats n.duration), n.pitch)

section

variable {signature : Signature} {notes : List Note}

lemma ledFrom_map_fst (first : Note) : (ledFrom signature first notes).map (·.1) = notes := by
  induction notes generalizing first with
  | nil => rfl
  | cons n notes ih =>
    unfold ledFrom
    split_ifs <;> simp [ih]

lemma led_map_fst (signature : Signature) (notes : List Note) :
    (led signature notes).map (·.1) = notes := by
  cases notes with
  | nil => rfl
  | cons n notes => simp [led, ledFrom_map_fst]

/-- The leader of a note is a note of the list that the note joins, or the note itself. -/
lemma of_mem_ledFrom {first n leader : Note} (h : (n, leader) ∈ ledFrom signature first notes) :
    leader ∈ first :: notes ∧
      (n = leader ∨ (Chord.single signature leader).admits (.single signature n)) := by
  induction notes generalizing first with
  | nil => simp [ledFrom] at h
  | cons m notes ih =>
    unfold ledFrom at h
    split_ifs at h with hjoins
    · rcases List.mem_cons.mp h with heq | h
      · cases heq
        exact ⟨by simp, .inr hjoins⟩
      · obtain ⟨hmem, hleads⟩ := ih h
        refine ⟨?_, hleads⟩
        rcases List.mem_cons.mp hmem with rfl | hmem
        · simp
        · simp [hmem]
    · rcases List.mem_cons.mp h with heq | h
      · cases heq
        exact ⟨by simp, .inl rfl⟩
      · obtain ⟨hmem, hleads⟩ := ih h
        exact ⟨List.mem_cons_of_mem _ hmem, hleads⟩

lemma of_mem_led {n leader : Note} (h : (n, leader) ∈ led signature notes) :
    leader ∈ notes ∧
      (n = leader ∨ (Chord.single signature leader).admits (.single signature n)) := by
  cases notes with
  | nil => simp [led] at h
  | cons m notes =>
    rcases List.mem_cons.mp h with heq | h
    · cases heq
      exact ⟨by simp, .inl rfl⟩
    · exact of_mem_ledFrom h

lemma entries_gather (first : Note) (c : Chord) (hstart : c.start = signature.toBeats first.start)
    (hmarkings : c.markings = .of first (signature.toBeats first.duration)) :
    (Chord.gather signature c notes).flatMap Chord.entries =
      c.entries ++ (ledFrom signature first notes).map fun l => entry signature l.1 l.2 := by
  induction notes generalizing first c with
  | nil => simp [Chord.gather, ledFrom]
  | cons n notes ih =>
    have hadmits : c.admits (.single signature n) =
        (Chord.single signature first).admits (.single signature n) := by
      obtain ⟨start, markings, pitches⟩ := c
      subst hstart hmarkings
      rfl
    unfold Chord.gather ledFrom
    dsimp only
    rw [hadmits]
    split_ifs with hjoins
    · refine (ih first ⟨c.start, c.markings, c.pitches ++ [n.pitch]⟩ hstart hmarkings).trans ?_
      have hsame : Markings.of n (signature.toBeats n.duration) = c.markings := by
        simp only [Chord.admits, Bool.and_eq_true, decide_eq_true_eq] at hjoins
        exact hjoins.2.trans hmarkings.symm
      simp [Chord.entries, entry, hstart, hsame]
    · rw [List.flatMap_cons, ih n _ rfl rfl]
      simp [Chord.entries, Chord.single, entry]

/-- The chords of a sequence of notes hold each note once, in order. -/
theorem entries_ofNotes : (Chord.ofNotes signature notes).flatMap Chord.entries =
    (led signature notes).map fun l => entry signature l.1 l.2 := by
  cases notes with
  | nil => rfl
  | cons n notes => exact entries_gather n _ rfl rfl

lemma gather_pitches_ne_nil {c : Chord} (hc : c.pitches ≠ []) :
    ∀ d ∈ Chord.gather signature c notes, d.pitches ≠ [] := by
  induction notes generalizing c with
  | nil => simpa [Chord.gather] using hc
  | cons n notes ih =>
    unfold Chord.gather
    dsimp only
    split_ifs
    · exact ih (by simp [Chord.single])
    · intro d hd
      rcases List.mem_cons.mp hd with rfl | hd
      · exact hc
      · exact ih (by simp [Chord.single]) d hd

lemma ofNotes_pitches_ne_nil : ∀ c ∈ Chord.ofNotes signature notes, c.pitches ≠ [] := by
  cases notes with
  | nil => simp [Chord.ofNotes]
  | cons n notes => exact gather_pitches_ne_nil (by simp [Chord.single])

lemma of_mem_pitches {c : Chord} (hc : c ∈ Chord.ofNotes signature notes) {pitch : UInt8}
    (hpitch : pitch ∈ c.pitches) :
    ∃ n ∈ notes, n.pitch = pitch ∧ c.markings = .of n (signature.toBeats n.duration) := by
  have hentry : (c.start, c.markings, pitch) ∈
      (Chord.ofNotes signature notes).flatMap Chord.entries :=
    List.mem_flatMap.mpr ⟨c, hc, List.mem_map.mpr ⟨pitch, hpitch, rfl⟩⟩
  rw [entries_ofNotes] at hentry
  obtain ⟨⟨n, leader⟩, hl, heq⟩ := List.mem_map.mp hentry
  simp only [entry, Prod.mk.injEq] at heq
  refine ⟨n, ?_, heq.2.2, heq.2.1.symm⟩
  rw [← led_map_fst signature notes]
  exact List.mem_map.mpr ⟨_, hl, rfl⟩

lemma exists_chord (signature : Signature) {n : Note} (hn : n ∈ notes) :
    ∃ c ∈ Chord.ofNotes signature notes, n.pitch ∈ c.pitches ∧
      c.markings = .of n (signature.toBeats n.duration) := by
  rw [← led_map_fst signature notes] at hn
  obtain ⟨⟨n, leader⟩, hl, rfl⟩ := List.mem_map.mp hn
  have hentry : entry signature n leader ∈
      (Chord.ofNotes signature notes).flatMap Chord.entries := by
    rw [entries_ofNotes]
    exact List.mem_map.mpr ⟨_, hl, rfl⟩
  obtain ⟨c, hc, hentry⟩ := List.mem_flatMap.mp hentry
  obtain ⟨pitch, hpitch, heq⟩ := List.mem_map.mp hentry
  simp only [entry, Prod.mk.injEq] at heq
  exact ⟨c, hc, heq.2.2 ▸ hpitch, heq.2.1⟩

lemma exists_markings {c : Chord} (hc : c ∈ Chord.ofNotes signature notes) :
    ∃ n, c.markings = .of n (signature.toBeats n.duration) := by
  obtain ⟨pitch, hpitch⟩ := List.exists_mem_of_ne_nil _ (ofNotes_pitches_ne_nil c hc)
  obtain ⟨n, -, -, hmarkings⟩ := of_mem_pitches hc hpitch
  exact ⟨n, hmarkings⟩

end

end Barline.Score
