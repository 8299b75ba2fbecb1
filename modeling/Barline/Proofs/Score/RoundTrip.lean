import Barline.Proofs.Score.Leading

/-!
# From notes to a score and back

What a score of a list of notes is performed as, and which scores are performed at all.
-/

namespace Barline.Score

open Binary64 Number

/-- Whether a note has a pitch, a probability and a duration that a score can say. -/
structure Sayable (signature : Signature) (n : Note) : Prop where
  pitch : n.pitch ≤ 127
  probability : n.probability.isNaN = false
  duration : (larger (signature.toBeats n.duration) smallestAmount * precision).isFinite

lemma forM_eq_ok_iff {α : Type} {f : α → Except Error Unit} {as : List α} :
    as.forM f = .ok () ↔ ∀ a ∈ as, f a = .ok () := by
  induction as with
  | nil => exact ⟨fun _ => List.forall_mem_nil _, fun _ => rfl⟩
  | cons a as ih =>
    have hcons : (a :: as).forM f = f a >>= fun _ => as.forM f := rfl
    rw [hcons, List.forall_mem_cons, ← ih]
    cases f a with
    | error e => exact ⟨nofun, nofun⟩
    | ok u => exact ⟨fun h => ⟨rfl, h⟩, fun h => h.2⟩

lemma engrave_of_resolve {notes : List Note} {timing : Timing} {signature : Signature}
    (h : timing.resolve = .ok signature) :
    engrave notes timing = (notes.forM (checkWritable signature)).map fun _ =>
      scoreText signature.beatsPerBar
        (Chord.ofNotes signature (notes.mergeSort writtenNoLater)) := by
  unfold engrave
  rw [h]
  change (notes.forM (checkWritable signature) >>= _) = _
  cases notes.forM (checkWritable signature) <;> rfl

lemma engrave_eq_ok_iff {notes : List Note} {timing : Timing} {text : List Char} :
    engrave notes timing = .ok text ↔ ∃ signature, timing.resolve = .ok signature ∧
      (∀ n ∈ notes, checkWritable signature n = .ok ()) ∧
      text = scoreText signature.beatsPerBar
        (Chord.ofNotes signature (notes.mergeSort writtenNoLater)) := by
  cases hsignature : timing.resolve with
  | error e =>
    have hengrave : engrave notes timing = .error e := by
      unfold engrave
      rw [hsignature]
      rfl
    rw [hengrave]
    exact ⟨nofun, nofun⟩
  | ok signature =>
    rw [engrave_of_resolve hsignature]
    constructor
    · intro h
      cases hcheck : notes.forM (checkWritable signature) with
      | error e =>
        rw [hcheck] at h
        cases h
      | ok u =>
        rw [hcheck] at h
        exact ⟨signature, rfl, forM_eq_ok_iff.mp hcheck, (Except.ok.inj h).symm⟩
    · rintro ⟨signature', hsame, hwritable, rfl⟩
      obtain rfl := Except.ok.inj hsame
      rw [forM_eq_ok_iff.mpr hwritable]
      rfl

lemma engrave_eq_ok {notes : List Note} {timing : Timing} {text : List Char}
    (h : engrave notes timing = .ok text) :
    ∃ signature, timing.resolve = .ok signature ∧
      (∀ n ∈ notes, checkWritable signature n = .ok ()) ∧
      text = scoreText signature.beatsPerBar
        (Chord.ofNotes signature (notes.mergeSort writtenNoLater)) := engrave_eq_ok_iff.mp h

/-- A note that a score can say: it starts within the bars, lasts, and does not delete another. -/
structure Writable (signature : Signature) (n : Note) : Prop where
  start : (signature.toBeats n.start).isFinite ∧ ¬ signature.toBeats n.start < -0.5 / precision
  bar : Meter.inRange (signature.toBeats n.start) signature.beatsPerBar
  duration : n.duration.isFinite ∧ ¬ n.duration ≤ 0.0
  velocity : n.velocity.isNaN = false ∧ ¬ round n.velocity < 1.0

lemma checkWritable_eq_ok_iff {signature : Signature} {n : Note} :
    checkWritable signature n = .ok () ↔ Writable signature n := by
  unfold checkWritable
  dsimp only
  constructor
  · intro h
    split_ifs at h with hstart hbar hduration hvelocity
    simp only [Bool.or_eq_true, Bool.not_eq_true', decide_eq_true_eq, not_or,
      Bool.not_eq_false, Bool.not_eq_true] at hstart hbar hduration hvelocity
    exact ⟨hstart, hbar, hduration, hvelocity⟩
  · rintro ⟨⟨hfinite, hfirst⟩, hbar, ⟨hlasts, hpositive⟩, hnumber, hone⟩
    simp only [hfinite, hfirst, hbar, hlasts, hpositive, hnumber, hone, Bool.not_true,
      decide_false, Bool.or_self, Bool.false_eq_true, if_false]

lemma checkWritable_eq_ok {signature : Signature} {n : Note}
    (h : checkWritable signature n = .ok ()) :
    (signature.toBeats n.start).isFinite ∧ n.velocity.isNaN = false ∧ ¬ round n.velocity < 1.0 := by
  have hn := checkWritable_eq_ok_iff.mp h
  exact ⟨hn.start.1, hn.velocity⟩

lemma applyDeletions_eq_self {window : Float} {events : List Note}
    (h : ∀ e ∈ events, (e.velocity == 0.0) = false) : applyDeletions window events = events := by
  have hkeep (kept : List Note) : events.foldl (keep window) kept = events.reverse ++ kept := by
    induction events generalizing kept with
    | nil => rfl
    | cons e events ih =>
      rw [List.foldl_cons, ih fun d hd => h d (by simp [hd])]
      simp [keep, h e (by simp)]
  rw [applyDeletions, hkeep]
  simp

section

variable {p : Performer} {chords : List Chord}

lemma run_of_fits (h : ∀ c ∈ chords, c.Legible p.signature.beatsPerBar)
    (hfits : ∀ c ∈ chords, c.Fits p.signature.beatsPerBar) :
    ∃ performance placed, p.run (scoreText p.signature.beatsPerBar chords) = .ok performance ∧
      performance.events = p.arrange placed ∧
      List.Forall₂ (Sounds p.signature.beatsPerBar) (chords.flatMap Chord.entries) placed := by
  obtain ⟨es, hes, hok, -⟩ := score_performed h usual_gives none []
  obtain ⟨placed, hsounds, hleads⟩ := hok hfits
  obtain ⟨elements, hparse, hvalue⟩ := parse_spaced spaced_scoreText hes
  obtain ⟨s, hs, hevents⟩ := hleads _ follows_initial elements hvalue
  obtain ⟨performance, hperform, harrange⟩ := perform_of_foldlM hs
  refine ⟨performance, placed, by rw [run_of_parse hparse, hperform], ?_, hsounds⟩
  rw [harrange, hevents, List.nil_append]

lemma run_of_not_fits (h : ∀ c ∈ chords, c.Legible p.signature.beatsPerBar)
    (hnot : ∃ c ∈ chords, ¬ c.Fits p.signature.beatsPerBar) :
    ∃ e, p.run (scoreText p.signature.beatsPerBar chords) = .error e := by
  obtain ⟨es, hes, -, herror⟩ := score_performed h usual_gives none []
  obtain ⟨elements, hparse, hvalue⟩ := parse_spaced spaced_scoreText hes
  obtain ⟨e, he⟩ := herror hnot _ follows_initial elements hvalue
  exact ⟨e, by rw [run_of_parse hparse, perform_of_foldlM_error he]⟩

variable {settings : Settings} {signature : Signature} {notes : List Note}

lemma run_of_not_legible (settings : Settings)
    (hnot : ∃ c ∈ Chord.ofNotes signature notes, ¬ c.Legible signature.beatsPerBar) :
    ∃ e, Performer.run ⟨signature, settings⟩
      (scoreText signature.beatsPerBar (Chord.ofNotes signature notes)) = .error e := by
  have hsettled : ∀ w ∈ wordsFrom signature.beatsPerBar .usual none (Chord.ofNotes signature notes),
      Settled w := by
    refine settled_wordsFrom fun c hc => ?_
    obtain ⟨n, hn⟩ := exists_markings hc
    rw [hn]
    exact Markings.settled_of_note n _
  have hmarked : ∀ c ∈ Chord.ofNotes signature notes, c.pitches ≠ [] ∧
      ((∃ P, c.markings.Gives signature.beatsPerBar P) ∨ c.markings.Garbled) := by
    intro c hc
    obtain ⟨n, hn⟩ := exists_markings hc
    refine ⟨ofNotes_pitches_ne_nil c hc, ?_⟩
    rw [hn]
    exact Markings.gives_or_garbled n _
  obtain ⟨e, he⟩ :=
    parse_spaced_error spaced_scoreText hsettled (unreadable_wordsFrom usual_gives hmarked hnot)
  exact ⟨e, run_of_parse_error he⟩

/-- A score is performed exactly if all its chords are legible and fit. -/
theorem run_scoreText_iff : (∃ performance, Performer.run ⟨signature, settings⟩
      (scoreText signature.beatsPerBar (Chord.ofNotes signature notes)) = .ok performance) ↔
    ∀ c ∈ Chord.ofNotes signature notes,
      c.Legible signature.beatsPerBar ∧ c.Fits signature.beatsPerBar := by
  constructor
  · rintro ⟨performance, hrun⟩
    have hlegible : ∀ c ∈ Chord.ofNotes signature notes, c.Legible signature.beatsPerBar := by
      by_contra hnot
      simp only [not_forall, exists_prop] at hnot
      obtain ⟨e, he⟩ := run_of_not_legible settings hnot
      rw [he] at hrun
      cases hrun
    refine fun c hc => ⟨hlegible c hc, ?_⟩
    by_contra hnot
    obtain ⟨e, he⟩ := run_of_not_fits (p := ⟨signature, settings⟩) hlegible ⟨c, hc, hnot⟩
    rw [he] at hrun
    cases hrun
  · intro h
    obtain ⟨performance, -, hrun, -⟩ := run_of_fits (p := ⟨signature, settings⟩)
      (fun c hc => (h c hc).1) fun c hc => (h c hc).2
    exact ⟨performance, hrun⟩

/-- The chords are legible exactly if their notes are sayable and their beats lie in a bar. -/
lemma legible_iff : (∀ c ∈ Chord.ofNotes signature notes, c.Legible signature.beatsPerBar) ↔
    (∀ n ∈ notes, Sayable signature n) ∧
      ∀ c ∈ Chord.ofNotes signature notes, c.OnBeat signature.beatsPerBar := by
  constructor
  · refine fun h => ⟨fun n hn => ?_, fun c hc => (h c hc).onBeat⟩
    obtain ⟨c, hc, hpitch, hmarkings⟩ := exists_chord signature hn
    have hgives := (h c hc).markings
    rw [hmarkings] at hgives
    obtain ⟨hduration, hprobability⟩ := Markings.gives_iff.mp hgives
    exact ⟨(h c hc).pitches _ hpitch, hprobability, hduration⟩
  · rintro ⟨hnotes, hbeats⟩ c hc
    have hne := ofNotes_pitches_ne_nil c hc
    refine ⟨?_, hne, fun pitch hpitch => ?_, hbeats c hc⟩
    · obtain ⟨pitch, hpitch⟩ := List.exists_mem_of_ne_nil _ hne
      obtain ⟨n, hn, -, hmarkings⟩ := of_mem_pitches hc hpitch
      rw [hmarkings]
      exact Markings.gives_iff.mpr ⟨(hnotes n hn).duration, (hnotes n hn).probability⟩
    · obtain ⟨n, hn, rfl, -⟩ := of_mem_pitches hc hpitch
      exact (hnotes n hn).pitch

lemma Chord.onBeat_and_fits_iff {perBar : Float} {c : Chord} :
    c.OnBeat perBar ∧ c.Fits perBar ↔
      ∃ x, c.beat? perBar = some x ∧ ¬ x < 1.0 ∧ Meter.inRange (c.landing perBar x) perBar := by
  constructor
  · rintro ⟨⟨x, hx, hone⟩, hfits⟩
    exact ⟨x, hx, hone, (Chord.fits_iff hx).mp hfits⟩
  · rintro ⟨x, hx, hone, hrange⟩
    exact ⟨⟨x, hx, hone⟩, x, hx, hrange⟩

/-- **Which scores are performed.** What is engraved is performed exactly if the pitches are in
range, the probabilities are numbers, the durations are finite as they are written, and each beat
reads as one of a bar that has a number. -/
theorem compile_engraved_iff {timing : Timing} {text : List Char}
    (h : engrave notes timing = .ok text) (settings : Settings) :
    ∃ signature, timing.resolve = .ok signature ∧
      ((∃ performance, compile timing settings text = .ok performance) ↔
        (∀ n ∈ notes, Sayable signature n) ∧
          ∀ c ∈ Chord.ofNotes signature (notes.mergeSort writtenNoLater),
            ∃ x, c.beat? signature.beatsPerBar = some x ∧ ¬ x < 1.0 ∧
              Meter.inRange (c.landing signature.beatsPerBar x) signature.beatsPerBar) := by
  obtain ⟨signature, hsignature, -, rfl⟩ := engrave_eq_ok h
  refine ⟨signature, hsignature, ?_⟩
  rw [compile_of_resolve hsignature, run_scoreText_iff, forall₂_and, legible_iff, and_assoc,
    ← forall₂_and]
  simp only [List.mem_mergeSort, Chord.onBeat_and_fits_iff]

/-- Two notes of one chord and one that follows. -/
theorem compile_engraved_iff_three :
    let notes : List Note := [⟨60, 0.0, 1.0, 80.0, 1.0, 20.0⟩, ⟨64, 0.0, 1.0, 80.0, 1.0, 20.0⟩,
      ⟨67, 5.5, 0.5, 100.0, 0.5, 0.0⟩]
    let text := "v80-100 C3 E3 1|1\nv100 t0.5 p0.5 G3 2|2.5".toList
    engrave notes .unstated = .ok text ∧
      ∃ signature, Timing.unstated.resolve = .ok signature ∧
        ((∃ performance, compile .unstated .usual text = .ok performance) ↔
          (∀ n ∈ notes, Sayable signature n) ∧
            ∀ c ∈ Chord.ofNotes signature (notes.mergeSort writtenNoLater),
              ∃ x, c.beat? signature.beatsPerBar = some x ∧ ¬ x < 1.0 ∧
                Meter.inRange (c.landing signature.beatsPerBar x) signature.beatsPerBar) := by
  intro notes text
  have hsort : notes.mergeSort writtenNoLater = notes :=
    List.mergeSort_of_pairwise (by decide +kernel)
  have h : engrave notes .unstated = .ok text := by
    unfold engrave
    rw [hsort]
    decide +kernel
  exact ⟨h, compile_engraved_iff h .usual⟩

/-- A pitch above the highest is engraved, by a name that is refused. -/
theorem compile_engraved_high_pitch :
    engrave [⟨200, 0.0, 1.0, 100.0, 1.0, 0.0⟩] .unstated = .ok "G#14 1|1".toList ∧
      ∀ performance, compile .unstated .usual "G#14 1|1".toList ≠ .ok performance := by
  refine ⟨by decide +kernel, fun performance h => ?_⟩
  have herror : (compile .unstated .usual "G#14 1|1".toList).isOk = false := rfl
  rw [h] at herror
  cases herror

/-- What comes back of a note that another one leads in its chord. -/
structure Echoes (signature : Signature) (n leader e : Note) : Prop where
  pitch : e.pitch = n.pitch
  velocity : e.velocity = (lowVelocity n.velocity).toFloat
  deviation : e.deviation = engravedDeviation n.velocity n.deviation
  duration : ∃ x,
    amount? (amountText (larger (signature.toBeats n.duration) smallestAmount)) = some x ∧
      e.duration = signature.toQuarters x
  probability : amount? (amountText (clamp 0.0 1.0 n.probability)) = some e.probability
  /-- The leader sets the place. -/
  start :
    let place := Meter.barBeat (signature.toBeats leader.start) signature.beatsPerBar
    ∃ x, amount? (amountText place.2) = some x ∧
      e.start = signature.toQuarters (Meter.beatsAt place.1 x signature.beatsPerBar)
  near : |value (signature.toBeats n.start) - value (signature.toBeats leader.start)| < 1 / 10 ^ 6

lemma echoes_of_sounds {n leader e : Note}
    (h : Sounds signature.beatsPerBar (entry signature n leader) e)
    (hnear : |value (signature.toBeats n.start) - value (signature.toBeats leader.start)| <
      1 / 10 ^ 6) :
    Echoes signature n leader (Performer.inQuarters ⟨signature, settings⟩ e) := by
  obtain ⟨P, x, hP, hx, rfl⟩ := h
  obtain ⟨hvelocity, hdeviation, hduration, hprobability⟩ := hP.of_note
  exact ⟨rfl, hvelocity, hdeviation, ⟨_, hduration, rfl⟩, hprobability, ⟨x, hx, rfl⟩, hnear⟩

/-- A note that joins a chord starts within the smallest amount of its leader. -/
lemma near_of_mem_led (h : ∀ n ∈ notes, (signature.toBeats n.start).isFinite) {n leader : Note}
    (hl : (n, leader) ∈ led signature notes) :
    |value (signature.toBeats n.start) - value (signature.toBeats leader.start)| < 1 / 10 ^ 6 := by
  obtain ⟨hleader, rfl | hjoins⟩ := of_mem_led hl
  · rw [sub_self, abs_zero]
    norm_num
  · have hn : n ∈ notes := by
      rw [← led_map_fst signature notes]
      exact List.mem_map.mpr ⟨_, hl, rfl⟩
    simp only [Chord.admits, Bool.and_eq_true, decide_eq_true_eq] at hjoins
    exact near_of_abs_sub_lt (h n hn) (h leader hleader) hjoins.1

lemma velocity_ne_zero {velocity : Float} (hn : velocity.isNaN = false)
    (h : ¬ round velocity < 1.0) : ((lowVelocity velocity).toFloat == 0.0) = false := by
  have hpos := one_le_lowVelocity hn h
  rw [← Bool.not_eq_true, beq_iff (isNaN_toFloat8 _) rfl, value_toFloat8,
    value_zero]
  exact_mod_cast Nat.one_le_iff_ne_zero.mp hpos

lemma forall_of_forall₂ {α β : Type} {R : α → β → Prop} {Q : β → Prop} {as : List α} {bs : List β}
    (h : List.Forall₂ R as bs) (hQ : ∀ a ∈ as, ∀ b, R a b → Q b) : ∀ b ∈ bs, Q b := by
  induction h with
  | nil => simp
  | cons hab _ ih =>
    simp only [List.mem_cons, forall_eq_or_imp] at hQ ⊢
    exact ⟨hQ.1 _ hab, ih hQ.2⟩

/-- **What comes back of a score.** If what is engraved is performed, then each note comes back
once: with its pitch, its velocity and deviation as they were rounded, its duration and probability
as they read, and its start where the first note of its chord reads. -/
theorem compile_engraved {timing : Timing} {text : List Char} {performance : Performance}
    (h : engrave notes timing = .ok text) (hc : compile timing settings text = .ok performance) :
    ∃ signature, timing.resolve = .ok signature ∧
      ((led signature (notes.mergeSort writtenNoLater)).map (·.1)).Perm notes ∧
      ∃ events, performance.events.Perm events ∧
        List.Forall₂ (fun l e => Echoes signature l.1 l.2 e)
          (led signature (notes.mergeSort writtenNoLater)) events := by
  obtain ⟨signature, hsignature, hwritable, rfl⟩ := engrave_eq_ok h
  rw [compile_of_resolve hsignature] at hc
  refine ⟨signature, hsignature, ?_, ?_⟩
  · rw [led_map_fst]
    exact List.mergeSort_perm notes writtenNoLater
  have hchords := run_scoreText_iff.mp ⟨performance, hc⟩
  obtain ⟨performance', placed, hrun, hevents, hsounds⟩ :=
    run_of_fits (p := ⟨signature, settings⟩) (fun c hc => (hchords c hc).1) fun c hc =>
      (hchords c hc).2
  obtain rfl : performance' = performance := Except.ok.inj (hrun.symm.trans hc)
  have hwritten : ∀ n ∈ notes.mergeSort writtenNoLater, checkWritable signature n = .ok () := by
    simpa only [List.mem_mergeSort] using hwritable
  have hnear : ∀ l ∈ led signature (notes.mergeSort writtenNoLater),
      |value (signature.toBeats l.1.start) - value (signature.toBeats l.2.start)| < 1 / 10 ^ 6 :=
    fun l hl => near_of_mem_led (fun n hn => (checkWritable_eq_ok (hwritten n hn)).1) hl
  -- Each placed note echoes the note that it was written for.
  have hechoes : List.Forall₂ (fun l e => Echoes signature l.1 l.2 e)
      (led signature (notes.mergeSort writtenNoLater))
      (placed.map (Performer.inQuarters ⟨signature, settings⟩)) := by
    rw [entries_ofNotes, List.forall₂_map_left_iff] at hsounds
    rw [List.forall₂_map_right_iff]
    exact ((List.forall₂_and_left _ _).mpr ⟨hnear, hsounds⟩).imp fun l e hle =>
      echoes_of_sounds hle.2 hle.1
  refine ⟨_, ?_, hechoes⟩
  rw [hevents, Performer.arrange, applyDeletions_eq_self]
  · exact List.mergeSort_perm _ startsNoLater
  · refine forall_of_forall₂ hechoes fun l hl e he => ?_
    have hn : l.1 ∈ notes.mergeSort writtenNoLater := by
      rw [← led_map_fst signature (notes.mergeSort writtenNoLater)]
      exact List.mem_map.mpr ⟨l, hl, rfl⟩
    obtain ⟨-, hnumber, hone⟩ := checkWritable_eq_ok (hwritten l.1 hn)
    rw [he.velocity]
    exact velocity_ne_zero hnumber hone

/-- Two notes of one chord, the second a little late. -/
theorem compile_engraved_late :
    let notes : List Note :=
      [⟨60, 1.0, 0.25, 90.0, 1.0, 0.0⟩, ⟨64, 1.0000002, 0.25, 90.0, 1.0, 0.0⟩]
    let text := "v90 t0.25 C3 E3 1|2".toList
    engrave notes .unstated = .ok text ∧
      ∃ performance, compile .unstated .usual text = .ok performance ∧
        ∃ signature, Timing.unstated.resolve = .ok signature ∧
          ((led signature (notes.mergeSort writtenNoLater)).map (·.1)).Perm notes ∧
          ∃ events, performance.events.Perm events ∧
            List.Forall₂ (fun l e => Echoes signature l.1 l.2 e)
              (led signature (notes.mergeSort writtenNoLater)) events := by
  intro notes text
  have hsort : notes.mergeSort writtenNoLater = notes :=
    List.mergeSort_of_pairwise (by decide +kernel)
  have h : engrave notes .unstated = .ok text := by
    unfold engrave
    rw [hsort]
    decide +kernel
  have hok : (compile .unstated .usual text).isOk := by
    decide +kernel
  refine ⟨h, ?_⟩
  cases hc : compile .unstated .usual text with
  | error e =>
    rw [hc] at hok
    cases hok
  | ok performance => exact ⟨performance, rfl, compile_engraved h hc⟩

/-- Where the sum of a velocity and its deviation is no number, the highest velocity counts as zero,
but the deviation that comes back is not below zero. -/
theorem compile_engraved_nan :
    engrave [⟨60, 0.0, 1.0, 100.0, 1.0, 0.0 / 0.0⟩] .unstated = .ok "C3 1|1".toList ∧
      ∃ performance, compile .unstated .usual "C3 1|1".toList = .ok performance ∧
        performance.events = [⟨60, 0.0, 1.0, 100.0, 1.0, 0.0⟩] ∧
        (0.0 : Float) ≠ (highVelocity 100.0 (0.0 / 0.0)).toFloat - (lowVelocity 100.0).toFloat := by
  have hevents : (compile .unstated .usual "C3 1|1".toList).toOption.map (·.events) =
      some [⟨60, 0.0, 1.0, 100.0, 1.0, 0.0⟩] := by decide +kernel
  refine ⟨by decide +kernel, ?_⟩
  cases hc : compile .unstated .usual "C3 1|1".toList with
  | error e =>
    rw [hc] at hevents
    cases hevents
  | ok performance =>
    rw [hc] at hevents
    exact ⟨performance, rfl, Option.some.inj hevents, by decide +kernel⟩

end

end Barline.Score
