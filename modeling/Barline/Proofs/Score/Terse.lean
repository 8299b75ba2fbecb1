import Barline.Proofs.Score.Remarks
import Barline.Proofs.Score.RoundTrip

/-!
# Engraved scores are terse

The engraver writes a marking only where it differs from the one in effect, and sets the pitches of
every chord down before it changes anything again. So no word of an engraved score is redundant, and
a performer has nothing to remark on.
-/

namespace Barline.Score

open Number Scan

/-- The words of a text: what stands between blanks. -/
def words (text : List Char) : List (List Char) := (text.splitOnP isBlank).filter (· ≠ [])

/-- A word that blanks do not break. -/
structure Unbroken (w : List Char) : Prop where
  ne_nil : w ≠ []
  inked : ∀ c ∈ w, isBlank c = false

lemma words_of_unbroken {w : List Char} (h : Unbroken w) : words w = [w] := by
  have hsplit : w.splitOnP isBlank = [w] :=
    List.splitOnP_eq_singleton fun c hc => by simp [h.inked c hc]
  rw [words, hsplit]
  simp [h.ne_nil]

lemma words_append_blank {b : Char} (hb : isBlank b) (s t : List Char) :
    words (s ++ b :: t) = words s ++ words t := by
  unfold words
  rw [List.splitOnP_append_cons s t hb, List.filter_append]

/-- Unbroken words with blanks between them are the words of the text. -/
theorem Spaced.words_eq {ws : List (List Char)} {t : List Char} (h : Spaced ws t)
    (hws : ∀ w ∈ ws, Unbroken w) : words t = ws := by
  induction h with
  | nil => rfl
  | single w => exact words_of_unbroken (hws w (by simp))
  | cons w hb _ ih =>
    obtain ⟨hw, hrest⟩ := List.forall_mem_cons.mp hws
    rw [words_append_blank hb, words_of_unbroken hw, ih hrest, List.singleton_append]

lemma isBlank_of_isDigit {c : Char} (h : c.isDigit) : isBlank c = false := by
  by_contra hb
  have hdigit := isDigit_of_isBlank (Bool.of_not_eq_false hb)
  rw [h] at hdigit
  cases hdigit

lemma inked_toDigits (n : ℕ) : ∀ c ∈ Nat.toDigits 10 n, isBlank c = false :=
  fun c hc => isBlank_of_isDigit (isDigit_toDigits n c hc)

lemma inked_text {d : Decimal} (hd : d.Proper) : ∀ c ∈ d.text, isBlank c = false := by
  intro c hc
  unfold Decimal.text at hc
  split_ifs at hc
  · rw [List.append_nil] at hc
    exact isBlank_of_isDigit (hd.whole_digits c hc)
  · rcases List.mem_append.mp hc with hc | hc
    · exact isBlank_of_isDigit (hd.whole_digits c hc)
    · rcases List.mem_cons.mp hc with rfl | hc
      · decide
      · exact isBlank_of_isDigit (hd.fraction_digits c hc)

lemma inked_mark {c : Char}
    (h : c ∈ ['A', 'B', 'C', 'D', 'E', 'F', 'G', '#', 'v', 't', 'p', '-', '|']) :
    isBlank c = false := by
  fin_cases h <;> rfl

lemma unbroken_cons {c : Char} {w : List Char} (hc : isBlank c = false)
    (hw : ∀ c ∈ w, isBlank c = false) : Unbroken (c :: w) :=
  ⟨List.cons_ne_nil c w, List.forall_mem_cons.mpr ⟨hc, hw⟩⟩

lemma unbroken_name (pitch : UInt8) : Unbroken (Pitch.name pitch) := by
  have hn := spells_spelled pitch
  generalize spelled pitch = n at hn
  rw [← hn.chars, PitchName.chars, List.cons_append, List.cons_append]
  refine unbroken_cons (inked_mark (List.mem_append_left _ hn.letter)) fun c hc => ?_
  rw [List.mem_append, List.mem_append, Option.mem_toList, List.mem_ite_nil_right,
    List.mem_singleton] at hc
  obtain (hc | ⟨-, rfl⟩) | hc := hc
  · rcases hn.accidental with h | h <;> rw [h] at hc <;> cases hc
    exact inked_mark (by simp)
  · exact inked_mark (by simp)
  · exact isBlank_of_isDigit (hn.digits c hc)

lemma inked_amountText (x : Float) : ∀ c ∈ amountText x, isBlank c = false := by
  cases hx : (settled x).isFinite with
  | false =>
    rcases amountText_eq_word hx with h | h | h <;> rw [h] <;> intro c hc <;> fin_cases hc <;> rfl
  | true =>
    obtain ⟨d, hd, -, -, htext⟩ := amountText_of_isFinite hx
    rw [htext]
    split_ifs
    · exact List.forall_mem_cons.mpr ⟨inked_mark (by simp), inked_text hd⟩
    · exact inked_text hd

lemma unbroken_velocityText (velocity deviation : Float) :
    Unbroken (velocityText velocity deviation) := by
  rw [velocityText_eq, List.cons_append]
  refine unbroken_cons (inked_mark (by simp)) (List.forall_mem_append.mpr ⟨inked_toDigits _, ?_⟩)
  split_ifs
  · exact List.forall_mem_cons.mpr ⟨inked_mark (by simp), inked_toDigits _⟩
  · exact List.forall_mem_nil _

lemma Chord.unbroken_placeText (perBar : Float) (last : Option UInt32) (c : Chord) :
    Unbroken (c.placeText perBar last) := by
  have hbar (bar : Option UInt32) : ∀ c ∈ barText bar, isBlank c = false := by
    cases bar with
    | none => exact List.forall_mem_nil _
    | some bar => exact inked_toDigits bar.toNat
  refine ⟨by simp [placeText], List.forall_mem_append.mpr ⟨hbar _, ?_⟩⟩
  exact List.forall_mem_cons.mpr ⟨inked_mark (by simp), inked_amountText _⟩

/-- The word that says a parameter. -/
def Markings.word (m : Markings) : Parameter → List Char
  | .velocity => m.velocity
  | .duration => 't' :: m.duration
  | .probability => 'p' :: m.probability

/-- The letter that the words of a parameter begin with. -/
def Parameter.letter : Parameter → Char
  | .velocity => 'v'
  | .duration => 't'
  | .probability => 'p'

/-- Markings whose words begin with the letters of their parameters. -/
def Markings.Lettered (m : Markings) : Prop := ∀ q, (m.word q).head? = some q.letter

lemma Markings.unbroken_of (n : Note) (beats : Float) (q : Parameter) :
    Unbroken ((Markings.of n beats).word q) := by
  cases q with
  | velocity => exact unbroken_velocityText n.velocity n.deviation
  | duration => exact unbroken_cons (inked_mark (by simp)) (inked_amountText _)
  | probability => exact unbroken_cons (inked_mark (by simp)) (inked_amountText _)

lemma Markings.lettered_of (n : Note) (beats : Float) : (Markings.of n beats).Lettered
  | .velocity => rfl
  | .duration => rfl
  | .probability => rfl

lemma Markings.filter_changes (m : Markings) {m' : Markings} (h : m'.Lettered) (q : Parameter) :
    (m.changes m').filter (·.head? = some q.letter) =
      if m'.word q = m.word q then [] else [m'.word q] := by
  have hv := h .velocity
  simp only [word, Parameter.letter] at hv
  unfold changes
  cases q <;> simp only [word, Parameter.letter, List.filter_append] <;> split_ifs <;>
    simp_all

lemma head?_name_ne (pitch : UInt8) (q : Parameter) : (Pitch.name pitch).head? ≠ some q.letter := by
  have hn := spells_spelled pitch
  generalize spelled pitch = n at hn
  rw [← hn.chars, PitchName.chars, List.cons_append, List.cons_append, List.head?_cons]
  have hletter := hn.letter
  intro h
  rw [Option.some.inj h] at hletter
  cases q <;> revert hletter <;> decide

lemma Chord.head?_placeText_ne (perBar : Float) (last : Option UInt32) (c : Chord) (q : Parameter) :
    (c.placeText perBar last).head? ≠ some q.letter := by
  obtain ⟨x, rest, htext, hx⟩ := placeText_eq_cons (c.bar? perBar last)
    (amountText (Meter.barBeat c.start perBar).2)
  rw [placeText, htext, List.head?_cons]
  intro h
  rw [Option.some.inj h] at hx
  cases q <;> revert hx <;> decide

section

variable {perBar : Float} {m : Markings} {last : Option UInt32} {chords : List Chord}

lemma unbroken_wordsFrom (h : ∀ c ∈ chords, ∀ q, Unbroken (c.markings.word q)) :
    ∀ w ∈ wordsFrom perBar m last chords, Unbroken w := by
  induction chords generalizing m last with
  | nil => exact List.forall_mem_nil _
  | cons c chords ih =>
    obtain ⟨hc, hrest⟩ := List.forall_mem_cons.mp h
    unfold wordsFrom
    rw [c.wordsAfter_eq]
    simp only [List.forall_mem_append, List.forall_mem_map, List.forall_mem_singleton]
    refine ⟨⟨⟨?_, fun pitch _ => unbroken_name pitch⟩, c.unbroken_placeText perBar last⟩, ih hrest⟩
    intro w hw
    unfold Markings.changes at hw
    simp only [List.mem_append, List.mem_ite_nil_left, List.mem_singleton] at hw
    obtain (⟨-, rfl⟩ | ⟨-, rfl⟩) | ⟨-, rfl⟩ := hw
    · exact hc .velocity
    · exact hc .duration
    · exact hc .probability

/-- Each word of a parameter says something else than the one before. -/
theorem isChain_wordsFrom (h : ∀ c ∈ chords, c.markings.Lettered) (q : Parameter) :
    (m.word q :: (wordsFrom perBar m last chords).filter (·.head? = some q.letter)).IsChain
      (· ≠ ·) := by
  induction chords generalizing m last with
  | nil => exact .singleton _
  | cons c chords ih =>
    have hpitches : (c.pitches.map Pitch.name).filter (·.head? = some q.letter) = [] := by
      simp [head?_name_ne]
    have hplace : [c.placeText perBar last].filter (·.head? = some q.letter) = [] := by
      simp [c.head?_placeText_ne]
    have hrest := @ih c.markings (some (Meter.barBeat c.start perBar).1)
      (fun c hc => h c (List.mem_cons_of_mem _ hc))
    unfold wordsFrom
    rw [c.wordsAfter_eq, List.filter_append, List.filter_append, List.filter_append, hpitches,
      hplace, m.filter_changes (h c List.mem_cons_self), List.append_nil, List.append_nil]
    split_ifs with hsame
    · rwa [List.nil_append, ← hsame]
    · exact .cons_cons (Ne.symm hsame) hrest

end

/-- After elements of these values, if they are performed, a state of one kind is one of another. -/
def Leaves (p : Performer) (R : State → Prop) (es : List Element) (R' : State → Prop) : Prop :=
  ∀ s, R s → ∀ elements : Elements, elements.map (·.value) = es →
    ∀ s', elements.foldlM p.step s = .ok s' → R' s'

section

variable {p : Performer} {R R' R'' : State → Prop} {es fs : List Element}

lemma Leaves.nil (h : ∀ s, R s → R' s) : Leaves p R [] R' := by
  intro s hs elements he s' hs'
  obtain rfl := List.map_eq_nil_iff.mp he
  obtain rfl := Except.ok.inj hs'
  exact h s hs

lemma Leaves.single {e : Element}
    (h : ∀ s, R s → ∀ position s', p.step s ⟨e, position⟩ = .ok s' → R' s') :
    Leaves p R [e] R' := by
  intro s hs elements he s' hs'
  obtain ⟨element, rest, rfl, rfl, hrest⟩ := List.map_eq_cons_iff.mp he
  obtain rfl := List.map_eq_nil_iff.mp hrest
  obtain ⟨s₁, s₂, h₁, h₂, h₃⟩ := @run_split p [] [] element s s' hs'
  obtain rfl := Except.ok.inj h₁
  obtain rfl := Except.ok.inj h₃
  exact h s hs element.position s₂ h₂

lemma Leaves.append (h : Leaves p R es R') (h' : Leaves p R' fs R'') :
    Leaves p R (es ++ fs) R'' := by
  intro s hs elements he s' hs'
  obtain ⟨front, back, rfl, hfront, hback⟩ := List.map_eq_append_iff.mp he
  rw [List.foldlM_append] at hs'
  cases hmid : front.foldlM p.step s with
  | error e =>
    rw [hmid] at hs'
    cases hs'
  | ok s₁ =>
    rw [hmid] at hs'
    exact h' s₁ (h s hs front hfront s₁ hmid) back hback s' hs'

end

namespace State

/-- Between two chords there is nothing to remark on, and no change is left to be carried. -/
structure Tidy (s : State) : Prop where
  advisories : s.advisories = #[]
  unplaced : s.unplaced = .settled
  unchanged : s.buffer.changed = none
  free : ∀ pitches began, s.buffer ≠ .collecting pitches began

/-- There is nothing to remark on, and none of these parameters has changed. -/
structure Open (qs : List Parameter) (s : State) : Prop where
  advisories : s.advisories = #[]
  unplaced : ∀ q ∈ qs, s.unplaced.get q = none

/-- There is nothing to remark on, and pitches wait to be placed. -/
structure Loaded (s : State) : Prop where
  advisories : s.advisories = #[]
  waiting : ∃ pitches began, s.buffer = .collecting pitches began

variable {s : State}

lemma tidy_initial : State.initial.Tidy := ⟨rfl, rfl, rfl, nofun⟩

lemma Tidy.opens (h : s.Tidy) (qs : List Parameter) : s.Open qs := by
  refine ⟨h.advisories, fun q _ => ?_⟩
  rw [h.unplaced]
  cases q <;> rfl

lemma Tidy.finish (h : s.Tidy) : s.finish.advisories.toList = [] := by
  rw [finish_advisories, h.advisories]
  have hchanged := h.unchanged
  have hfree := h.free
  cases hbuffer : s.buffer with
  | collecting pitches began => exact absurd hbuffer (hfree pitches began)
  | idle unused =>
    rw [hbuffer] at hchanged
    simp [hchanged]
  | placed pitches changed =>
    rw [hbuffer] at hchanged
    simp [hchanged]

lemma Open.change {q : Parameter} {qs : List Parameter} (h : s.Open (q :: qs)) (hq : q ∉ qs)
    {c : Change} (hc : c.parameter = q) (position : Position) :
    (s.change c position).Open qs := by
  subst hc
  constructor
  · have hadvisories := s.change_advisories c position
    rw [h.advisories, h.unplaced _ List.mem_cons_self] at hadvisories
    simpa using hadvisories
  · intro q' hq'
    have hne : c.parameter ≠ q' := fun heq => hq (heq ▸ hq')
    have hsame := h.unplaced q' (List.mem_cons_of_mem _ hq')
    rw [change_unplaced]
    generalize c.parameter = q at hne
    cases q <;> cases q' <;> first | exact absurd rfl hne | exact hsame

lemma Open.addPitch {qs : List Parameter} (h : s.Open qs) (pitch : UInt8) (position : Position) :
    (s.addPitch pitch position).Loaded := by
  obtain ⟨pitches, began, -, heq⟩ := s.addPitch_eq pitch position
  rw [heq]
  exact ⟨h.advisories, pitches, began, rfl⟩

/-- A single beat carries all changes and is not remarked on. -/
lemma Loaded.place (h : s.Loaded) {perBar : Float} (repeatLimit : ℕ) {bar : Option UInt32}
    {beat : Float} {position : Position} {s' : State}
    (hs' : s.place perBar repeatLimit bar (.single beat) position = .ok s') : s'.Tidy := by
  obtain ⟨pitches, began, hbuffer⟩ := h.waiting
  unfold State.place placeAll at hs'
  dsimp only at hs'
  rw [hbuffer] at hs'
  dsimp only at hs'
  rw [List.foldlM_cons] at hs'
  unfold placeAt at hs'
  dsimp only at hs'
  split_ifs at hs' with hrange
  · obtain rfl := Except.ok.inj hs'
    refine ⟨?_, rfl, rfl, nofun⟩
    exact (foldl_emit_advisories perBar _ _).trans h.advisories
  · cases hs'

end State

section

variable {p : Performer}

/-- At most one word is written for a parameter, so its change is the first. -/
lemma leaves_word (q : Parameter) (qs : List Parameter) (hq : q ∉ qs) (w : List Char)
    {w' : List Char} {c : Change} (h : Signals p.signature.beatsPerBar w' c)
    (hc : c.parameter = q) :
    ∃ es, List.Forall₂ Reads (if w' = w then [] else [w']) es ∧
      Leaves p (State.Open (q :: qs)) es (State.Open qs) := by
  split_ifs
  · exact ⟨[], .nil, .nil fun s hs => ⟨hs.advisories, fun q' h => hs.unplaced q' (by simp [h])⟩⟩
  · obtain ⟨e, he, hce⟩ := h
    refine ⟨[e], .cons he .nil, .single fun s hs position s' hs' => ?_⟩
    rw [step_change hce position] at hs'
    obtain rfl := Except.ok.inj hs'
    exact hs.change hq hc position

lemma leaves_changes (m : Markings) {m' : Markings} {P : Parameters}
    (h : m'.Gives p.signature.beatsPerBar P) :
    ∃ es, List.Forall₂ Reads (m.changes m') es ∧ Leaves p State.Tidy es (State.Open []) := by
  obtain ⟨vs, hvs, hv⟩ := leaves_word .velocity [.duration, .probability] (by decide) m.velocity
    h.velocity rfl
  obtain ⟨ds, hds, hd⟩ := leaves_word .duration [.probability] (by decide) ('t' :: m.duration)
    h.duration rfl
  obtain ⟨ps, hps, hp⟩ := leaves_word .probability [] (by decide) ('p' :: m.probability)
    h.probability rfl
  simp only [List.cons.injEq, true_and] at hds hps
  have hstart : Leaves p State.Tidy [] (State.Open [.velocity, .duration, .probability]) :=
    .nil fun s hs => hs.opens _
  exact ⟨vs ++ ds ++ ps, List.rel_append (List.rel_append hvs hds) hps,
    ((hstart.append hv).append hd).append hp⟩

lemma leaves_pitches {pitches : List UInt8} (hne : pitches ≠ []) :
    Leaves p (State.Open []) (pitches.map .pitch) State.Loaded := by
  have hone (pitch : UInt8) : Leaves p (State.Open []) [.pitch pitch] State.Loaded :=
    .single fun s hs position s' hs' => Except.ok.inj hs' ▸ hs.addPitch pitch position
  have hagain : Leaves p State.Loaded [] (State.Open []) :=
    .nil fun s hs => ⟨hs.advisories, by simp⟩
  obtain ⟨pitch, more, rfl⟩ := List.exists_cons_of_ne_nil hne
  induction more generalizing pitch with
  | nil => exact hone pitch
  | cons next more ih => exact (hone pitch).append (hagain.append (ih next (by simp)))

/-- A legible score leaves nothing to remark on. -/
theorem leaves_score {chords : List Chord} (h : ∀ c ∈ chords, c.Legible p.signature.beatsPerBar)
    (m : Markings) (last : Option UInt32) :
    ∃ es, List.Forall₂ Reads (wordsFrom p.signature.beatsPerBar m last chords) es ∧
      Leaves p State.Tidy es State.Tidy := by
  induction chords generalizing m last with
  | nil => exact ⟨[], .nil, .nil fun _ hs => hs⟩
  | cons c chords ih =>
    obtain ⟨hc, hrest⟩ := List.forall_mem_cons.mp h
    obtain ⟨P, hP⟩ := hc.markings
    obtain ⟨x, hx, hone⟩ := hc.onBeat
    obtain ⟨changes, hreads, hchanges⟩ := leaves_changes m hP
    obtain ⟨fs, hfs, hleaves⟩ := ih hrest c.markings
      (some (Meter.barBeat c.start p.signature.beatsPerBar).1)
    have hpitches : List.Forall₂ Reads (c.pitches.map Pitch.name) (c.pitches.map .pitch) := by
      rw [List.forall₂_map_left_iff, List.forall₂_map_right_iff, List.forall₂_same]
      exact fun pitch hpitch => reads_pitch (hc.pitches pitch hpitch)
    have hplace : Leaves p State.Loaded
        [.position (c.bar? p.signature.beatsPerBar last) (.single x)] State.Tidy :=
      .single fun s hs position s' hs' => hs.place p.settings.repeatLimit hs'
    refine ⟨changes ++ c.pitches.map .pitch ++
      [.position (c.bar? p.signature.beatsPerBar last) (.single x)] ++ fs, ?_, ?_⟩
    · unfold wordsFrom
      rw [c.wordsAfter_eq]
      exact List.rel_append (List.rel_append (List.rel_append hreads hpitches)
        (.cons (c.reads_placeText hx hone last) .nil)) hfs
    · exact ((hchanges.append (leaves_pitches hc.pitches_ne_nil)).append hplace).append hleaves

end

/-- **Engraved scores are terse.** If what is engraved is performed, there is nothing to remark on.
Each of its words is read as one element, and each word for a velocity, a duration or a probability
differs from the one before it for the same parameter, where `v100`, `t1` and `p1` come first. -/
theorem engrave_terse {notes : List Note} {timing : Timing} {settings : Settings}
    {text : List Char} {performance : Performance} (h : engrave notes timing = .ok text)
    (hc : compile timing settings text = .ok performance) :
    performance.advisories = [] ∧
      (∃ elements, parse text = .ok elements ∧
        List.Forall₂ Reads (words text) (elements.map (·.value))) ∧
      ∀ usual ∈ ["v100".toList, "t1".toList, "p1".toList],
        (usual :: (words text).filter (·.head? = usual.head?)).IsChain (· ≠ ·) := by
  obtain ⟨signature, hsignature, -, rfl⟩ := engrave_eq_ok h
  obtain ⟨p, elements, s, hp, hparse, hs, rfl⟩ := compile_eq_finish hc
  obtain rfl : ⟨signature, settings⟩ = p := by
    unfold Performer.make at hp
    rw [hsignature] at hp
    exact Except.ok.inj hp
  rw [compile_of_resolve hsignature] at hc
  have hlegible := run_scoreText_iff.mp ⟨_, hc⟩
  have hmarkings : ∀ c ∈ Chord.ofNotes signature (notes.mergeSort writtenNoLater),
      ∃ n beats, c.markings = .of n beats := fun c hc =>
    (exists_markings hc).imp fun n hn => ⟨signature.toBeats n.duration, hn⟩
  -- from here on the chords count only by their markings
  generalize Chord.ofNotes signature (notes.mergeSort writtenNoLater) = chords at *
  have hunbroken : ∀ c ∈ chords, ∀ q, Unbroken (c.markings.word q) := by
    intro c hc
    obtain ⟨n, beats, hn⟩ := hmarkings c hc
    rw [hn]
    exact Markings.unbroken_of n beats
  have hlettered : ∀ c ∈ chords, c.markings.Lettered := by
    intro c hc
    obtain ⟨n, beats, hn⟩ := hmarkings c hc
    rw [hn]
    exact Markings.lettered_of n beats
  obtain ⟨es, hes, hleaves⟩ := leaves_score (p := ⟨signature, settings⟩)
    (fun c hc => (hlegible c hc).1) .usual none
  obtain ⟨elements', hparse', hvalue⟩ := parse_spaced spaced_scoreText hes
  obtain rfl : elements' = elements := Except.ok.inj (hparse'.symm.trans hparse)
  rw [spaced_scoreText.words_eq (unbroken_wordsFrom hunbroken)]
  refine ⟨(hleaves _ State.tidy_initial _ hvalue s hs).finish, ⟨_, hparse, hvalue ▸ hes⟩, ?_⟩
  have hword : ∀ usual ∈ ["v100".toList, "t1".toList, "p1".toList],
      ∃ q, usual = Markings.usual.word q := by
    simp only [List.forall_mem_cons]
    exact ⟨⟨.velocity, by decide +kernel⟩, ⟨.duration, by decide +kernel⟩,
      ⟨.probability, by decide +kernel⟩, nofun⟩
  intro usual husual
  obtain ⟨q, rfl⟩ := hword usual husual
  have hhead : (Markings.usual.word q).head? = some q.letter := by cases q <;> rfl
  rw [hhead]
  exact isChain_wordsFrom hlettered q

/-- Two notes of one chord and one that follows. -/
theorem engrave_terse_three :
    let notes : List Note := [⟨60, 0.0, 1.0, 80.0, 1.0, 20.0⟩, ⟨64, 0.0, 1.0, 80.0, 1.0, 20.0⟩,
      ⟨67, 5.5, 0.5, 100.0, 0.5, 0.0⟩]
    let text := "v80-100 C3 E3 1|1\nv100 t0.5 p0.5 G3 2|2.5".toList
    engrave notes .unstated = .ok text ∧
      ∃ performance, compile .unstated .usual text = .ok performance ∧
        performance.advisories = [] ∧
        (∃ elements, parse text = .ok elements ∧
          List.Forall₂ Reads (words text) (elements.map (·.value))) ∧
        ∀ usual ∈ ["v100".toList, "t1".toList, "p1".toList],
          (usual :: (words text).filter (·.head? = usual.head?)).IsChain (· ≠ ·) := by
  intro notes text
  have hsort : notes.mergeSort writtenNoLater = notes :=
    List.mergeSort_of_pairwise (by decide +kernel)
  have h : engrave notes .unstated = .ok text := by
    unfold engrave
    rw [hsort]
    decide +kernel
  have hquiet : (compile .unstated .usual text).toOption.map (·.advisories) = some [] := by
    decide +kernel
  obtain ⟨performance, hc, -⟩ := exists_performance hquiet
  exact ⟨h, performance, hc, engrave_terse h hc⟩

end Barline.Score
