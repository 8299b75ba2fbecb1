import Barline.Proofs.Score.Amount
import Barline.Proofs.Score.Naming
import Barline.Proofs.Score.Words

/-!
# How elements are spelled

Each word that an engraver writes is read as one element wherever it stands, or is refused wherever
it stands.
-/

namespace Barline.Score

open Number Scan Reader

/-- Where a word may begin: neither in a blank nor in a comment. -/
def Begins (w : List Char) : Prop :=
  ∃ c rest, w = c :: rest ∧ isBlank c = false ∧ c ≠ '#' ∧ c ≠ '/'

lemma Begins.ne_nil {w : List Char} (h : Begins w) : w ≠ [] := by
  obtain ⟨c, rest, rfl, -⟩ := h
  simp

/-- A word that is read as one element. -/
structure Reads (w : List Char) (e : Element) : Prop where
  begins : Begins w
  takes : ∀ s, Ends s → Takes word w s fun es => es.map (·.value) = [e]

/-- A word that is refused. -/
structure Unreadable (w : List Char) : Prop where
  begins : Begins w
  refuses : ∀ s, Ends s → Refuses word (w ++ s)

lemma Reads.eq {w : List Char} {e f : Element} (he : Reads w e) (hf : Reads w f) : e = f := by
  have hnil : Ends [] := by simp [Ends]
  obtain ⟨es, p, hes, he⟩ := he.takes [] hnil .start
  obtain ⟨fs, q, hfs, hf⟩ := hf.takes [] hnil .start
  rw [hes] at hfs
  cases hfs
  simpa using he.symm.trans hf

lemma Reads.not_unreadable {w : List Char} {e : Element} (h : Reads w e) : ¬ Unreadable w := by
  intro hw
  have hnil : Ends [] := by simp [Ends]
  obtain ⟨es, p, hes, -⟩ := h.takes [] hnil .start
  obtain ⟨e, he⟩ := hw.refuses [] hnil .start
  rw [hes] at he
  cases he

/-- A scan of one element, as a scan of a word. -/
def one (x : Scan Element) (position : Position) : Scan Elements := do return [⟨← x, position⟩]

lemma word_velocity (t : List Char) (p : Position) :
    word ⟨'v' :: t, p⟩ = one (velocityElement p) p ⟨'v' :: t, p⟩ := rfl

lemma word_duration (t : List Char) (p : Position) :
    word ⟨'t' :: t, p⟩ = one (durationElement p) p ⟨'t' :: t, p⟩ := rfl

lemma word_probability (t : List Char) (p : Position) :
    word ⟨'p' :: t, p⟩ = one (probabilityElement p) p ⟨'p' :: t, p⟩ := rfl

lemma word_pitch {c : Char} (hc : c ∈ ['A', 'B', 'C', 'D', 'E', 'F', 'G']) (t : List Char)
    (p : Position) : word ⟨c :: t, p⟩ = one (pitchElement c p) p ⟨c :: t, p⟩ := by
  simp only [List.mem_cons, List.not_mem_nil, or_false] at hc
  rcases hc with rfl | rfl | rfl | rfl | rfl | rfl | rfl <;> rfl

lemma digit_cases {c : Char} (hc : c.isDigit) :
    c ∈ ['0', '1', '2', '3', '4', '5', '6', '7', '8', '9'] := by
  simp only [Char.isDigit, Bool.and_eq_true, decide_eq_true_eq] at hc
  have h1 : 48 ≤ c.toNat := hc.1
  have h2 : c.toNat ≤ 57 := hc.2
  rw [← Char.ofNat_toNat c]
  interval_cases c.toNat <;> decide

lemma word_position {c : Char} (hc : c = '|' ∨ c.isDigit) (t : List Char) (p : Position) :
    word ⟨c :: t, p⟩ = positionElements ⟨c :: t, p⟩ := by
  rcases hc with rfl | hc
  · rfl
  · have h := digit_cases hc
    simp only [List.mem_cons, List.not_mem_nil, or_false] at h
    rcases h with rfl | rfl | rfl | rfl | rfl | rfl | rfl | rfl | rfl | rfl <;> rfl

section

variable {c : Char} {w : List Char} {x : Position → Scan Element} {e : Element}

lemma Reads.of_one (hb : Begins (c :: w))
    (hword : ∀ t p, word ⟨c :: t, p⟩ = one (x p) p ⟨c :: t, p⟩)
    (h : ∀ s, Ends s → ∀ p, Takes (x p) (c :: w) s (· = e)) : Reads (c :: w) e := by
  refine ⟨hb, fun s hs p => ?_⟩
  obtain ⟨a, p', ha, rfl⟩ := h s hs p p
  refine ⟨[⟨a, p⟩], p', ?_, rfl⟩
  rw [List.cons_append, hword]
  unfold one
  rw [bind_apply, ← List.cons_append, ha]
  rfl

lemma Unreadable.of_one (hb : Begins (c :: w))
    (hword : ∀ t p, word ⟨c :: t, p⟩ = one (x p) p ⟨c :: t, p⟩)
    (h : ∀ s, Ends s → ∀ p, Refuses (x p) (c :: w ++ s)) : Unreadable (c :: w) := by
  refine ⟨hb, fun s hs p => ?_⟩
  obtain ⟨e, he⟩ := (h s hs p).bind (fun a => pure [(⟨a, p⟩ : Located Element)]) p
  exact ⟨e, by rw [List.cons_append, hword]; exact he⟩

end

lemma begins_of_mem {c : Char} (hc : c ∈ ['v', 't', 'p', '|'] ∨ c.isDigit ∨
    c ∈ ['A', 'B', 'C', 'D', 'E', 'F', 'G']) (w : List Char) : Begins (c :: w) := by
  refine ⟨c, w, rfl, ?_⟩
  rcases hc with hc | hc | hc
  · fin_cases hc <;> decide
  · have h := digit_cases hc
    clear hc
    fin_cases h <;> decide
  · fin_cases hc <;> decide

theorem reads_velocity {low high : UInt8} (hl : low.toNat ≤ 127) (hh : high.toNat ≤ 127) :
    Reads ('v' :: Nat.toDigits 10 low.toNat ++
      if low < high then '-' :: Nat.toDigits 10 high.toNat else []) (velocityMark low high) :=
  .of_one (begins_of_mem (by simp) _) word_velocity fun _ hs p => takes_velocityElement hl hh hs p

theorem reads_duration {d : Decimal} (hd : d.Proper) (hpos : 0.0 < d.value) :
    Reads ('t' :: d.text) (.duration (.beats d.value)) :=
  .of_one (begins_of_mem (by simp) _) word_duration fun _ hs p => takes_durationElement hd hpos hs p

theorem reads_probability {d : Decimal} (hd : d.Proper) (h0 : 0.0 ≤ d.value) (h1 : d.value ≤ 1.0) :
    Reads ('p' :: d.text) (.probability d.value) :=
  .of_one (begins_of_mem (by simp) _) word_probability fun _ hs p =>
    takes_probabilityElement hd h0 h1 hs p

theorem unreadable_duration {c : Char} (hc : c ∈ ['-', 'i', 'N']) (w : List Char) :
    Unreadable ('t' :: c :: w) :=
  .of_one (begins_of_mem (by simp) _) word_duration fun s _ p =>
    refuses_durationElement hc (w ++ s) p

theorem unreadable_probability {c : Char} (hc : c ∈ ['-', 'i', 'N']) (w : List Char) :
    Unreadable ('p' :: c :: w) :=
  .of_one (begins_of_mem (by simp) _) word_probability fun s _ p =>
    refuses_probabilityElement hc (w ++ s) p

lemma placeText_eq_cons (bar : Option UInt32) (w : List Char) :
    ∃ c rest, barText bar ++ '|' :: w = c :: rest ∧ (c = '|' ∨ c.isDigit) := by
  cases bar with
  | none => exact ⟨'|', w, rfl, .inl rfl⟩
  | some bar =>
    obtain ⟨c, ds, hds⟩ :=
      List.exists_cons_of_ne_nil (Nat.toDigits_ne_nil (n := bar.toNat) (b := 10))
    refine ⟨c, ds ++ '|' :: w, by simp [barText, hds], .inr ?_⟩
    exact isDigit_toDigits bar.toNat c (by simp [hds])

lemma begins_place (bar : Option UInt32) (w : List Char) : Begins (barText bar ++ '|' :: w) := by
  obtain ⟨c, rest, hw, hc⟩ := placeText_eq_cons bar w
  rw [hw]
  exact begins_of_mem (hc.elim (fun h => .inl (by simp [h])) fun h => .inr (.inl h)) rest

theorem reads_place {bar : Option UInt32} (hbar : bar ≠ some 0) {d : Decimal} (hd : d.Proper)
    (hbeat : ¬ d.value < 1.0) :
    Reads (barText bar ++ '|' :: d.text) (.position bar (.single d.value)) := by
  obtain ⟨c, rest, hw, hc⟩ := placeText_eq_cons bar d.text
  refine ⟨begins_place bar _, fun s hs p => ?_⟩
  obtain ⟨es, p', hes, he⟩ := takes_positionElements hbar hd hbeat hs p
  refine ⟨es, p', ?_, he⟩
  rw [hw, List.cons_append] at hes ⊢
  rw [word_position hc, hes]

theorem unreadable_place {bar : Option UInt32} (hbar : bar ≠ some 0) {w : List Char}
    (h : ∀ s, Ends s → Refuses beat (w ++ s)) : Unreadable (barText bar ++ '|' :: w) := by
  obtain ⟨c, rest, hw, hc⟩ := placeText_eq_cons bar w
  refine ⟨begins_place bar _, fun s hs p => ?_⟩
  obtain ⟨e, he⟩ := refuses_positionElements hbar (h s hs) p
  refine ⟨e, ?_⟩
  have htext : barText bar ++ '|' :: w ++ s = barText bar ++ '|' :: (w ++ s) := by simp
  rw [htext]
  rw [← htext, hw, List.cons_append] at he ⊢
  rw [word_position hc, he]

/-- The parts of the name of a pitch. -/
def spelled (pitch : UInt8) : PitchName :=
  let letters := Pitch.sharpNames.getD (pitch.toNat % 12) []
  let octave : ℤ := (pitch.toNat / 12 : ℕ) - 2
  ⟨letters.headD 'C', letters[1]?, octave < 0, Nat.toDigits 10 octave.natAbs⟩

/-- What the name of a pitch is made of, and which pitch it names again. -/
structure Spells (n : PitchName) (pitch : UInt8) : Prop where
  chars : n.chars = Pitch.name pitch
  letter : n.letter ∈ ['A', 'B', 'C', 'D', 'E', 'F', 'G']
  accidental : n.accidental = none ∨ n.accidental = some '#'
  digits_ne_nil : n.digits ≠ []
  digits : ∀ c ∈ n.digits, c.isDigit
  octave : valueOf n.digits < Pitch.octaveLimit
  midi : Pitch.ofMidi? (Pitch.midi n.semitones (n.signed (valueOf n.digits))) =
    if pitch ≤ 127 then some pitch else none

instance (n : PitchName) (pitch : UInt8) : Decidable (Spells n pitch) :=
  decidable_of_iff (n.chars = Pitch.name pitch ∧ n.letter ∈ ['A', 'B', 'C', 'D', 'E', 'F', 'G'] ∧
    (n.accidental = none ∨ n.accidental = some '#') ∧ n.digits ≠ [] ∧
    n.digits.all Char.isDigit ∧ valueOf n.digits < Pitch.octaveLimit ∧
    Pitch.ofMidi? (Pitch.midi n.semitones (n.signed (valueOf n.digits))) =
      if pitch ≤ 127 then some pitch else none)
    ⟨fun ⟨h1, h2, h3, h4, h5, h6, h7⟩ => ⟨h1, h2, h3, h4, List.all_eq_true.mp h5, h6, h7⟩,
      fun ⟨h1, h2, h3, h4, h5, h6, h7⟩ => ⟨h1, h2, h3, h4, List.all_eq_true.mpr h5, h6, h7⟩⟩

theorem spells_spelled (pitch : UInt8) : Spells (spelled pitch) pitch := by
  have hall : ∀ n < 256, Spells (spelled (UInt8.ofNat n)) (UInt8.ofNat n) := by
    decide +kernel
  have h := hall pitch.toNat pitch.toNat_lt
  rwa [UInt8.ofNat_toNat] at h

section

variable {s : List Char} {n : PitchName} {pitch : UInt8}

lemma Spells.named (hn : Spells n pitch) : Named n where
  letter := hn.letter
  accidental := by rcases hn.accidental with h | h <;> simp [h]
  digits_ne_nil := hn.digits_ne_nil
  digits := hn.digits

lemma Named.chars_eq (n : PitchName) : n.chars = [n.letter] ++ (n.accidental.toList ++
    ((if n.negative then ['-'] else []) ++ (n.digits ++ []))) := by
  simp [PitchName.chars]

lemma Named.head?_octave_ne (hn : Named n) {d : Char} (hd : d.isDigit = false)
    (hdash : n.negative = true → d ≠ '-') (s : List Char) :
    ((if n.negative then ['-'] else []) ++ (n.digits ++ s)).head? ≠ some d := by
  obtain ⟨c, ds, hds⟩ := List.exists_cons_of_ne_nil hn.digits_ne_nil
  have hc : c.isDigit := hn.digits c (by simp [hds])
  have hcd : c ≠ d := by
    rintro rfl
    exact absurd hc (by simp [hd])
  cases hnegative : n.negative with
  | false => simp [hds, hcd]
  | true => simpa using (hdash hnegative).symm

lemma Named.takes_accidental (hn : Named n) (s : List Char) :
    Takes Scan.accidental n.accidental.toList
      ((if n.negative then ['-'] else []) ++ (n.digits ++ []) ++ s) (· = n.accidental) := by
  rw [List.append_nil, List.append_assoc]
  exact Scan.takes_accidental hn.accidental
    ⟨hn.head?_octave_ne (by decide : '#'.isDigit = false) (fun _ => by decide) s,
      hn.head?_octave_ne (by decide : 'b'.isDigit = false) (fun _ => by decide) s⟩

theorem takes_pitchName (hn : Named n) (hs : NoDigit s) :
    Takes (pitchName n.letter) n.chars s (· = n) := by
  unfold pitchName
  rw [Named.chars_eq]
  refine (takes_advance n.letter).bind fun _ _ => ?_
  refine (hn.takes_accidental s).bind ?_
  rintro _ rfl
  have hnegative : Takes (eat '-') (if n.negative then ['-'] else []) (n.digits ++ [] ++ s)
      (· = n.negative) := by
    cases hdash : n.negative with
    | true => exact takes_eat '-'
    | false =>
      refine takes_not_eat ?_
      have hne := hn.head?_octave_ne (d := '-') (by decide) (by simp [hdash]) s
      simpa [hdash] using hne
  refine hnegative.bind ?_
  rintro _ rfl
  refine (takes_digits hn.digits (by simpa using hs)).bind ?_
  rintro _ rfl
  rw [if_neg (by simpa using hn.digits_ne_nil)]
  exact takes_pure rfl

theorem takes_pitchElement (hn : Named n) (hpitch : ReadAs n pitch) (hs : Ends s)
    (position : Position) :
    Takes (pitchElement n.letter position) n.chars s (· = .pitch pitch) := by
  obtain ⟨hoctave, hmidi⟩ := readAs_iff.mp hpitch
  unfold pitchElement
  rw [← List.append_nil n.chars]
  refine (takes_pitchName hn (by simpa using hs.noDigit)).bind ?_
  rintro _ rfl
  dsimp only
  rw [if_pos hoctave, hmidi]
  exact (takes_endOfElement _ hs).bind_nil fun _ _ => takes_pure rfl

/-- A pitch out of range is refused where its name begins. -/
theorem pitchElement_outside (hn : Named n) (hpitch : ∀ pitch, ¬ ReadAs n pitch)
    (hs : NoDigit s) (position p : Position) :
    ∃ cause, pitchElement n.letter position ⟨n.chars ++ s, p⟩ =
      .error (.domain cause (some position)) := by
  obtain ⟨name, p', hname, hsame⟩ := takes_pitchName hn hs p
  unfold pitchElement
  rw [bind_apply, hname, hsame]
  dsimp only
  by_cases hoctave : valueOf n.digits < Pitch.octaveLimit
  · rw [if_pos hoctave]
    cases hmidi : Pitch.ofMidi? (Pitch.midi n.semitones (n.signed (valueOf n.digits))) with
    | none => exact ⟨_, rfl⟩
    | some pitch => exact absurd (readAs_iff.mpr ⟨hoctave, hmidi⟩) (hpitch pitch)
  · rw [if_neg hoctave]
    exact ⟨_, rfl⟩

end

/-- A pitch that is in range is read from its name. -/
theorem reads_pitch {pitch : UInt8} (hpitch : pitch ≤ 127) :
    Reads (Pitch.name pitch) (.pitch pitch) := by
  have hn := spells_spelled pitch
  have hmidi := hn.midi
  rw [if_pos hpitch] at hmidi
  have hreadAs : ReadAs (spelled pitch) pitch := readAs_iff.mpr ⟨hn.octave, hmidi⟩
  rw [← hn.chars]
  exact .of_one (begins_of_mem (.inr (.inr hn.letter)) _) (word_pitch hn.letter)
    fun _ hs p => takes_pitchElement hn.named hreadAs hs p

/-- A pitch that is out of range has a name that is refused. -/
theorem unreadable_pitch {pitch : UInt8} (hpitch : ¬ pitch ≤ 127) :
    Unreadable (Pitch.name pitch) := by
  have hn := spells_spelled pitch
  have hmidi := hn.midi
  rw [if_neg hpitch] at hmidi
  have hsilent (other : UInt8) : ¬ ReadAs (spelled pitch) other := fun h => by
    have hother := (readAs_iff.mp h).2
    rw [hmidi] at hother
    cases hother
  rw [← hn.chars]
  refine .of_one (begins_of_mem (.inr (.inr hn.letter)) _) (word_pitch hn.letter) ?_
  intro s hs position p
  obtain ⟨cause, herror⟩ := pitchElement_outside hn.named hsilent hs.noDigit position p
  exact ⟨_, herror⟩

end Barline.Score
