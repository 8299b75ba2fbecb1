import Barline.Proofs.Score.Grammar

/-!
# Pitch names and what they are read as

A name says a MIDI number, which is reckoned in words of 32 bits. Only far octaves are so great that
the words wrap around, and some of them come back into the range of pitches.
-/

namespace Barline

theorem Pitch.midi_eq_bmod (semitones octave : Int) :
    midi semitones octave = ((octave + 2) * 12 + semitones).bmod (2 ^ 32) := by
  have hword : midiWord (Int32.ofInt semitones) (Int32.ofInt octave) =
      Int32.ofInt ((octave + 2) * 12 + semitones) := by
    rw [Int32.ofInt_add, Int32.ofInt_mul, Int32.ofInt_add]
    rfl
  rw [midi, hword]
  exact Int32.toInt_ofInt

namespace Score

open Number

variable {n : PitchName} {pitch : UInt8}

lemma semitones_bounds (n : PitchName) : -1 ≤ n.semitones ∧ n.semitones ≤ 12 := by
  have hnatural : ∀ x ∈ Pitch.naturals.lookup n.letter, 0 ≤ x ∧ x ≤ 11 := by
    unfold Pitch.naturals
    simp only [List.lookup]
    repeat' split
    all_goals simp
  unfold PitchName.semitones Pitch.class?
  cases hx : Pitch.naturals.lookup n.letter with
  | none => simp
  | some x =>
    obtain ⟨h0, h11⟩ := hnatural x hx
    simp only [Option.bind_eq_bind, Option.bind_some]
    split <;> simp <;> omega

/-- Up to multiples of `2 ^ 32`, a number that is a pitch can only come from a far octave if it is
not the pitch itself. -/
lemma readAs_iff_modEq : ReadAs n pitch ↔
    valueOf n.digits < 2 ^ 31 ∧ midiOf n ≡ pitch.toNat [ZMOD 2 ^ 32] ∧ pitch ≤ 127 := by
  obtain ⟨hlow, hhigh⟩ := semitones_bounds n
  constructor
  · rintro (⟨hexact, hle⟩ | h)
    · have htop : pitch.toNat ≤ 127 := UInt8.le_iff_toNat_le.mp hle
      refine ⟨?_, hexact ▸ rfl, hle⟩
      unfold midiOf PitchName.signed at hexact
      split_ifs at hexact <;> omega
    · exact ⟨h.octave_lt, h.midi, h.le⟩
  · rintro ⟨hoctave, hmidi, hle⟩
    have htop : pitch.toNat ≤ 127 := UInt8.le_iff_toNat_le.mp hle
    by_cases hexact : midiOf n = pitch.toNat
    · exact .inl ⟨hexact, hle⟩
    · refine .inr ⟨?_, hoctave, hexact, hmidi, hle⟩
      have hdvd := Int.modEq_iff_dvd.mp hmidi
      unfold midiOf PitchName.signed at hexact hdvd
      split_ifs at hexact hdvd <;> omega

/-- A name is read as what its number comes to in words. -/
theorem readAs_iff : ReadAs n pitch ↔ valueOf n.digits < Pitch.octaveLimit ∧
    Pitch.ofMidi? (Pitch.midi n.semitones (n.signed (valueOf n.digits))) = some pitch := by
  have hpitch := pitch.toNat_lt
  rw [readAs_iff_modEq, Pitch.ofMidi?_eq_some_iff, Pitch.midi_eq_bmod,
    Int.bmod_eq_iff (by decide)]
  constructor
  · rintro ⟨hoctave, hmidi, hle⟩
    exact ⟨hoctave, ⟨by omega, by omega, Int.modEq_iff_dvd.mp hmidi⟩, hle⟩
  · rintro ⟨hoctave, ⟨-, -, hdvd⟩, hle⟩
    exact ⟨hoctave, Int.modEq_iff_dvd.mpr hdvd, hle⟩

lemma ReadAs.le (h : ReadAs n pitch) : pitch ≤ 127 := (readAs_iff_modEq.mp h).2.2

end Score

end Barline
