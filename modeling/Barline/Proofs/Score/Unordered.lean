import Barline.Proofs.Score.RoundTrip
import Barline.Proofs.Score.Sorting

/-!
# Engraving notes in any order

Notes are sorted by their starts and pitches when they are engraved, and the sort leaves notes that
agree in both as they stand. So where these are written alike, the order of the notes does not show
in what is engraved.
-/

namespace Barline.Score

/-- What decides where a note is written. -/
def writingKey (n : Note) : ℤ ×ₗ ℕ := toLex (Number.orderKey n.start, n.pitch.toNat)

lemma writtenNoLater_iff (a b : Note) : writtenNoLater a b ↔ writingKey a ≤ writingKey b := by
  unfold writtenNoLater writingKey
  rw [Prod.Lex.toLex_le_toLex]
  simp [UInt8.le_iff_toNat_le]

lemma writingKey_inj {a b : Note} :
    writingKey a = writingKey b ↔ a.start = b.start ∧ a.pitch = b.pitch := by
  simp [writingKey, Number.orderKey_inj, UInt8.toNat_inj]

section

variable {signature : Signature}

lemma gather_congr {notes notes' : List Note} (c : Chord)
    (h : notes.map (Chord.single signature) = notes'.map (Chord.single signature)) :
    Chord.gather signature c notes = Chord.gather signature c notes' := by
  induction notes generalizing notes' c with
  | nil =>
    obtain rfl := List.map_eq_nil_iff.mp h.symm
    rfl
  | cons n notes ih =>
    obtain ⟨n', notes', rfl, hn, hnotes⟩ := List.map_eq_cons_iff.mp h.symm
    unfold Chord.gather
    dsimp only
    rw [hn]
    split_ifs
    · exact ih _ hnotes.symm
    · exact congrArg _ (ih _ hnotes.symm)

lemma ofNotes_congr {notes notes' : List Note}
    (h : notes.map (Chord.single signature) = notes'.map (Chord.single signature)) :
    Chord.ofNotes signature notes = Chord.ofNotes signature notes' := by
  cases notes with
  | nil =>
    obtain rfl := List.map_eq_nil_iff.mp h.symm
    rfl
  | cons n notes =>
    obtain ⟨n', notes', rfl, hn, hnotes⟩ := List.map_eq_cons_iff.mp h.symm
    change Chord.gather signature (Chord.single signature n) notes =
      Chord.gather signature (Chord.single signature n') notes'
    rw [hn]
    exact gather_congr _ hnotes.symm

end

/-- Notes that start at the same time with the same pitch have the same markings. -/
def AlikeIfTied (signature : Signature) (notes : List Note) : Prop :=
  ∀ a ∈ notes, ∀ b ∈ notes, a.start.toBits = b.start.toBits → a.pitch = b.pitch →
    Markings.of a (signature.toBeats a.duration) = Markings.of b (signature.toBeats b.duration)

/-- **Notes in any order.** Where notes that start at the same time with the same pitch are written
with the same velocity, duration and probability, the same notes in another order are engraved if
these are, and as the same text. -/
theorem engrave_perm {notes notes' : List Note} {timing : Timing} (h : notes.Perm notes')
    (halike : ∀ signature, timing.resolve = .ok signature → AlikeIfTied signature notes)
    (text : List Char) :
    engrave notes timing = .ok text ↔ engrave notes' timing = .ok text := by
  have htext (signature : Signature) (hsignature : timing.resolve = .ok signature) :
      Chord.ofNotes signature (notes.mergeSort writtenNoLater) =
        Chord.ofNotes signature (notes'.mergeSort writtenNoLater) := by
    refine ofNotes_congr (map_mergeSort_of_perm writtenNoLater_iff h fun a ha b hb hkey => ?_)
    obtain ⟨hstart, hpitch⟩ := writingKey_inj.mp hkey
    have hmarkings := halike signature hsignature a ha b hb (congrArg _ hstart) hpitch
    unfold Chord.single
    rw [hstart, hpitch, hmarkings]
  rw [engrave_eq_ok_iff, engrave_eq_ok_iff]
  refine exists_congr fun signature => and_congr_right fun hsignature => ?_
  rw [htext signature hsignature]
  simp only [h.mem_iff]

/-- Two notes that differ only in what rounding takes away, and a third that joins their chord from
a hair later. -/
theorem engrave_perm_three :
    let a : Note := ⟨60, 0.0, 1.0, 100.0, 1.0, 0.0⟩
    let b : Note := ⟨60, 0.0, 1.0000001, 99.9, 1.0, 0.0⟩
    let c : Note := ⟨64, 0.0000004, 1.0, 100.0, 1.0, 0.0⟩
    [a, b, c].Perm [c, b, a] ∧
      (∀ signature, Timing.unstated.resolve = .ok signature → AlikeIfTied signature [a, b, c]) ∧
      engrave [a, b, c] .unstated = .ok "C3 C3 E3 1|1".toList ∧
      engrave [c, b, a] .unstated = .ok "C3 C3 E3 1|1".toList := by
  intro a b c
  have hperm : [a, b, c].Perm [c, b, a] := by decide +kernel
  have halike (signature : Signature) (h : Timing.unstated.resolve = .ok signature) :
      AlikeIfTied signature [a, b, c] := by
    obtain rfl : Signature.common = signature := Except.ok.inj h
    unfold AlikeIfTied
    decide +kernel
  have hsort : [a, b, c].mergeSort writtenNoLater = [a, b, c] :=
    List.mergeSort_of_pairwise (by decide +kernel)
  have htext : engrave [a, b, c] .unstated = .ok "C3 C3 E3 1|1".toList := by
    unfold engrave
    rw [hsort]
    decide +kernel
  exact ⟨hperm, halike, htext, (engrave_perm hperm halike _).mp htext⟩

end Barline.Score
