import Barline.Proofs.Score.Elsewhere
import Barline.Proofs.Score.Spaced
import Barline.Proofs.Text.Lines

/-!
# Lines of a score

A score with one more line has the elements of the score and then those of the line, which stand
further down.
-/

namespace Barline.Score

open Scan Reader

lemma portable_word : Portable word fun f es => es.map (·.moved f) where
  carries _ _ hne := carries_word hne
  moved_id := List.map_id

lemma nextWord_eq_afterTrivia : nextWord = afterTrivia word := rfl

/-- A position further down. -/
def down (lines : ℕ) (p : Position) : Position := ⟨p.line + lines, p.column⟩

/-- The place of a line that stands further down. -/
def furtherDown (lines : ℕ) : Setting where
  move := down lines
  behind := []
  move_past p c := by
    unfold down Position.past
    split_ifs
    · simp [Nat.add_right_comm]
    · rfl
  ends := ends_nil

lemma furtherDown_start (p : Position) :
    (furtherDown p.line).move .start = p.past '\n' := by
  simp [furtherDown, Position.past, down, Position.start, Nat.add_comm]

lemma parse_eq_many (text : List Char) :
    parse text = (many nextWord (text.length + 1) (.start text)).map (·.1.flatten) := by
  rw [elements_apply, List.append_nil]
  rfl

lemma parse_line_from {a : List Char} {es : Elements} {c : Cursor}
    (ha : elements (.start a) = .ok (es, c)) (b : List Char) :
    parse (a ++ '\n' :: b) = match parse b with
      | .ok fs => .ok (es ++ fs.map (·.moved (down c.position.line)))
      | .error e => .error (e.moved (down c.position.line)) := by
  rw [elements_many] at ha
  rcases hmany : many nextWord ((Cursor.start a).rest.length + 1) (.start a) with e | ⟨rs, c'⟩
  · rw [hmany] at ha
    cases ha
  · rw [hmany] at ha
    obtain ⟨rfl, rfl⟩ := Prod.mk.inj (Except.ok.inj ha)
    have hbelow := portable_word.many_below (a := a) hmany (t := furtherDown c'.position.line) rfl
      (furtherDown_start _) b
    rw [parse_eq_many, parse_eq_many, nextWord_eq_afterTrivia, hbelow]
    rcases many (afterTrivia word) (b.length + 1) (.start b) with e | ⟨ss, d⟩
    · rfl
    · simp [Except.map, List.map_flatten, furtherDown]

/-- **One more line.** A text that is read and a line behind it are read as the elements of both,
those of the line further down; the line is refused for its own reason. -/
theorem parse_line {a : List Char} {es : Elements} (ha : parse a = .ok es) :
    ∃ lines, ∀ b, parse (a ++ '\n' :: b) = match parse b with
      | .ok fs => .ok (es ++ fs.map (·.moved (down lines)))
      | .error e => .error (e.moved (down lines)) := by
  obtain ⟨c, hc⟩ := elements_of_parse ha
  exact ⟨c.position.line, parse_line_from hc⟩

end Barline.Score
