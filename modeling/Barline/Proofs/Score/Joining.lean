import Barline.Proofs.Score.Acceptance
import Barline.Proofs.Score.Lines
import Barline.Proofs.Text.Pointing

/-!
# One text below another

A text that is read is read to its end, and a newline there closes whatever could have gone on. So
the text below it is read as it is on its own, only that all its positions lie as many lines further
down as the text above has.
-/

namespace Barline.Score

open Scan Reader

lemma end_of_elements {text : List Char} {es : Elements} {c : Cursor}
    (h : elements (.start text) = .ok (es, c)) : c.position = .behind text := by
  obtain ⟨w, s, rfl, rfl, ess, hess, -⟩ := parses_elements.sound trivial h
  obtain rfl := eq_nil_of_many hess
  rw [List.append_nil]
  exact pastAll_behind [] w

/-- **One text below another.** Below a text that is read, a text is read as it is on its own, as
many lines further down as there are newlines in front of it; the columns stay. If it is refused, it
is refused for the same reason, which stands as many lines further down. -/
theorem parse_below {a : List Char} {es : Elements} (ha : parse a = .ok es) (b : List Char) :
    (∀ fs, parse b = .ok fs →
      parse (a ++ '\n' :: b) = .ok (es ++ fs.map (·.moved (down (1 + a.count '\n'))))) ∧
    ∀ e, parse b = .error e →
      parse (a ++ '\n' :: b) = .error (e.moved (down (1 + a.count '\n'))) := by
  obtain ⟨c, hc⟩ := elements_of_parse ha
  have hlines : c.position.line = 1 + a.count '\n' := by
    rw [end_of_elements hc, Nat.add_comm]
    rfl
  have hparse := parse_line_from hc b
  rw [hlines] at hparse
  refine ⟨fun fs hb => ?_, fun e hb => ?_⟩
  · rw [hparse, hb]
  · rw [hparse, hb]

/-- A text that ends in an open line comment. Below it, one text is read and another is refused. -/
theorem parse_below_comment :
    let a := "v80\nC3 1|2+1/2 // low".toList
    let b := "/* up */\n E3 |1".toList
    let b' := "E3\n1|x".toList
    ∃ es fs e, parse a = .ok es ∧ parse b = .ok fs ∧ parse b' = .error e ∧
      fs.map (·.position) = [⟨2, 2⟩, ⟨2, 6⟩] ∧ e.position = some ⟨2, 3⟩ ∧
      parse (a ++ '\n' :: b) = .ok (es ++ fs.map (·.moved (down 2))) ∧
      parse (a ++ '\n' :: b') = .error (e.moved (down 2)) := by
  intro a b b'
  have ha : parse a = .ok [⟨.velocity 80, ⟨1, 1⟩⟩, ⟨.pitch 60, ⟨2, 1⟩⟩,
      ⟨.position (some 1) (.single 2.5), ⟨2, 6⟩⟩] := by decide +kernel
  have hb : parse b = .ok [⟨.pitch 64, ⟨2, 2⟩⟩, ⟨.position none (.single 1.0), ⟨2, 6⟩⟩] := by
    decide +kernel
  have hb' : parse b' = .error (.grammar ["beat"] (.char 'x') ⟨2, 3⟩) := by decide +kernel
  exact ⟨_, _, _, ha, hb, hb', rfl, rfl, (parse_below ha b).1 _ hb, (parse_below ha b').2 _ hb'⟩

end Barline.Score
