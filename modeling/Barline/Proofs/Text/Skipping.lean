import Barline.Proofs.Text.Pointing

/-!
# Where skipping stops

Skipping passes the longest trivia that comes next. What stands behind it begins no trivia, or it
opens a block comment that is never closed, and then skipping reports where that is.
-/

namespace Barline

/-- A text is a comment in front of another one: up to the end of its line, or up to the first `*/`
behind its opening. -/
inductive Comment : List Char → List Char → Prop
  | line {opening body s : List Char} (hopening : opening ∈ lineOpenings) (hbody : '\n' ∉ body)
    (hend : LineEnds s) : Comment (opening ++ body) s
  | block {body s : List Char} (hbody : ¬ ['*', '/'] <:+: body) :
    Comment ('/' :: '*' :: (body ++ ['*', '/'])) s

/-- The cut between two texts lies inside of a comment that is reached through trivia: one that ends
behind the cut, or a block comment that never ends. -/
inductive InsideComment : List Char → List Char → Prop
  | ends {gap front back rest : List Char} (hgap : Trivia gap (front ++ (back ++ rest)))
    (hfront : front ≠ []) (hback : back ≠ []) (h : Comment (front ++ back) rest) :
    InsideComment (gap ++ front) (back ++ rest)
  | unclosed {gap front v inner : List Char} (hgap : Trivia gap (front ++ v)) (hfront : front ≠ [])
    (htext : front ++ v = '/' :: '*' :: inner) (hinner : ¬ ['*', '/'] <:+: inner) :
    InsideComment (gap ++ front) v

/-- No trivia of a text reaches further than `u`. -/
structure LongestTrivia (u v : List Char) : Prop where
  trivia : Trivia u v
  longest : ∀ u' v', u' ++ v' = u ++ v → Trivia u' v' → u' <+: u

lemma Comment.trivia {w s : List Char} (h : Comment w s) : Trivia w s := by
  cases h with
  | @line opening body s hopening hbody hend =>
    simpa using Trivia.line (w := []) hopening hbody hend .nil
  | block hbody => exact .block (w := []) hbody .nil

namespace Region

variable {u v inner : List Char} {p : Position} {c : Cursor}

/-- Trivia in front of which skipping stops is the longest, as shorter trivia leaves the rest of it
to be skipped. -/
lemma longest_of_skip (h : Region.plain.skip (u ++ v) p = ⟨⟨v, p.pastAll u⟩, none⟩)
    {u' v' : List Char} (htext : u' ++ v' = u ++ v) (hu' : Trivia u' v') : u' <+: u := by
  rw [← htext, skip_trivia hu'] at h
  obtain ⟨w, s, rfl, hc, -, -⟩ := skip_sound h nofun
  obtain ⟨rfl, -⟩ := Cursor.mk.inj hc
  rw [← List.append_assoc] at htext
  exact ⟨w, List.append_cancel_right htext⟩

lemma longest_of_unclosed (h : Region.plain.skip (u ++ v) p = ⟨c, some (p.pastAll u)⟩)
    {u' v' : List Char} (htext : u' ++ v' = u ++ v) (hu' : Trivia u' v') : u' <+: u := by
  rw [← htext, skip_trivia hu'] at h
  obtain ⟨⟨⟩, -⟩ | ⟨gap, inner, rfl, hposition, -, -⟩ := skip_unclosed h
  have hp : p.pastAll u = p.pastAll (u' ++ gap) := by
    rw [hposition, Position.pastAll, Position.pastAll, Position.pastAll, List.foldl_append]
  rw [← List.append_assoc] at htext
  exact ⟨gap, (eq_of_pastAll_eq htext.symm hp).symm⟩

lemma unclosed_skip_block {began : Position} (h : ¬ ['*', '/'] <:+: inner) :
    ((Region.block began).skip inner p).unclosed = some began := by
  induction inner generalizing p with
  | nil => rfl
  | cons x inner ih =>
    rw [List.infix_cons_iff, not_or] at h
    have hopen : ¬ (x = '*' ∧ inner.head? = some '/') := by
      rintro ⟨rfl, hhead⟩
      obtain ⟨inner, rfl⟩ := List.head?_eq_some_iff.mp hhead
      exact h.1 (by simp)
    rw [Region.skip, if_neg hopen]
    exact ih h.2

lemma unclosed_skip_comment (h : ¬ ['*', '/'] <:+: inner) :
    (Region.plain.skip ('/' :: '*' :: inner) p).unclosed = some p := by
  rw [Region.skip, if_neg (by decide), if_neg (by simp), if_pos (by simp)]
  exact unclosed_skip_block h

/-- Trivia in front of which skipping stops ends in front of a comment or behind it. -/
lemma not_insideComment (h : Region.plain.skip (u ++ v) p = ⟨⟨v, p.pastAll u⟩, none⟩) :
    ¬ InsideComment u v := by
  rintro (⟨hgap, -, hback, hcomment⟩ | ⟨hgap, -, htext, hinner⟩)
  · have hpast := hgap.append (List.append_assoc ..).symm hcomment.trivia
    have hlength := (longest_of_skip h (by simp) hpast).length_le
    have hpos := List.length_pos_iff.mpr hback
    simp only [List.length_append] at hlength
    omega
  · rw [List.append_assoc, skip_trivia hgap, htext] at h
    have hunclosed := congrArg Skip.unclosed h
    rw [unclosed_skip_comment hinner] at hunclosed
    cases hunclosed

end Region

/-- **Where skipping stops.** From every cursor skipping passes the longest trivia that comes next,
up to a text that begins none, and never stops inside of a comment; or it refuses the text, where
the longest trivia ends in front of a block comment that is never closed. -/
theorem Scan.skipTrivia_exact (c : Cursor) :
    (∃ u v, c.rest = u ++ v ∧ skipTrivia c = .ok ((), ⟨v, c.position.pastAll u⟩) ∧
      LongestTrivia u v ∧ Solid v ∧ ¬ InsideComment u v) ∨
    ∃ u inner, c.rest = u ++ '/' :: '*' :: inner ∧
      skipTrivia c = .error (.unclosedComment (c.position.pastAll u)) ∧
      LongestTrivia u ('/' :: '*' :: inner) ∧ ¬ ['*', '/'] <:+: inner := by
  obtain ⟨t, p⟩ := c
  have hskip : Cursor.skipTrivia ⟨t, p⟩ = Region.plain.skip t p := rfl
  rw [skipTrivia, hskip]
  rcases hs : Region.plain.skip t p with ⟨c, _ | q⟩
  · obtain ⟨u, v, rfl, rfl, hu, hv⟩ := Region.skip_sound hs (by simp)
    have hlongest : LongestTrivia u v := ⟨hu, fun _ _ => Region.longest_of_skip hs⟩
    exact .inl ⟨u, v, rfl, rfl, hlongest, hv, Region.not_insideComment hs⟩
  · obtain ⟨⟨⟩, -⟩ | ⟨u, inner, rfl, rfl, hu, hinner⟩ := Region.skip_unclosed hs
    exact .inr ⟨u, inner, rfl, rfl, ⟨hu, fun _ _ => Region.longest_of_unclosed hs⟩, hinner⟩

/-- The opening of a block comment does not close it with its own star. -/
example : (Cursor.start "# a\n/*/ b */ /c".toList).skipTrivia = ⟨⟨"/c".toList, ⟨2, 10⟩⟩, none⟩ := by
  decide

end Barline
