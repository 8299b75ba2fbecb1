import Barline.Proofs.Modulation.Pointing
import Barline.Proofs.Score.Lines

/-!
# Tokens in another place

Every token of a modulation text is read in the same way wherever it stands and whatever follows it
after a blank. So the tokens of a text with one more line are those of the text and then those of
the line, which stand further down.
-/

namespace Barline.Modulation

open Scan
open Barline.Score (down furtherDown furtherDown_start)

namespace Lexer

variable {t : Setting} {c : Cursor}

lemma isWordChar_of_isBlank {x : Char} (h : isBlank x) : isWordChar x = false := by
  by_contra hword
  rw [Bool.not_eq_false] at hword
  simp only [isWordChar, Char.isAlphanum, Char.isAlpha, Char.isUpper, Char.isLower, Char.isDigit,
    Bool.or_eq_true, Bool.and_eq_true, decide_eq_true_eq, beq_iff_eq,
    UInt32.le_iff_toNat_le, ge_iff_le] at hword
  simp only [isBlank, blankRanges, List.any_cons, List.any_nil, Bool.or_eq_true, Bool.and_eq_true,
    decide_eq_true_eq, Bool.false_eq_true, or_false, Char.toNat] at h
  rcases hword with ((hword | hword) | hword) | rfl
  · have h1 : 65 ≤ x.val.toNat := hword.1
    have h2 : x.val.toNat ≤ 90 := hword.2
    omega
  · have h1 : 97 ≤ x.val.toNat := hword.1
    have h2 : x.val.toNat ≤ 122 := hword.2
    omega
  · have h1 : 48 ≤ x.val.toNat := hword.1
    have h2 : x.val.toNat ≤ 57 := hword.2
    omega
  · revert h
    decide

/-- A decimal that begins with a digit, or with a point and a digit, is not empty. -/
lemma carries_decimal_start (h : c.digitAt 0 = true ∨ c.digitAfter '.' = true) :
    CarriesAt t (c.rest.length - 1) (· = ·) decimal decimal c := by
  unfold decimal
  by_cases hdigit : c.digitAt 0 = true
  · have hpos : c.digits.length ≠ 0 := by
      obtain ⟨_ | ⟨x, rest⟩, p⟩ := c
      · cases hdigit
      · have hx : x.isDigit = true := Option.any_some.symm.trans hdigit
        simp [Cursor.digits, hx]
    refine (carries_digits c).bind fun ds _ c' hds hle => ?_
    obtain ⟨-, rfl⟩ := hds
    refine .branch (t.place_digitAfter c' (by decide)) (fun hpoint => ?_) fun _ =>
      .pure rfl (by omega)
    refine (CarriesAt.advance (rest_ne_nil_of_digitAfter hpoint)).bind fun _ _ d _ hle' => ?_
    refine (carries_digits d).bind fun ds _ d' hds hle'' => ?_
    obtain ⟨-, rfl⟩ := hds
    exact .pure rfl (by omega)
  · have hpoint := h.resolve_left hdigit
    -- no digit is in front of the point, so the first run of digits passes nothing
    have hdigits {d : Cursor} (hd : d.digitAt 0 = false) : digits d = .ok ([], d) := by
      obtain ⟨_ | ⟨x, rest⟩, p⟩ := d
      · rfl
      · have hx : x.isDigit = false := Option.any_some.symm.trans hd
        simp [digits, Cursor.digits, Cursor.pastDigits, Cursor.advanceBy, hx, Position.pastAll]
    rw [Bool.not_eq_true] at hdigit
    have hhere := hdigits hdigit
    have hthere := hdigits ((t.place_digitAt c).trans hdigit)
    unfold CarriesAt
    rw [bind_apply, bind_apply, hhere, hthere]
    refine CarriesAt.branch (t.place_digitAfter c (by decide)) (fun _ => ?_) fun hno => ?_
    · refine (CarriesAt.advance (rest_ne_nil_of_digitAfter hpoint)).bind fun _ _ d _ hle => ?_
      refine (carries_digits d).bind fun ds _ d' hds hle' => ?_
      obtain ⟨-, rfl⟩ := hds
      exact .pure rfl (by omega)
    · rw [hpoint] at hno
      cases hno

lemma carries_number (h : c.digitAt 0 = true ∨ c.digitAfter '.' = true) :
    CarriesAt t (c.rest.length - 1) (· = ·) number number c := by
  unfold number
  refine (carries_decimal_start h).bind fun d _ c' hd hle => ?_
  obtain rfl := hd
  have hview : ((t.place c').peek == some 't' && !((t.place c').peekAt 1).any isWordChar) =
      (c'.peek == some 't' && !(c'.peekAt 1).any isWordChar) := by
    rw [t.place_peek_beq c' (by decide)]
    obtain ⟨_ | ⟨x, rest⟩, p⟩ := c'
    · rfl
    · have hnext := t.any_head?_place (fun _ => isWordChar_of_isBlank) rest
      rw [List.head?_eq_getElem?, List.head?_eq_getElem?] at hnext
      simp only [Setting.place, Cursor.peekAt, List.cons_append, List.getElem?_cons_succ, hnext]
  refine CarriesAt.branch hview (fun hperiod => ?_) fun _ => .pure rfl hle
  have hpeek : c'.peek = some 't' := by
    rw [Bool.and_eq_true, beq_iff_eq] at hperiod
    exact hperiod.1
  exact (CarriesAt.advance (rest_ne_nil_of_peek hpeek)).bind fun _ _ d _ hle' =>
    .pure rfl (by omega)

lemma carries_pitch (letter : Char) (hne : c.rest ≠ []) :
    CarriesAt t (c.rest.length - 1) (· = ·) (pitch letter) (pitch letter) c := by
  unfold pitch
  refine (CarriesAt.advance hne).bind fun _ _ c' _ hle => ?_
  refine (carries_accidental c').bind fun accidental _ d h hle' => ?_
  obtain rfl := h
  refine .look ?_
  rw [t.place_digitAfter d (by decide)]
  extract_lets octave
  have hoctave (e : Cursor) (he : e.rest.length ≤ d.rest.length) :
      CarriesAt t (c.rest.length - 1) (· = ·) (octave ()) (octave ()) e := by
    refine (carries_digits e).bind fun ds _ e' hds hle'' => ?_
    obtain ⟨-, rfl⟩ := hds
    split_ifs
    · exact .expected _
    · exact .pure rfl (by omega)
  split_ifs with hminus
  · exact (CarriesAt.advance (rest_ne_nil_of_digitAfter hminus)).bind fun _ _ e _ he =>
      hoctave e (by omega)
  · exact hoctave d le_rfl

lemma carries_word {x : Char} (hx : isWordChar x) (hpeek : c.peek = some x) :
    CarriesAt t (c.rest.length - 1) (· = ·) word word c := by
  have hplace := t.takeWhile_place c fun _ => isWordChar_of_isBlank
  have hlength := (List.takeWhile_prefix isWordChar (l := c.rest)).length_le
  have hpos : (c.rest.takeWhile isWordChar).length ≠ 0 := by
    obtain ⟨rest, hrest⟩ := List.head?_eq_some_iff.mp hpeek
    simp [hrest, hx]
  refine ⟨?_, .word (String.ofList (c.rest.takeWhile isWordChar)), ?_, rfl⟩
  · simp [Cursor.advanceBy]
    omega
  · rw [← t.place_advanceBy hlength, ← hplace]
    rfl

/-- A token is read in the same way in another place, and it has a character at least. -/
theorem carries_token (hne : c.rest ≠ []) :
    CarriesAt t (c.rest.length - 1) (· = ·) token token c := by
  obtain ⟨_ | ⟨x, rest⟩, p⟩ := c
  · exact absurd rfl hne
  unfold token
  refine .look (.look ?_)
  rw [t.place_digitAfter _ (by decide)]
  dsimp only [Setting.place, Cursor.peek, List.cons_append, List.head?_cons]
  split_ifs with hdigit hletter hword
  · refine carries_number ?_
    rcases (Bool.or_eq_true _ _).mp hdigit with hdigit | hpoint
    · exact .inl (Option.any_some.trans hdigit)
    · exact .inr hpoint
  · exact carries_pitch x hne
  · have hx : isWordChar x := by
      unfold isWordChar Char.isAlphanum Char.isAlpha
      grind
    exact carries_word hx rfl
  · split
    · refine (CarriesAt.advance hne).bind fun _ _ c' _ hle => ?_
      refine (carries_eat (by decide) c').bind fun equals _ d h hle' => ?_
      obtain rfl := h
      split_ifs
      · exact .pure rfl (hle'.trans hle)
      · exact .pure rfl (hle'.trans hle)
    · exact (CarriesAt.advance hne).bind fun _ _ c' _ hle => .pure rfl hle
    · exact .expected _

/-- A token and where it stands. -/
def located : Scan (Located Token) := do
  let position ← here
  return ⟨← token, position⟩

lemma portable_located : Portable located fun f t => t.moved f where
  carries _ _ hne := by
    unfold located
    refine .here ((carries_token hne).bind fun token _ c' h hle => ?_)
    obtain rfl := h
    exact .pure rfl hle
  moved_id _ := rfl

lemma nextToken_eq_afterTrivia : nextToken = afterTrivia located := by
  simp [nextToken, afterTrivia, located]

end Lexer

lemma tokenize_eq_many (text : List Char) :
    tokenize text = (many (afterTrivia Lexer.located) (text.length + 1) (.start text)).map
      fun r => r.1 ++ [⟨.finish, r.2.position⟩] := by
  rw [← Lexer.nextToken_eq_afterTrivia]
  change ((many Lexer.nextToken (text.length + 1) >>= fun tokens => here >>= fun p =>
    pure (tokens ++ [⟨.finish, p⟩]) : Scan Tokens) (.start text)).map (·.1) = _
  rw [bind_apply]
  rcases many Lexer.nextToken (text.length + 1) (.start text) with e | ⟨ts, c⟩ <;> rfl

/-- The tokens of a line are those that it has where it stands alone, further down. -/
theorem tokenize_below {a : List Char} {front : Tokens} {p : Position}
    (ha : tokenize a = .ok (front ++ [⟨.finish, p⟩])) (b : List Char) :
    tokenize (a ++ '\n' :: b) = match tokenize b with
      | .ok ts => .ok (front ++ ts.map (·.moved (down p.line)))
      | .error e => .error (e.moved (down p.line)) := by
  rw [tokenize_eq_many] at ha
  rcases hmany : many (afterTrivia Lexer.located) (a.length + 1) (.start a) with e | ⟨ts, c⟩
  · rw [hmany] at ha
    cases ha
  · rw [hmany] at ha
    obtain ⟨rfl, hlast⟩ := List.append_inj' (Except.ok.inj ha) rfl
    obtain rfl : c.position = p := by simpa using hlast
    rw [tokenize_eq_many, tokenize_eq_many, Lexer.portable_located.many_below hmany
      (t := furtherDown c.position.line) rfl (furtherDown_start _) b]
    rcases many (afterTrivia Lexer.located) (b.length + 1) (.start b) with e | ⟨us, d⟩
    · rfl
    · simp [Except.map, Setting.place, Located.moved, furtherDown]

end Barline.Modulation
