import Barline.Proofs.Modulation.PitchNames
import Barline.Proofs.Score.Literals
import Barline.Proofs.Score.Recognition

/-!
# Lexemes

Which texts are read as which tokens, and what decides that a token ends: a point, a `t` or an
equals sign goes on with what is in front of it only if the next characters allow it. A token is
read off a text if and only if a lexeme of it stands there.
-/

namespace Barline.Modulation.Lexer

open Number Scan
open Score (Named Written)

/-- A word does not go on with this text. -/
def NoWord (s : List Char) : Prop := ∀ c ∈ s.head?, isWordChar c = false

/-- A text is a lexeme of a token in front of another text. -/
inductive Lexeme : List Char → List Char → Token → Prop
  /-- A `t` behind a number begins a word, or else there is a period. -/
  | number {d : Decimal} {s : List Char} (hd : Written d) (hs : d.StopsAt s)
    (hperiod : ¬ Opens 't' NoWord s) : Lexeme d.text s (.number d.value)
  | period {d : Decimal} {s : List Char} (hd : Written d) (hs : NoWord s) :
    Lexeme (d.text ++ ['t']) s (.period d.value)
  | pitch {n : PitchName} {s : List Char} (hn : Named n) (hs : NoDigit s) :
    Lexeme n.chars s (.pitch n.text (midiOf n))
  | word {c : Char} {w s : List Char} (hc : c.isLower || c == '_') (hw : ∀ x ∈ w, isWordChar x)
    (hs : NoWord s) : Lexeme (c :: w) s (.word (String.ofList (c :: w)))
  | plus {s : List Char} (hs : s.head? ≠ some '=') : Lexeme ['+'] s .plus
  | plusEquals {s : List Char} : Lexeme ['+', '='] s .plusEquals
  | dot {s : List Char} (hs : ¬ StartsDigit s) : Lexeme ['.'] s .dot
  | symbol {c : Char} {k : Token} {s : List Char} (hk : symbol? c = some k)
    (hc : c ≠ '+' ∧ c ≠ '.') : Lexeme [c] s k

variable {s t w : List Char} {k : Token} {p : Position}

lemma periodMark_iff (s : List Char) (p : Position) :
    (Cursor.peek ⟨s, p⟩ == some 't' && !(Cursor.peekAt ⟨s, p⟩ 1).any isWordChar) = true ↔
      Opens 't' NoWord s := by
  cases s with
  | nil => simp [Cursor.peek, Opens]
  | cons c s => cases s <;> simp [Cursor.peek, Cursor.peekAt, Opens, NoWord]

lemma number_apply {d : Decimal} (hd : Written d) (hs : d.StopsAt s) (p : Position) :
    number ⟨d.text ++ s, p⟩ =
      (look (fun c => c.peek == some 't' && !(c.peekAt 1).any isWordChar) >>= fun b =>
        if b = true then move Cursor.advance >>= fun _ => pure (.period d.value)
        else pure (.number d.value)) ⟨s, p.pastAll d.text⟩ := by
  unfold number
  rw [bind_apply, decimal_apply hd.whole_digits hd.fraction_digits hs]

lemma number_of_not {d : Decimal} (hd : Written d) (hs : d.StopsAt s) (ht : ¬ Opens 't' NoWord s)
    (p : Position) : number ⟨d.text ++ s, p⟩ = .ok (.number d.value, ⟨s, p.pastAll d.text⟩) := by
  rw [← periodMark_iff s (p.pastAll d.text), Bool.not_eq_true] at ht
  rw [number_apply hd hs, bind_apply, look, ht]
  rfl

lemma number_of_period {d : Decimal} (hd : Written d) (hs : NoWord s) (p : Position) :
    number ⟨d.text ++ ['t'] ++ s, p⟩ =
      .ok (.period d.value, ⟨s, p.pastAll (d.text ++ ['t'])⟩) := by
  have ht := (periodMark_iff ('t' :: s) (p.pastAll d.text)).mpr ⟨s, rfl, hs⟩
  have hstops := Decimal.stopsAt_cons (c := 't') (by decide) (by decide) d s
  rw [List.append_assoc, List.singleton_append, number_apply hd hstops, bind_apply, look,
    ht, pastAll_append]
  rfl

/-- The octave of a name. -/
def octave (letter : Char) (accidental : Option Char) (negative : Bool) : Scan Token := do
  let digits ← digits
  if digits.isEmpty then expected ["octave"]
  else
    let name : PitchName := ⟨letter, accidental, negative, digits⟩
    return .pitch name.text (midiOf name)

lemma pitch_apply (letter : Char) (t : List Char) (p : Position) :
    pitch letter ⟨letter :: t, p⟩ = (accidental >>= fun a => look (·.digitAfter '-') >>= fun b =>
      if b = true then move Cursor.advance >>= fun _ => octave letter a true
      else octave letter a false) ⟨t, p.past letter⟩ := by
  have hpitch : pitch letter ⟨letter :: t, p⟩ = (accidental >>= fun a => look (·.digitAfter '-') >>=
      fun b => if b = true then move Cursor.advance >>= fun _ => octave letter a b
        else octave letter a b) ⟨t, p.past letter⟩ := rfl
  rw [hpitch, bind_apply, bind_apply]
  rcases accidental ⟨t, p.past letter⟩ with e | ⟨a, c⟩
  · rfl
  · dsimp only
    rw [bind_apply, bind_apply]
    unfold look
    dsimp only
    cases c.digitAfter '-' <;> rfl

lemma parses_octave (letter : Char) (accidental : Option Char) (negative : Bool) :
    Parses Anything (octave letter accidental negative)
      (fun _ w s k => ∃ n : PitchName, n = ⟨letter, accidental, negative, w⟩ ∧ w ≠ [] ∧
        (∀ c ∈ w, c.isDigit) ∧ NoDigit s ∧ k = .pitch n.text (midiOf n)) Anything where
  sound {t p k c} _ h := by
    obtain ⟨ds, s, rfl, hds, hs⟩ := exists_digits t
    unfold octave at h
    rw [bind_apply, digits_apply hds hs] at h
    dsimp only at h
    split_ifs at h with hempty
    · cases h
    · cases h
      exact ⟨ds, s, rfl, rfl, _, rfl, by simpa using hempty, hds, hs, rfl⟩
  complete := by
    rintro p ds s _ ⟨_, rfl, hne, hds, hs, rfl⟩ -
    unfold octave
    rw [bind_apply, digits_apply hds hs]
    dsimp only
    rw [if_neg (by simpa using hne)]
    rfl

lemma parses_signed (letter : Char) (accidental : Option Char) : Parses Anything
    (look (·.digitAfter '-') >>= fun b =>
      if b = true then move Cursor.advance >>= fun _ => octave letter accidental true
      else octave letter accidental false)
    (fun _ w s k => ∃ negative ds, w = (if negative = true then ['-'] else []) ++ ds ∧ ds ≠ [] ∧
      (∀ c ∈ ds, c.isDigit) ∧ NoDigit s ∧
      ∃ n : PitchName, n = ⟨letter, accidental, negative, ds⟩ ∧ k = .pitch n.text (midiOf n))
    Anything := by
  refine ((parses_octave letter accidental true).anywhere.ite_digitAfter
    (parses_octave letter accidental false) ?_ ?_).congr ?_
  · rintro p w s k ⟨n, rfl, hne, hw, -⟩ -
    exact startsDigit_of_digits hne hw s
  · rintro p w s k ⟨n, rfl, hne, hw, -⟩ - hminus
    exact (startsDigit_of_digits hne hw s).head?_ne (by decide) hminus.head?
  · intro p w s k
    constructor
    · rintro (⟨v, rfl, n, rfl, hne, hv, hs, rfl⟩ | ⟨n, rfl, hne, hw, hs, rfl⟩)
      · exact ⟨true, v, rfl, hne, hv, hs, _, rfl, rfl⟩
      · exact ⟨false, w, rfl, hne, hw, hs, _, rfl, rfl⟩
    · rintro ⟨_ | _, ds, rfl, hne, hds, hs, n, rfl, rfl⟩
      · exact .inr ⟨_, rfl, hne, hds, hs, rfl⟩
      · exact .inl ⟨ds, rfl, _, rfl, hne, hds, hs, rfl⟩

/-- The name of a pitch is read up to where its digits end. -/
theorem parses_pitch {letter : Char} (hletter : letter ∈ ['A', 'B', 'C', 'D', 'E', 'F', 'G']) :
    Parses (Opens letter Anything) (pitch letter)
      (fun _ w s k => ∃ n : PitchName, Named n ∧ n.letter = letter ∧ w = n.chars ∧ NoDigit s ∧
        k = .pitch n.text (midiOf n)) Anything := by
  have hname := (Score.parses_accidental.bind (fun a => parses_signed letter a)
    (fun _ _ _ _ _ => trivial) ?_).bind_advance letter
  rotate_left
  · rintro p u _ s a k - ⟨negative, ds, rfl, hne, hds, -⟩ -
    have hhead {c : Char} (hc : c.isDigit = false) (hminus : c ≠ '-') :
        ((if negative = true then ['-'] else []) ++ ds ++ s).head? ≠ some c := by
      cases negative with
      | true => simpa using hminus.symm
      | false => exact (startsDigit_of_digits hne hds s).head?_ne hc
    exact ⟨hhead (by decide) (by decide), hhead (by decide) (by decide)⟩
  constructor
  · rintro _ p k c ⟨t, rfl, -⟩ h
    rw [pitch_apply] at h
    obtain ⟨w, s, ht, hc, v, rfl, u, _, a, rfl, ⟨rfl, ha⟩, negative, ds, rfl, hne, hds, hs, n, rfl,
      rfl⟩ := hname.sound ⟨t, rfl, trivial⟩ h
    exact ⟨_, s, ht, hc, _, ⟨hletter, ha, hne, hds⟩, rfl, by simp [PitchName.chars], hs, rfl⟩
  · rintro p _ s _ ⟨n, hn, rfl, rfl, hs, rfl⟩ -
    have hchars : n.chars = n.letter :: (n.accidental.toList ++
        ((if n.negative = true then ['-'] else []) ++ n.digits)) := by simp [PitchName.chars]
    have hread := hname.complete (p := p) (s := s) (a := .pitch n.text (midiOf n))
      ⟨_, hchars, _, _, n.accidental, rfl, ⟨rfl, hn.accidental⟩, n.negative, n.digits, rfl,
        hn.digits_ne_nil, hn.digits, hs, n, rfl, rfl⟩ trivial
    rw [← hread, hchars, List.cons_append, pitch_apply]
    rfl

lemma word_apply (hw : ∀ x ∈ w, isWordChar x) (hs : NoWord s) (p : Position) :
    word ⟨w ++ s, p⟩ = .ok (.word (String.ofList w), ⟨s, p.pastAll w⟩) := by
  have htake : (w ++ s).takeWhile isWordChar = w := by
    rw [List.takeWhile_append_of_pos hw]
    cases s with
    | nil => simp
    | cons c s => rw [List.takeWhile_cons_of_neg (by simpa using hs c rfl), List.append_nil]
  unfold word
  rw [bind_apply]
  dsimp only [look]
  rw [htake, bind_apply]
  change Except.ok (Token.word _, Cursor.mk _ _) = _
  simp

lemma exists_word (t : List Char) : ∃ w s, t = w ++ s ∧ (∀ x ∈ w, isWordChar x) ∧ NoWord s := by
  refine ⟨t.takeWhile isWordChar, t.dropWhile isWordChar, List.takeWhile_append_dropWhile.symm,
    fun x hx => List.mem_takeWhile_imp hx, fun c hc => ?_⟩
  have hhead := List.head?_dropWhile_not isWordChar t
  rw [Option.mem_def.mp hc] at hhead
  simpa using hhead

/-- A number begins with a digit, or with a point in front of one. -/
def BeginsNumber (t : List Char) : Prop := StartsDigit t ∨ Opens '.' StartsDigit t

lemma beginsNumber_iff (x : Char) (t : List Char) (p : Position) :
    (x.isDigit || Cursor.digitAfter ⟨x :: t, p⟩ '.') = true ↔ BeginsNumber (x :: t) := by
  rw [Bool.or_eq_true, digitAfter_iff, BeginsNumber]
  simp [StartsDigit]

/-- What decides on a token that is no number is its first character. -/
def unnumbered (x : Char) : Scan Token :=
  if 'A' ≤ x ∧ x ≤ 'G' then pitch x
  else if x.isLower || x == '_' then word
  else match symbol? x with
    | some .plus => do
      move Cursor.advance
      if ← eat '=' then return .plusEquals else return .plus
    | some k => do
      move Cursor.advance
      return k
    | none => expected ["number", "identifier", "pitch", "operator"]

lemma token_cons (x : Char) (t : List Char) (p : Position) : token ⟨x :: t, p⟩ =
    (if x.isDigit || Cursor.digitAfter ⟨x :: t, p⟩ '.' then number else unnumbered x)
      ⟨x :: t, p⟩ := by
  unfold token
  rw [bind_apply]
  dsimp only [look, Cursor.peek, List.head?]
  rw [bind_apply]
  rfl

lemma token_of_beginsNumber (h : BeginsNumber t) (p : Position) :
    token ⟨t, p⟩ = number ⟨t, p⟩ := by
  cases t with
  | nil => simp [BeginsNumber, StartsDigit, Opens] at h
  | cons x t => rw [token_cons, if_pos ((beginsNumber_iff x t p).mpr h)]

lemma token_of_not {x : Char} (h : ¬ BeginsNumber (x :: t)) (p : Position) :
    token ⟨x :: t, p⟩ = unnumbered x ⟨x :: t, p⟩ := by
  rw [token_cons, if_neg (mt (beginsNumber_iff x t p).mp h)]

lemma not_beginsNumber {x : Char} (hdigit : x.isDigit = false) (hpoint : x ≠ '.')
    (t : List Char) : ¬ BeginsNumber (x :: t) := by
  rintro (⟨_, _, ⟨⟩, hx⟩ | ⟨_, ⟨⟩, -⟩)
  · rw [hdigit] at hx
    cases hx
  · exact hpoint rfl

lemma beginsNumber_of_written {d : Decimal} (hd : Written d) (s : List Char) :
    BeginsNumber (d.text ++ s) := by
  obtain ⟨whole, fraction⟩ := d
  cases whole with
  | cons x whole =>
    exact .inl (by
      simpa [Decimal.text] using
        startsDigit_of_digits (List.cons_ne_nil x whole) hd.whole_digits _)
  | nil =>
    cases fraction with
    | nil => exact absurd hd.not_isEmpty (by decide)
    | cons c fraction =>
      exact .inr ⟨c :: fraction ++ s, by simp [Decimal.text],
        startsDigit_of_digits (List.cons_ne_nil c fraction) hd.fraction_digits s⟩

lemma exists_written (h : BeginsNumber t) :
    ∃ (d : Decimal) (s : List Char), t = d.text ++ s ∧ Written d ∧ d.StopsAt s := by
  obtain ⟨d, s, rfl, hwhole, hfraction, hs⟩ := exists_decimal t
  refine ⟨d, s, rfl, ⟨hwhole, hfraction, ?_⟩, hs⟩
  rw [Decimal.isEmpty, Bool.and_eq_false_iff, List.isEmpty_eq_false_iff, List.isEmpty_eq_false_iff]
  by_contra hempty
  simp only [not_or, not_ne_iff] at hempty
  have htext : d.text = [] := by simp [Decimal.text, hempty]
  rw [htext] at h
  exact h.elim (not_startsDigit_of_noDigit hs.noDigit) (hs.noPoint hempty.2)

lemma exists_number {d : Decimal} (hd : Written d) (hs : d.StopsAt s) : ∃ w v k,
    d.text ++ s = w ++ v ∧ Lexeme w v k := by
  by_cases hperiod : Opens 't' NoWord s
  · obtain ⟨v, rfl, hv⟩ := hperiod
    exact ⟨d.text ++ ['t'], v, _, by simp, .period hd hv⟩
  · exact ⟨d.text, s, _, rfl, .number hd hs hperiod⟩

lemma unnumbered_word {c : Char} (hc : c.isLower || c == '_') :
    unnumbered c = word ∧ isWordChar c ∧ ∀ t, ¬ BeginsNumber (c :: t) := by
  have hcode : 95 ≤ c.toNat := by
    simp only [Char.isLower, Bool.or_eq_true, Bool.and_eq_true, decide_eq_true_eq, beq_iff_eq] at hc
    rcases hc with ⟨ha, -⟩ | rfl
    · exact le_trans (by decide) (UInt32.le_iff_toNat_le.mp ha)
    · decide
  have hpitch : ¬ ('A' ≤ c ∧ c ≤ 'G') := by
    rintro ⟨-, hG⟩
    have hle : c.toNat ≤ 71 := UInt32.le_iff_toNat_le.mp hG
    omega
  have hdigit : c.isDigit = false := by
    rw [← Bool.not_eq_true, Char.isDigit, Bool.and_eq_true, decide_eq_true_eq, decide_eq_true_eq]
    rintro ⟨-, h9⟩
    have hle : c.toNat ≤ 57 := h9
    omega
  have hpoint : c ≠ '.' := by
    rintro rfl
    exact absurd hcode (by decide)
  refine ⟨by rw [unnumbered, if_neg hpitch, if_pos hc], ?_, not_beginsNumber hdigit hpoint⟩
  unfold isWordChar Char.isAlphanum Char.isAlpha
  grind

lemma Lexeme.ne_nil (h : Lexeme w s k) : w ≠ [] := by
  cases h with
  | @number d s hd hs hperiod =>
    intro hnil
    have hbegins := beginsNumber_of_written hd []
    simp [hnil, BeginsNumber, StartsDigit, Opens] at hbegins
  | pitch => exact List.cons_ne_nil _ _
  | _ => simp

/-- A token is read where a lexeme of it stands. -/
theorem token_complete (h : Lexeme w s k) (p : Position) :
    token ⟨w ++ s, p⟩ = .ok (k, ⟨s, p.pastAll w⟩) := by
  cases h with
  | @number d s hd hs hperiod =>
    rw [token_of_beginsNumber (beginsNumber_of_written hd s), number_of_not hd hs hperiod]
  | @period d s hd hs =>
    have hbegins := beginsNumber_of_written hd (['t'] ++ s)
    rw [← List.append_assoc] at hbegins
    rw [token_of_beginsNumber hbegins, number_of_period hd hs]
  | @pitch n s hn hs =>
    have hread := (parses_pitch hn.letter).complete (p := p) ⟨n, hn, rfl, rfl, hs, rfl⟩ trivial
    rw [← hread, PitchName.chars, List.cons_append, List.cons_append, List.cons_append,
      token_pitch hn.letter]
  | @word c w s hc hw hs =>
    obtain ⟨hunnumbered, hchar, hbegins⟩ := unnumbered_word hc
    have hword : ∀ x ∈ c :: w, isWordChar x := List.forall_mem_cons.mpr ⟨hchar, hw⟩
    rw [← word_apply hword hs, List.cons_append, token_of_not (hbegins _), hunnumbered]
  | @plus s hs =>
    cases s with
    | nil => rfl
    | cons c s =>
      have hc : c ≠ '=' := by simpa using hs
      have heat : eat '=' ⟨c :: s, p.past '+'⟩ = .ok (false, ⟨c :: s, p.past '+'⟩) := by
        simp [eat, Cursor.eat?, Cursor.peek, hc]
      have hbegins := not_beginsNumber (x := '+') (by decide) (by decide) (c :: s)
      rw [List.singleton_append, token_of_not hbegins]
      change (eat '=' >>= fun b => if b = true then pure .plusEquals else pure .plus : Scan Token)
        ⟨c :: s, p.past '+'⟩ = _
      rw [bind_apply, heat]
      rfl
  | plusEquals => rfl
  | @dot s hs =>
    -- a point with a digit behind it would begin a number
    have hbegins : ¬ BeginsNumber ('.' :: s) := by
      rintro (⟨_, _, ⟨⟩, hx⟩ | ⟨_, ⟨⟩, hstart⟩)
      · cases hx
      · exact hs hstart
    rw [List.singleton_append, token_of_not hbegins]
    rfl
  | @symbol c k s hk hc =>
    unfold symbol? at hk
    split at hk <;> cases hk
    all_goals first | rfl | simp at hc

lemma exists_symbol {x : Char} (hk : symbol? x = some k) (ht : ¬ BeginsNumber (x :: t)) :
    ∃ w s k, x :: t = w ++ s ∧ Lexeme w s k := by
  by_cases hplus : x = '+'
  · subst hplus
    by_cases heq : t.head? = some '='
    · obtain ⟨t, rfl⟩ := List.head?_eq_some_iff.mp heq
      exact ⟨['+', '='], t, _, rfl, .plusEquals⟩
    · exact ⟨['+'], t, _, rfl, .plus heq⟩
  · by_cases hpoint : x = '.'
    · subst hpoint
      exact ⟨['.'], t, _, rfl, .dot fun h => ht (.inr ⟨t, rfl, h⟩)⟩
    · exact ⟨[x], t, k, rfl, .symbol hk ⟨hplus, hpoint⟩⟩

lemma exists_lexeme {x : Char} {t : List Char} {c : Cursor} (h : token ⟨x :: t, p⟩ = .ok (k, c)) :
    ∃ w s k, x :: t = w ++ s ∧ Lexeme w s k := by
  by_cases hbegins : BeginsNumber (x :: t)
  · obtain ⟨d, s, ht, hd, hs⟩ := exists_written hbegins
    rw [ht]
    exact exists_number hd hs
  rw [token_of_not hbegins, unnumbered] at h
  split_ifs at h with hpitch hword
  · have hletter := Score.letter_cases hpitch.1 hpitch.2
    obtain ⟨w, s, ht, -, n, hn, -, rfl, hs, -⟩ :=
      (parses_pitch hletter).sound ⟨t, rfl, trivial⟩ h
    exact ⟨_, s, _, ht, .pitch hn hs⟩
  · obtain ⟨w, s, rfl, hw, hs⟩ := exists_word t
    exact ⟨x :: w, s, _, rfl, .word hword hw hs⟩
  · cases hsymbol : symbol? x with
    | some k => exact exists_symbol hsymbol hbegins
    | none =>
      rw [hsymbol] at h
      cases h

/-- What is read as a token is a lexeme of it. -/
theorem token_sound {x : Char} {t : List Char} {c : Cursor}
    (h : token ⟨x :: t, p⟩ = .ok (k, c)) :
    ∃ w s, x :: t = w ++ s ∧ c = ⟨s, p.pastAll w⟩ ∧ Lexeme w s k := by
  obtain ⟨w, s, k', ht, hlexeme⟩ := exists_lexeme h
  rw [ht, token_complete hlexeme] at h
  cases h
  exact ⟨w, s, ht, rfl, hlexeme⟩

end Barline.Modulation.Lexer
