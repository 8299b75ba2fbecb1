import Barline.Proofs.Modulation.Cutting
import Barline.Proofs.Modulation.Joining
import Barline.Proofs.Score.Literals

/-!
# Literals in a stretch of time

The beats of a stretch are literals, cut into tokens where the other words of the stretch and the
trivia between them end them. They mean what they mean in a score.
-/

namespace Barline

open Number Scan
open Score (Written)

namespace Modulation

namespace Lexer

variable {c : Char} {d : Decimal} {gap s t : List Char} {k : Token}

/-- A number ends here: the decimal does not go on, nor does a `t` make it a period. -/
structure EndsNumber (d : Decimal) (s : List Char) : Prop extends d.StopsAt s where
  noPeriod : ¬ Opens 't' NoWord s

lemma endsNumber_cons (hdigit : c.isDigit = false) (hpoint : c ≠ '.') (ht : c ≠ 't')
    (d : Decimal) (s : List Char) : EndsNumber d (c :: s) where
  toStopsAt := d.stopsAt_cons hdigit hpoint s
  noPeriod := by simp [Opens, ht]

lemma endsNumber_gap (h : Trivia gap s) (hs : EndsNumber d s) : EndsNumber d (gap ++ s) := by
  cases gap with
  | nil => exact hs
  | cons c gap =>
    obtain hblank | rfl | rfl := h.head_cases
    · have hne {x : Char} (hx : isBlank x = false) : c ≠ x := by
        rintro rfl
        rw [hblank] at hx
        cases hx
      exact endsNumber_cons (isDigit_of_isBlank hblank) (hne (by decide)) (hne (by decide)) _ _
    · exact endsNumber_cons (by decide) (by decide) (by decide) _ _
    · exact endsNumber_cons (by decide) (by decide) (by decide) _ _

/-- No trivia begins where a stroke has a number behind it. -/
lemma solid_of_head (hblank : isBlank c = false) (hhash : c ≠ '#')
    (hslash : c = '/' → StartsDigit s) : Solid (c :: s) := by
  rintro _ ⟨⟩
  refine ⟨hblank, hhash, fun hc => ?_⟩
  have hsecond : (c :: s)[1]? = s.head? := by cases s <;> rfl
  rw [hsecond]
  exact ⟨(hslash hc).head?_ne (by decide), (hslash hc).head?_ne (by decide)⟩

lemma solid_of_beginsNumber (h : BeginsNumber t) : Solid t := by
  obtain ⟨c, r, rfl, hc⟩ | ⟨r, rfl, -⟩ := h
  · have hne {x : Char} (hx : x.isDigit = false) : c ≠ x := by
      rintro rfl
      rw [hx] at hc
      cases hc
    refine solid_of_head ?_ (hne (by decide)) fun hslash => absurd hslash (hne (by decide))
    by_contra hblank
    rw [isDigit_of_isBlank (by simpa using hblank)] at hc
    cases hc
  · exact solid_of_head (by decide) (by decide) (absurd · (by decide))

lemma cutOff_number (hd : Written d) (hgap : Trivia gap (d.text ++ s)) (hs : EndsNumber d s) :
    (⟨gap, d.text, .number d.value⟩ : Piece).CutOff s where
  trivia := hgap
  solid := solid_of_beginsNumber (beginsNumber_of_written hd s)
  lexeme := .number hd hs.toStopsAt hs.noPeriod

/-- A sign stands alone, where a number follows a plus sign or a stroke. -/
lemma cutOff_sign (hk : symbol? c = some k) (hpoint : c ≠ '.') (hgap : Trivia gap (c :: s))
    (hs : c = '+' ∨ c = '/' → StartsDigit s) : (⟨gap, [c], k⟩ : Piece).CutOff s where
  trivia := hgap
  solid := by
    have hhead : isBlank c = false ∧ c ≠ '#' := by
      unfold symbol? at hk
      split at hk <;> first | decide | cases hk
    exact solid_of_head hhead.1 hhead.2 fun hc => hs (.inr hc)
  lexeme := by
    by_cases hplus : c = '+'
    · subst hplus
      obtain rfl := Option.some.inj hk
      exact .plus ((hs (.inl rfl)).head?_ne (by decide))
    · exact .symbol hk ⟨hplus, hpoint⟩

end Lexer

end Modulation

namespace Literal

open Modulation Modulation.Lexer

/-- The tokens of a literal. -/
def tokens : Literal → List Token
  | decimal d => [.number d.value]
  | fraction n d => [.number n.value, .slash, .number d.value]
  | mixed w n d => [.number w.value, .plus, .number n.value, .slash, .number d.value]

/-- The pieces of a literal behind trivia. -/
def pieces (gap : List Char) : Literal → List Piece
  | decimal d => [⟨gap, d.text, .number d.value⟩]
  | fraction n d =>
    [⟨gap, n.text, .number n.value⟩, ⟨[], ['/'], .slash⟩, ⟨[], d.text, .number d.value⟩]
  | mixed w n d =>
    [⟨gap, w.text, .number w.value⟩, ⟨[], ['+'], .plus⟩, ⟨[], n.text, .number n.value⟩,
      ⟨[], ['/'], .slash⟩, ⟨[], d.text, .number d.value⟩]

variable {l : Literal} {gap s : List Char}

lemma textOf_pieces (l : Literal) (gap : List Char) : textOf (l.pieces gap) = gap ++ l.text := by
  cases l <;> simp [pieces, text, textOf]

lemma map_token_pieces (l : Literal) (gap : List Char) :
    (l.pieces gap).map (·.token) = l.tokens := by cases l <;> rfl

lemma written_of_proper {d : Decimal} (hd : d.Proper) : Written d :=
  ⟨hd.whole_digits, hd.fraction_digits, by simp [Decimal.isEmpty, hd.whole_ne_nil]⟩

lemma cut_pieces (hl : l.Proper) (hgap : Trivia gap (l.text ++ s)) (hs : EndsNumber l.last s) :
    Cut (l.pieces gap) s := by
  have hstroke {d : Decimal} (hd : d.Proper) (hs : EndsNumber d s) :
      Cut [⟨[], ['/'], .slash⟩, ⟨[], d.text, .number d.value⟩] s := by
    have hdigit := Score.proper_startsDigit hd s
    refine ⟨cutOff_sign rfl (by decide) .nil fun _ => by simpa [textOf] using hdigit,
      cutOff_number (written_of_proper hd) .nil (by simpa [textOf] using hs), trivial⟩
  cases l with
  | decimal d => exact ⟨cutOff_number hl hgap hs, trivial⟩
  | fraction n d =>
    obtain ⟨hn, hd⟩ := hl
    refine ⟨cutOff_number hn ?_ ?_, hstroke hd hs⟩
    · simpa [text, textOf] using hgap
    · simpa [textOf] using endsNumber_cons (by decide) (by decide) (by decide) n (d.text ++ s)
  | mixed w n d =>
    obtain ⟨hw, hn, hd⟩ := hl
    have hends (c : Char) (hc : c ∈ ['+', '/']) (d : Decimal) (t : List Char) :
        EndsNumber d (c :: t) := by
      fin_cases hc <;> exact endsNumber_cons (by decide) (by decide) (by decide) d t
    have hdigit := Score.proper_startsDigit hn ('/' :: (d.text ++ s))
    refine ⟨cutOff_number hw ?_ ?_, cutOff_sign rfl (by decide) .nil fun _ => ?_,
      cutOff_number (written_of_proper hn) .nil ?_, hstroke hd hs⟩
    · simpa [text, textOf] using hgap
    · simpa [textOf] using hends '+' (by simp) w _
    · simpa [textOf] using hdigit
    · simpa [textOf] using hends '/' (by simp) n (d.text ++ s)

end Literal

namespace Modulation

namespace Lexer

variable {bar bar' : Decimal} {l l' : Literal} {s t tail : List Char}

/-- Words stand one after another in front of a text, with trivia in front of each. -/
def Row : List (List Char) → List Char → List Char → Prop
  | [], t, s => s = t
  | w :: ws, t, s => ∃ gap r, t = gap ++ (w ++ r) ∧ Trivia gap (w ++ r) ∧ Row ws r s

lemma row_append {ws vs : List (List Char)} :
    Row (ws ++ vs) t s ↔ ∃ r, Row ws t r ∧ Row vs r s := by
  induction ws generalizing t with
  | nil => simp [Row, eq_comm]
  | cons w ws ih =>
    simp only [List.cons_append, Row, ih]
    constructor
    · rintro ⟨gap, r, ht, hgap, r', hws, hvs⟩
      exact ⟨r', ⟨gap, r, ht, hgap, hws⟩, hvs⟩
    · rintro ⟨r', ⟨gap, r, ht, hgap, hws⟩, hvs⟩
      exact ⟨gap, r, ht, hgap, r', hws, hvs⟩

lemma cut_place (hbar : Written bar) (hl : l.Proper) (h : Row [bar.text, ['|'], l.text] t s)
    (hs : EndsNumber l.last s) : ∃ gs, t = textOf gs ++ s ∧ Cut gs s ∧
      gs.map (·.token) = .number bar.value :: .pipe :: l.tokens := by
  obtain ⟨g, r, rfl, hg, g', r', rfl, hg', g'', r'', rfl, hg'', rfl⟩ := h
  have hends := endsNumber_gap hg'
    (endsNumber_cons (by decide) (by decide) (by decide) bar (g'' ++ (l.text ++ s)))
  refine ⟨⟨g, bar.text, .number bar.value⟩ :: ⟨g', ['|'], .pipe⟩ :: l.pieces g'',
    by simp [Literal.textOf_pieces], ⟨cutOff_number hbar ?_ ?_, cutOff_sign rfl (by decide) ?_ ?_,
      Literal.cut_pieces hl hg'' hs⟩, by simp [Literal.map_token_pieces]⟩
  · simpa [Literal.textOf_pieces] using hg
  · simpa [Literal.textOf_pieces] using hends
  · simpa [Literal.textOf_pieces] using hg'
  · simp

/-- The words of a stretch. -/
def stretchWords (bar bar' : Decimal) (l l' : Literal) : List (List Char) :=
  [bar.text, ['|'], l.text] ++ ['-'] :: [bar'.text, ['|'], l'.text]

/-- The tokens of a stretch. -/
def stretchTokens (bar bar' : Decimal) (l l' : Literal) : List Token :=
  (.number bar.value :: .pipe :: l.tokens) ++ .minus :: .number bar'.value :: .pipe :: l'.tokens

lemma cut_stretch (hbar : Written bar) (hbar' : Written bar') (hl : l.Proper) (hl' : l'.Proper)
    (htail : EndsNumber l'.last tail) (h : Row (stretchWords bar bar' l l') t tail) :
    ∃ gs, t = textOf gs ++ tail ∧ Cut gs tail ∧
      gs.map (·.token) = stretchTokens bar bar' l l' := by
  obtain ⟨_, hplace, gap, r, rfl, hgap, hplace'⟩ := row_append.mp h
  have hends : EndsNumber l.last (gap ++ (['-'] ++ r)) :=
    endsNumber_gap hgap (endsNumber_cons (by decide) (by decide) (by decide) l.last r)
  obtain ⟨gs, rfl, hgs, htokens⟩ := cut_place hbar hl hplace hends
  obtain ⟨gs', rfl, hgs', htokens'⟩ := cut_place hbar' hl' hplace' htail
  have hminus : (⟨gap, ['-'], .minus⟩ : Piece).CutOff (textOf gs' ++ tail) :=
    cutOff_sign rfl (by decide) hgap (by simp)
  refine ⟨gs ++ ⟨gap, ['-'], .minus⟩ :: gs', by simp, cut_append.mpr ⟨?_, hminus, hgs'⟩,
    by simp [stretchTokens, htokens, htokens']⟩
  simpa using hgs

end Lexer

end Modulation

open Modulation in
/-- The literal goes on with these tokens. Only a decimal can, as a fraction or a mixed number. -/
def Literal.goesOn : Literal → Tokens → Bool
  | decimal _, ts =>
    match Parse.tokenAt ts 0, Parse.tokenAt ts 1, Parse.tokenAt ts 2, Parse.tokenAt ts 3 with
    | .slash, .number _, _, _ => true
    | .plus, .number _, .slash, .number _ => true
    | _, _, _, _ => false
  | _, _ => false

namespace Modulation

namespace Parse

variable {l l' : Literal} {ts rest : Tokens}

lemma goesOn_of_minus {m : Located Token} (hm : m.value = .minus) (l : Literal) (ts : Tokens) :
    l.goesOn (m :: ts) = false := by cases l <;> simp [Literal.goesOn, hm]

lemma quotient_apply (n d : Float) (position : Position) (ts : Tokens) :
    quotient n d position ts = outcome (ratio n d) position ts := by
  unfold quotient ratio
  split_ifs <;> rfl

lemma bind_pure_of_outcome {α β : Type} {x : Parse α} {f : α → β} {value : Except Float α}
    {p : Position} (h : x ts = outcome value p rest) :
    (x >>= fun a => pure (f a)) ts = outcome (value.map f) p rest := by
  cases value with
  | error n => exact bind_of_error h
  | ok a => exact bind_of_ok h

lemma literal_read (hts : ts.map (·.value) = l.tokens) (hrest : l.goesOn rest = false) :
    literal (ts ++ rest) = outcome l.value (positionOf (ts ++ rest)) rest := by
  cases l with
  | decimal d =>
    obtain ⟨t, rfl, ht⟩ := List.map_eq_singleton_iff.mp hts
    have hpast : past (t :: rest) = rest := past_cons (by simp [ht]) rest
    simp only [literal, List.singleton_append, here_bind, next_bind, tokenAt_zero, ht, advance_bind,
      hpast, ahead_bind]
    rw [Literal.goesOn] at hrest
    refine congrFun (?_ : _ = (pure d.value : Parse Float)) rest
    split
    · rename_i hslash hd
      rw [hslash, hd] at hrest
      cases hrest
    · rename_i hplus hn hslash hd
      rw [hplus, hn, hslash, hd] at hrest
      cases hrest
    · rfl
  | fraction n d =>
    simp only [Literal.tokens, List.map_eq_cons_iff, List.map_eq_nil_iff] at hts
    obtain ⟨t₀, _, rfl, ht₀, t₁, _, rfl, ht₁, t₂, _, rfl, ht₂, rfl⟩ := hts
    unfold literal
    simp [ht₀, ht₁, ht₂, past_cons, quotient_apply, Literal.value]
  | mixed w n d =>
    simp only [Literal.tokens, List.map_eq_cons_iff, List.map_eq_nil_iff] at hts
    obtain ⟨t₀, _, rfl, ht₀, t₁, _, rfl, ht₁, t₂, _, rfl, ht₂, t₃, _, rfl, ht₃, t₄, _, rfl, ht₄,
      rfl⟩ := hts
    unfold literal
    simp only [List.cons_append, List.nil_append, here_bind, next_bind, ahead_bind, advance_bind,
      tokenAt_zero, tokenAt_succ, ht₀, ht₁, ht₂, ht₃, ht₄, past_cons, ne_eq, reduceCtorEq,
      not_false_eq_true]
    exact bind_pure_of_outcome (f := (w.value + ·)) (quotient_apply ..)

/-- A decimal that a stretch takes for a bar. -/
structure WrittenBar (d : Decimal) : Prop where
  written : Written d
  from_one : ¬ d.value < 1.0
  whole : isBarCount d.value

variable {bar bar' : Decimal}

lemma place_literal (hbar : WrittenBar bar)
    (hts : ts.map (·.value) = .number bar.value :: .pipe :: l.tokens)
    (hrest : l.goesOn rest = false) :
    ∃ q, place (ts ++ rest) = outcome (l.value.map (bar.value.toUInt32, ·)) q rest := by
  obtain ⟨n, ts, rfl, hn, hts⟩ := List.map_eq_cons_iff.mp hts
  obtain ⟨p, ts, rfl, hp, hts⟩ := List.map_eq_cons_iff.mp hts
  have hpast : past (n :: p :: (ts ++ rest)) = p :: (ts ++ rest) := past_cons (by simp [hn]) _
  have hpipe := require_cons hp nofun ["'|'"] (ts ++ rest)
  refine ⟨positionOf (ts ++ rest), ?_⟩
  simp only [List.cons_append, place, here_bind, next_bind, tokenAt_zero, hn, hbar.whole,
    hbar.from_one, decide_false, Bool.not_true, Bool.or_false, Bool.false_eq_true, if_false,
    advance_bind, hpast]
  exact (bind_of_ok hpipe).trans (bind_pure_of_outcome (literal_read hts hrest))

/-- A stretch is read from its bars and from what its beats mean, the first of them first. -/
lemma timeRange_read_literals (hbar : WrittenBar bar) (hbar' : WrittenBar bar')
    (hts : ts.map (·.value) = Lexer.stretchTokens bar bar' l l') (hrest : l'.goesOn rest = false) :
    ∃ q q', timeRange (ts ++ rest) = match l.value, l'.value with
      | .error n, _ => .error (.domain (.zeroDenominator n) (some q))
      | .ok _, .error n => .error (.domain (.zeroDenominator n) (some q'))
      | .ok x, .ok y => .ok (⟨bar.value.toUInt32, x, bar'.value.toUInt32, y⟩, rest) := by
  obtain ⟨fs, bs, rfl, hfs, hbs⟩ := List.map_eq_append_iff.mp hts
  obtain ⟨m, us, rfl, hm, hus⟩ := List.map_eq_cons_iff.mp hbs
  obtain ⟨q, hfirst⟩ := place_literal hbar hfs (goesOn_of_minus hm l (us ++ rest))
  obtain ⟨q', hlast⟩ := place_literal hbar' hus hrest
  have hminus := require_cons hm (by simp) ["'-'"] (us ++ rest)
  refine ⟨q, q', ?_⟩
  rw [List.append_assoc, List.cons_append, timeRange]
  cases hvalue : l.value with
  | error n =>
    rw [hvalue] at hfirst
    exact bind_of_error hfirst
  | ok x =>
    rw [hvalue] at hfirst
    rw [bind_of_ok hfirst]
    refine (bind_of_ok hminus).trans ?_
    cases hvalue' : l'.value with
    | error n =>
      rw [hvalue'] at hlast
      exact bind_of_error hlast
    | ok y =>
      rw [hvalue'] at hlast
      exact bind_of_ok hlast

end Parse

end Modulation

open Modulation in
/-- **Literals mean the same in both languages.** A stretch of time, with any trivia between its
words, is read with the values that the reader of numbers in a score reads its beats as, or both
refuse a literal with a zero below the stroke. Any text may stand behind the stretch that does not
go on with its last beat. -/
theorem literals_agree {l l' : Literal} {bar bar' : Decimal} {front tail : List Char}
    {p : Position} {us : Tokens} {c : Cursor} (hl : l.Proper) (hl' : l'.Proper)
    (hbar : Parse.WrittenBar bar) (hbar' : Parse.WrittenBar bar')
    (hfront : Lexer.Row (Lexer.stretchWords bar bar' l l') (front ++ tail) tail)
    (htail : Lexer.EndsNumber l'.last tail)
    (hus : Lexer.tokens ⟨tail, p.pastAll front⟩ = .ok (us, c)) (hrest : l'.goesOn us = false) :
    (∀ k ∈ [l, l'], ∀ what s q, k.StopsAt s →
      Score.Reader.number what ⟨k.text ++ s, q⟩ = match k.value with
        | .ok x => .ok (x, ⟨s, q.pastAll k.text⟩)
        | .error n => .error (.domain (.zeroDenominator n) (some q))) ∧
    ∃ ts q q', Lexer.tokens ⟨front ++ tail, p⟩ = .ok (ts ++ us, c) ∧
      Parse.timeRange (ts ++ us) = match l.value, l'.value with
        | .error n, _ => .error (.domain (.zeroDenominator n) (some q))
        | .ok _, .error n => .error (.domain (.zeroDenominator n) (some q'))
        | .ok x, .ok y => .ok (⟨bar.value.toUInt32, x, bar'.value.toUInt32, y⟩, us) := by
  have hproper : ∀ k ∈ [l, l'], k.Proper := by simp [hl, hl']
  refine ⟨fun k hk what s q hs => ?_, ?_⟩
  · rw [Score.Reader.number_literal (hproper k hk) hs]
    cases k.value <;> rfl
  · obtain ⟨gs, htext, hgs, htokens⟩ :=
      Lexer.cut_stretch hbar.written hbar'.written hl hl' htail hfront
    obtain rfl := List.append_cancel_right htext
    have hvalues := (Lexer.map_value_tokensFrom p gs).trans htokens
    obtain ⟨q, q', hrange⟩ := Parse.timeRange_read_literals hbar hbar' hvalues hrest
    exact ⟨Lexer.tokensFrom p gs, q, q', Lexer.tokens_cut hgs hus, hrange⟩

open Modulation in
/-- A mixed number and a fraction with a zero below the stroke, which a keyword follows at once. -/
theorem literals_agree_zero :
    let front := "1|1+1/2 -2|.5/0".toList
    let tail := "timing = 1".toList
    let l : Literal := .mixed ⟨['1'], []⟩ ⟨['1'], []⟩ ⟨['2'], []⟩
    let l' : Literal := .fraction ⟨[], ['5']⟩ ⟨['0'], []⟩
    l.value = .ok 1.5 ∧ l'.value = .error 0.5 ∧
      (∀ k ∈ [l, l'], ∀ what s q, k.StopsAt s →
        Score.Reader.number what ⟨k.text ++ s, q⟩ = match k.value with
          | .ok x => .ok (x, ⟨s, q.pastAll k.text⟩)
          | .error n => .error (.domain (.zeroDenominator n) (some q))) ∧
      ∃ ts c, ∃ q : Position, Lexer.tokens ⟨front ++ tail, .start⟩ = .ok (ts, c) ∧
        Parse.timeRange ts = .error (.domain (.zeroDenominator 0.5) (some q)) := by
  intro front tail l l'
  have hvalue : l.value = .ok 1.5 := by decide +kernel
  have hvalue' : l'.value = .error 0.5 := by decide +kernel
  have hproper : l.Proper := by
    refine ⟨⟨?_, ?_, ?_⟩, ⟨?_, ?_, ?_⟩, ?_, ?_, ?_⟩ <;> simp [Decimal.isEmpty]
  have hproper' : l'.Proper := by
    refine ⟨⟨?_, ?_, ?_⟩, ?_, ?_, ?_⟩ <;> simp [Decimal.isEmpty]
  have hwritten (c : Char) (hc : c.isDigit) : Written ⟨[c], []⟩ := by
    refine ⟨?_, ?_, ?_⟩ <;> simp [Decimal.isEmpty, hc]
  have hbar : Parse.WrittenBar ⟨['1'], []⟩ :=
    ⟨hwritten '1' rfl, by decide +kernel, by decide +kernel⟩
  have hbar' : Parse.WrittenBar ⟨['2'], []⟩ :=
    ⟨hwritten '2' rfl, by decide +kernel, by decide +kernel⟩
  have hfront : Lexer.Row (Lexer.stretchWords ⟨['1'], []⟩ ⟨['2'], []⟩ l l') (front ++ tail)
      tail := by
    have hgap : Trivia [' '] ('-' :: "2|.5/0timing = 1".toList) := .blank (by decide) .nil
    exact ⟨[], _, rfl, .nil, [], _, rfl, .nil, [], _, rfl, .nil, [' '], _, rfl, hgap, [], _, rfl,
      .nil, [], _, rfl, .nil, [], _, rfl, .nil, rfl⟩
  -- The keyword begins with a `t` that makes no period, as it goes on behind it.
  have htail : Lexer.EndsNumber l'.last "timing = 1".toList := by
    refine ⟨l'.last.stopsAt_cons (by decide) (by decide) _, ?_⟩
    rintro ⟨_, ⟨⟩, hword⟩
    exact absurd (hword 'i' rfl) (by decide)
  have hread : (Lexer.tokens ⟨tail, .behind front⟩).map (fun r => l'.goesOn r.1) = .ok false := by
    decide +kernel
  obtain ⟨⟨us, c⟩, hus, hrest⟩ := Program.exists_of_map_eq_ok hread
  have hbehind : Position.start.pastAll front = .behind front := by decide
  rw [← hbehind] at hus
  obtain ⟨hscore, ts, q, q', htokens, hrange⟩ :=
    literals_agree hproper hproper' hbar hbar' hfront htail hus hrest
  rw [hvalue, hvalue'] at hrange
  exact ⟨hvalue, hvalue', hscore, ts ++ us, c, q', htokens, hrange⟩

end Barline
