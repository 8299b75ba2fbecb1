import Barline.Proofs.Score.Numerals

/-!
# Literals

A literal is a decimal, a fraction or a mixed number, with any number of digits. It means what its
division and its sum come to, and nothing if there is a zero below the stroke. The reader of numbers
reads it as that wherever the text behind does not go on with it.
-/

namespace Barline.Number.Decimal

open Scan

/-- The decimal does not go on with this text. -/
structure StopsAt (d : Decimal) (s : List Char) : Prop where
  noDigit : NoDigit s
  noPoint : d.fraction = [] → ¬ Opens '.' StartsDigit s

lemma stopsAt_cons {c : Char} (hdigit : c.isDigit = false) (hpoint : c ≠ '.') (d : Decimal)
    (s : List Char) : d.StopsAt (c :: s) where
  noDigit := by simpa [NoDigit] using hdigit
  noPoint _ := by simp [Opens, hpoint]

end Barline.Number.Decimal

namespace Barline.Scan

open Number

variable {s t : List Char} {d : Decimal}

lemma not_startsDigit_of_noDigit (h : NoDigit s) : ¬ StartsDigit s := by
  rintro ⟨c, r, rfl, hc⟩
  rw [h c rfl] at hc
  cases hc

lemma decimal_apply (hwhole : ∀ c ∈ d.whole, c.isDigit) (hfraction : ∀ c ∈ d.fraction, c.isDigit)
    (hs : d.StopsAt s) (p : Position) :
    decimal ⟨d.text ++ s, p⟩ = .ok (d, ⟨s, p.pastAll d.text⟩) := by
  obtain ⟨whole, fraction⟩ := d
  unfold decimal
  rw [bind_apply]
  cases fraction with
  | nil =>
    have htext : Decimal.text ⟨whole, []⟩ = whole := by simp [Decimal.text]
    have hpoint : Cursor.digitAfter ⟨s, p.pastAll whole⟩ '.' = false := by
      rw [← Bool.not_eq_true, digitAfter_iff]
      exact hs.noPoint rfl
    rw [htext, digits_apply hwhole hs.noDigit]
    dsimp only
    rw [bind_apply, look, hpoint]
    rfl
  | cons c fraction =>
    have htext : Decimal.text ⟨whole, c :: fraction⟩ ++ s =
        whole ++ ('.' :: (c :: fraction ++ s)) := by simp [Decimal.text]
    have hpoint : Cursor.digitAfter ⟨'.' :: (c :: fraction ++ s), p.pastAll whole⟩ '.' = true :=
      digitAfter_eq_true (hfraction c List.mem_cons_self) _
    have hdot : NoDigit ('.' :: (c :: fraction ++ s)) := by simp [NoDigit]
    rw [htext, digits_apply hwhole hdot]
    dsimp only
    rw [bind_apply, look, hpoint]
    change (digits >>= fun ds => pure (⟨whole, ds⟩ : Decimal))
      ⟨c :: fraction ++ s, (p.pastAll whole).past '.'⟩ = _
    rw [bind_apply, digits_apply hfraction hs.noDigit]
    change Except.ok (_, Cursor.mk _ _) = _
    simp [Decimal.text, Position.pastAll]

lemma exists_decimal (t : List Char) : ∃ (d : Decimal) (s : List Char), t = d.text ++ s ∧
    (∀ c ∈ d.whole, c.isDigit) ∧ (∀ c ∈ d.fraction, c.isDigit) ∧ d.StopsAt s := by
  obtain ⟨whole, r, rfl, hwhole, hr⟩ := exists_digits t
  by_cases hpoint : Opens '.' StartsDigit r
  · obtain ⟨r, rfl, hstart⟩ := hpoint
    obtain ⟨fraction, s, rfl, hfraction, hs⟩ := exists_digits r
    have hne : fraction ≠ [] := by
      rintro rfl
      exact not_startsDigit_of_noDigit hs hstart
    exact ⟨⟨whole, fraction⟩, s, by simp [Decimal.text, hne], hwhole, hfraction, hs,
      fun hnil => absurd hnil hne⟩
  · exact ⟨⟨whole, []⟩, r, by simp [Decimal.text], hwhole, List.forall_mem_nil _, hr,
      fun _ => hpoint⟩

end Barline.Scan

namespace Barline

open Number Scan

/-- A quotient, or the numerator if it is divided by zero. -/
def ratio (numerator denominator : Float) : Except Float Float :=
  if denominator == 0.0 then .error numerator else .ok (numerator / denominator)

/-- A value with what is left, or the division by zero as an error at a position. -/
def outcome {α σ : Type} (value : Except Float α) (p : Position) (rest : σ) :
    Except Error (α × σ) :=
  match value with
  | .ok a => .ok (a, rest)
  | .error n => .error (.domain (.zeroDenominator n) (some p))

/-- A number as it is written. -/
inductive Literal where
  | decimal (d : Decimal)
  | fraction (n d : Decimal)
  | mixed (w n d : Decimal)

namespace Literal

open Score (Written)

def text : Literal → List Char
  | decimal d => d.text
  | fraction n d => n.text ++ '/' :: d.text
  | mixed w n d => w.text ++ '+' :: (n.text ++ '/' :: d.text)

/-- What the literal means, or the numerator that it divides by zero. -/
def value : Literal → Except Float Float
  | decimal d => .ok d.value
  | fraction n d => ratio n.value d.value
  | mixed w n d => (ratio n.value d.value).map (w.value + ·)

/-- What the literal may be made of: its first decimal may begin with the point. -/
def Proper : Literal → Prop
  | decimal d => Written d
  | fraction n d => Written n ∧ d.Proper
  | mixed w n d => Written w ∧ n.Proper ∧ d.Proper

/-- The decimal at the end of the literal. -/
def last : Literal → Decimal
  | decimal d => d
  | fraction _ d => d
  | mixed _ _ d => d

/-- The literal does not go on with this text. Only a decimal can go on as a fraction or as a mixed
number. -/
structure StopsAt (l : Literal) (s : List Char) : Prop where
  decimal : l.last.StopsAt s
  noFraction : ∀ d, l = .decimal d → ¬ Opens '/' StartsDigit s
  noMixed : ∀ w, l = .decimal w → ∀ n d : Decimal, n.Proper → d.Proper →
    ∀ r, s ≠ '+' :: (n.text ++ '/' :: (d.text ++ r))

end Literal

namespace Score.Reader

variable {d n : Decimal} {s t : List Char} {x : Float} {position p : Position}

lemma quotient_apply (n d : Float) (position : Position) (c : Cursor) :
    quotient n d position c = outcome (ratio n d) position c := by
  unfold quotient ratio
  split_ifs <;> rfl

lemma number_written (what : String) (hd : Written d) (ht : d.StopsAt t) (p : Position) :
    number what ⟨d.text ++ t, p⟩ = afterDecimal d.value p ⟨t, p.pastAll d.text⟩ := by
  have hnumber : number what = here >>= fun position => decimal >>= fun d =>
      if d.isEmpty then expected [what] else afterDecimal d.value position := rfl
  rw [hnumber, bind_apply]
  dsimp only [here]
  rw [bind_apply, decimal_apply hd.whole_digits hd.fraction_digits ht]
  dsimp only
  rw [if_neg (by simp [hd.not_isEmpty])]

lemma belowStroke_apply (hd : d.Proper) (hs : d.StopsAt s) (x : Float) (position p : Position) :
    belowStroke x position ⟨'/' :: (d.text ++ s), p⟩ =
      outcome (ratio x d.value) position ⟨s, p.pastAll ('/' :: d.text)⟩ := by
  unfold belowStroke
  rw [bind_apply]
  dsimp only [move, Cursor.advance]
  rw [bind_apply, decimal_apply hd.whole_digits hd.fraction_digits hs]
  exact quotient_apply x d.value position _

lemma afterDecimal_below (h : Opens '/' StartsDigit t) :
    afterDecimal x position ⟨t, p⟩ = belowStroke x position ⟨t, p⟩ := by
  have hslash := (digitAfter_iff '/' t p).mpr h
  unfold afterDecimal
  rw [bind_apply]
  dsimp only [look]
  rw [if_pos hslash]
  rfl

lemma afterDecimal_not_below (h : ¬ Opens '/' StartsDigit t) :
    afterDecimal x position ⟨t, p⟩ =
      if Cursor.digitAfter ⟨t, p⟩ '+' = true then afterPlus x position ⟨t, p⟩
      else .ok (x, ⟨t, p⟩) := by
  have hslash := (digitAfter_iff '/' t p).not.mpr h
  unfold afterDecimal
  rw [bind_apply]
  dsimp only [look]
  rw [if_neg hslash, bind_apply, look]
  dsimp only
  split_ifs <;> rfl

lemma afterPlus_fraction (hn : n.Proper) (hd : d.Proper) (hs : d.StopsAt s) (x : Float)
    (position p : Position) : afterPlus x position ⟨'+' :: (n.text ++ '/' :: (d.text ++ s)), p⟩ =
      outcome ((ratio n.value d.value).map (x + ·)) position
        ⟨s, p.pastAll ('+' :: (n.text ++ '/' :: d.text))⟩ := by
  have hends := Decimal.stopsAt_cons (c := '/') (by decide) (by decide) n (d.text ++ s)
  have hslash : Cursor.digitAfter ⟨'/' :: (d.text ++ s), (p.past '+').pastAll n.text⟩ '/' = true :=
    (digitAfter_iff ..).mpr ⟨_, rfl, proper_startsDigit hd s⟩
  have hpast : ((p.past '+').pastAll n.text).pastAll ('/' :: d.text) =
      p.pastAll ('+' :: (n.text ++ '/' :: d.text)) := by simp [Position.pastAll]
  rw [afterPlus_apply, decimal_apply hn.whole_digits hn.fraction_digits hends]
  dsimp only
  rw [if_pos hslash, belowStroke_apply hd hs, hpast]
  cases ratio n.value d.value <;> rfl

/-- Behind a plus sign the reader goes back unless a whole fraction stands there. -/
lemma afterPlus_back (ht : StartsDigit t) (hmixed : ∀ n d : Decimal, n.Proper → d.Proper →
    ∀ r, t ≠ n.text ++ '/' :: (d.text ++ r)) (x : Float) (position p : Position) :
    afterPlus x position ⟨'+' :: t, p⟩ = .ok (x, ⟨'+' :: t, p⟩) := by
  obtain ⟨n, s, rfl, hwhole, hfraction, hs⟩ := exists_decimal t
  have hread := decimal_apply hwhole hfraction hs (p.past '+')
  obtain ⟨_, _, -, -, -, hn⟩ := parses_decimal_start.sound ht hread
  have hslash : ¬ Cursor.digitAfter ⟨s, (p.past '+').pastAll n.text⟩ '/' = true := by
    rw [digitAfter_iff]
    rintro ⟨_, rfl, c, r, rfl, hc⟩
    exact hmixed n ⟨[c], []⟩ hn ⟨by simp, by simpa using hc, by simp⟩ r (by simp [Decimal.text])
  rw [afterPlus_apply, hread]
  dsimp only
  rw [if_neg hslash]

/-- The reader of numbers reads a literal as what it means. -/
theorem number_literal {l : Literal} (hl : l.Proper) (hs : l.StopsAt s) (what : String)
    (p : Position) :
    number what ⟨l.text ++ s, p⟩ = outcome l.value p ⟨s, p.pastAll l.text⟩ := by
  cases l with
  | decimal d =>
    rw [Literal.text, number_written what hl hs.decimal,
      afterDecimal_not_below (hs.noFraction d rfl)]
    split_ifs with hplus
    · obtain ⟨t, rfl, ht⟩ := (digitAfter_iff ..).mp hplus
      refine afterPlus_back ht (fun n e hn he r heq => ?_) d.value p _
      exact hs.noMixed d rfl n e hn he r (congrArg ('+' :: ·) heq)
    · rfl
  | fraction n d =>
    obtain ⟨hn, hd⟩ := hl
    have hends := Decimal.stopsAt_cons (c := '/') (by decide) (by decide) n (d.text ++ s)
    have hopens : Opens '/' StartsDigit ('/' :: (d.text ++ s)) :=
      ⟨_, rfl, proper_startsDigit hd s⟩
    rw [Literal.text, List.append_assoc, List.cons_append, number_written what hn hends,
      afterDecimal_below hopens, belowStroke_apply hd hs.decimal, pastAll_append]
    rfl
  | mixed w n d =>
    obtain ⟨hw, hn, hd⟩ := hl
    have hends := Decimal.stopsAt_cons (c := '+') (by decide) (by decide) w
      (n.text ++ '/' :: (d.text ++ s))
    have hplus : Cursor.digitAfter ⟨'+' :: (n.text ++ '/' :: (d.text ++ s)), p.pastAll w.text⟩ '+' =
        true := (digitAfter_iff ..).mpr ⟨_, rfl, proper_startsDigit hn _⟩
    rw [Literal.text, List.append_assoc, List.cons_append, List.append_assoc, List.cons_append,
      number_written what hw hends, afterDecimal_not_below (by simp [Opens]), if_pos hplus,
      afterPlus_fraction hn hd hs.decimal, pastAll_append]
    rfl

end Score.Reader

end Barline
