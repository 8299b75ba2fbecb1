import Barline.Proofs.Score.Naming

/-!
# What the readers of numbers parse

Each reader of a number parses the texts that denote one, in front of texts that do not go on with
it. So do the readers of bars.
-/

namespace Barline.Score

open Number Scan Reader

lemma parses_integer (what : String) :
    Parses Anything (integer what) (fun _ w _ n => Whole w n) NoDigit := by
  have hvalue (ds : List Char) (position : Position) : Parses Anything
      (if ds.isEmpty then expected [what]
        else if valueOf ds < bound32 then pure (UInt32.ofNat (valueOf ds))
        else refuse (.tooLarge what (String.ofList ds)) position : Scan UInt32)
      (fun _ w _ n => w = [] ∧ ds ≠ [] ∧ valueOf ds < bound32 ∧ n = UInt32.ofNat (valueOf ds))
      NoDigit := by
    refine (Parses.ite (fun _ => parses_expected _) fun _ => parses_provided _ _ _).congr ?_
    intro p w s n
    simp only [and_false, false_or, List.isEmpty_iff]
    tauto
  unfold integer
  refine (Parses.bind_here fun position => parses_digits.bind_still (hvalue · position)).congr ?_
  intro p w s n
  constructor
  · rintro ⟨ds, ⟨rfl, hds⟩, hne, hlt, rfl⟩
    exact ⟨hne, hds, hlt, rfl⟩
  · intro h
    exact ⟨w, ⟨rfl, h.digits⟩, h.ne_nil, h.small, h.eq⟩

lemma Whole.startsDigit {w : List Char} {n : UInt32} (h : Whole w n) (s : List Char) :
    StartsDigit (w ++ s) := startsDigit_of_digits h.ne_nil h.digits s

/-- A number does not go on here. -/
structure EndsNumeral (s : List Char) : Prop extends EndsDecimal s where
  noFraction : ¬ Opens '/' StartsDigit s
  noMixed : s.head? ≠ some '+'

lemma parses_below (n : Float) (position : Position) :
    Parses StartsDigit (decimal >>= fun d => quotient n d.value position)
      (fun _ w _ x => ∃ d : Decimal, d.Proper ∧ w = d.text ∧ (d.value == 0.0) = false ∧
        x = n / d.value) EndsNumeral := by
  have hdecimal := parses_decimal_start.before fun s (h : EndsNumeral s) =>
    h.toEndsDecimal
  refine (hdecimal.bind_still fun d => parses_unless _ _ _).congr ?_
  intro p w s x
  constructor
  · rintro ⟨d, ⟨rfl, hd⟩, hzero, rfl⟩
    exact ⟨d, hd, rfl, by simpa using hzero, rfl⟩
  · rintro ⟨d, hd, rfl, hzero, rfl⟩
    exact ⟨d, ⟨rfl, hd⟩, by simpa using hzero, rfl⟩

/-- A stroke and the number below it. -/
def belowStroke (n : Float) (position : Position) : Scan Float := do
  move Cursor.advance
  quotient n (← decimal).value position

lemma parses_belowStroke (n : Float) (position : Position) :
    Parses (Opens '/' StartsDigit) (belowStroke n position)
      (fun _ w _ x => ∃ d : Decimal, d.Proper ∧ w = '/' :: d.text ∧ (d.value == 0.0) = false ∧
        x = n / d.value) EndsNumeral := by
  refine ((parses_below n position).bind_advance '/').congr fun p w s x => ?_
  constructor
  · rintro ⟨_, rfl, d, hd, rfl, hzero, rfl⟩
    exact ⟨d, hd, rfl, hzero, rfl⟩
  · rintro ⟨d, hd, rfl, hzero, rfl⟩
    exact ⟨d.text, rfl, d, hd, rfl, hzero, rfl⟩

lemma proper_startsDigit {d : Decimal} (h : d.Proper) (s : List Char) :
    StartsDigit (d.text ++ s) := by
  obtain ⟨c, r, hr, hc⟩ := h.text_eq_cons
  exact ⟨c, r ++ s, by rw [hr, List.cons_append], hc⟩

/-- What is made of a number and what stands behind it, where a plus sign is next. -/
def afterPlus (x : Float) (position : Position) : Scan Float := do
  match ← mixedPart position with
  | some part => return x + part
  | none => return x

/-- Where no fraction follows the plus sign, the reader goes back in front of it. -/
lemma afterPlus_apply (x : Float) (position p : Position) (r : List Char) :
    afterPlus x position ⟨'+' :: r, p⟩ =
      match decimal ⟨r, p.past '+'⟩ with
      | .error e => .error e
      | .ok (n, c) =>
        if c.digitAfter '/' = true then
          (belowStroke n.value position c).map fun r => (x + r.1, r.2)
        else .ok (x, ⟨'+' :: r, p⟩) := by
  have hmixed : mixedPart position ⟨'+' :: r, p⟩ = (decimal >>= fun n =>
      look (·.digitAfter '/') >>= fun b => if b = true then
        move Cursor.advance >>= fun _ => decimal >>= fun d =>
          quotient n.value d.value position >>= fun q => pure (some q)
        else set (⟨'+' :: r, p⟩ : Cursor) >>= fun _ => pure none) ⟨r, p.past '+'⟩ := rfl
  rw [afterPlus, bind_apply, hmixed, bind_apply]
  cases decimal ⟨r, p.past '+'⟩ with
  | error e => rfl
  | ok rn =>
    obtain ⟨n, c⟩ := rn
    dsimp only
    rw [bind_apply]
    dsimp only [look]
    split_ifs with hslash
    · unfold belowStroke
      rw [bind_apply, bind_apply]
      dsimp only [move]
      rw [bind_apply, bind_apply]
      rcases decimal c.advance with e | ⟨d, c'⟩
      · rfl
      · dsimp only
        rw [bind_apply]
        rcases quotient n.value d.value position c' with e | r <;> rfl
    · rfl

/-- A mixed number, or the whole part alone if no fraction follows the plus sign. -/
lemma parses_afterPlus (x : Float) (position : Position) :
    Parses (Opens '+' StartsDigit) (afterPlus x position)
      (fun _ w s y => (∃ n d : Decimal, n.Proper ∧ d.Proper ∧
        w = '+' :: (n.text ++ '/' :: d.text) ∧ (d.value == 0.0) = false ∧
        y = x + n.value / d.value) ∨ (w = [] ∧ y = x ∧ s.head? = some '+')) EndsNumeral where
  sound := by
    rintro _ p y c ⟨r, rfl, hr⟩ h
    rw [afterPlus_apply] at h
    cases hn : decimal ⟨r, p.past '+'⟩ with
    | error e =>
      rw [hn] at h
      cases h
    | ok rn =>
      obtain ⟨n, c⟩ := rn
      obtain ⟨_, s, rfl, rfl, rfl, hproper⟩ := parses_decimal_start.sound hr hn
      rw [hn] at h
      dsimp only at h
      -- without a stroke and a digit the reader goes back in front of the plus sign
      split_ifs at h with hslash
      · rw [digitAfter_iff] at hslash
        cases hq : belowStroke n.value position ⟨s, (p.past '+').pastAll n.text⟩ with
        | error e =>
          rw [hq] at h
          cases h
        | ok rq =>
          obtain ⟨q, c⟩ := rq
          rw [hq] at h
          cases h
          obtain ⟨_, s, rfl, rfl, d, hd, rfl, hzero, rfl⟩ :=
            (parses_belowStroke n.value position).sound hslash hq
          refine ⟨'+' :: (n.text ++ '/' :: d.text), s, by simp, ?_,
            .inl ⟨n, d, hproper, hd, rfl, hzero, rfl⟩⟩
          simp [Position.pastAll]
      · cases h
        exact ⟨[], _, rfl, rfl, .inr ⟨rfl, rfl, rfl⟩⟩
  complete := by
    rintro p w s y (⟨n, d, hn, hd, rfl, hzero, rfl⟩ | ⟨-, -, hplus⟩) hs
    · have hends : EndsDecimal ('/' :: (d.text ++ s)) := ⟨by simp [NoDigit], by simp⟩
      have hfirst := parses_decimal_start.complete (p := p.past '+') ⟨rfl, hn⟩ hends
      have hbelow := (parses_belowStroke n.value position).complete
        (p := (p.past '+').pastAll n.text) ⟨d, hd, rfl, hzero, rfl⟩ hs
      have hslash : Cursor.digitAfter ⟨'/' :: (d.text ++ s), (p.past '+').pastAll n.text⟩ '/' =
          true := (digitAfter_iff ..).mpr ⟨_, rfl, proper_startsDigit hd s⟩
      rw [List.cons_append, List.append_assoc, List.cons_append, afterPlus_apply, hfirst]
      dsimp only
      rw [if_pos hslash]
      rw [List.cons_append] at hbelow
      rw [hbelow]
      simp [Except.map, Position.pastAll]
    · exact absurd hplus hs.noMixed

/-- What comes behind the first decimal of a number. -/
def afterDecimal (x : Float) (position : Position) : Scan Float := do
  if ← look (·.digitAfter '/') then
    move Cursor.advance
    quotient x (← decimal).value position
  else if ← look (·.digitAfter '+') then afterPlus x position
  else return x

/-- The forms of what comes behind the first decimal. -/
inductive AfterDecimal (x : Float) : List Char → Float → Prop
  | nothing : AfterDecimal x [] x
  | below {d : Decimal} (hd : d.Proper) (hzero : (d.value == 0.0) = false) :
    AfterDecimal x ('/' :: d.text) (x / d.value)
  | mixed {n d : Decimal} (hn : n.Proper) (hd : d.Proper) (hzero : (d.value == 0.0) = false) :
    AfterDecimal x ('+' :: (n.text ++ '/' :: d.text)) (x + n.value / d.value)

lemma AfterDecimal.endsDecimal {x y : Float} {w s : List Char} (h : AfterDecimal x w y)
    (hs : EndsNumeral s) : EndsDecimal (w ++ s) := by
  cases h with
  | nothing => exact hs.toEndsDecimal
  | below hd hzero => exact ⟨by simp [NoDigit], by simp⟩
  | mixed hn hd hzero => exact ⟨by simp [NoDigit], by simp⟩

lemma parses_afterDecimal (x : Float) (position : Position) :
    Parses Anything (afterDecimal x position) (fun _ w _ y => AfterDecimal x w y) EndsNumeral := by
  have hplus : Parses Anything _ _ _ := Parses.ite_look (·.digitAfter '+') (digitAfter_iff '+')
    ((parses_afterPlus x position).weaken (fun _ h => h.2) fun _ h => h)
    (parses_pure x) ?_ ?_
  rotate_left
  · rintro p w s y (⟨n, d, hn, -, rfl, -⟩ | ⟨-, -, hplus⟩) hs
    · exact ⟨_, rfl, by simpa using proper_startsDigit hn ('/' :: (d.text ++ s))⟩
    · exact absurd hplus hs.noMixed
  · rintro p w s y ⟨rfl, -⟩ hs hplus
    exact hs.noMixed hplus.head?
  refine ((parses_below x position).ite_digitAfter hplus ?_ ?_).congr ?_
  · rintro p w s y ⟨d, hd, rfl, -⟩ hs
    exact proper_startsDigit hd s
  · rintro p w s y ((⟨n, d, hn, hd, rfl, -⟩ | ⟨-, -, hplus⟩) | ⟨rfl, -⟩) hs hslash
    · simpa using hslash.head?
    · exact hs.noMixed hplus
    · exact hs.noFraction hslash
  · intro p w s y
    constructor
    · rintro (⟨_, rfl, d, hd, rfl, hzero, rfl⟩ | (⟨n, d, hn, hd, rfl, hzero, rfl⟩ | ⟨rfl, rfl, -⟩) |
        ⟨rfl, rfl⟩)
      · exact .below hd hzero
      · exact .mixed hn hd hzero
      · exact .nothing
      · exact .nothing
    · rintro (_ | ⟨hd, hzero⟩ | ⟨hn, hd, hzero⟩)
      · exact .inr (.inr ⟨rfl, rfl⟩)
      · exact .inl ⟨_, rfl, _, hd, rfl, hzero, rfl⟩
      · exact .inr (.inl (.inl ⟨_, _, hn, hd, rfl, hzero, rfl⟩))

theorem parses_number (what : String) :
    Parses Anything (number what) (fun _ w _ x => Numeral w x) EndsNumeral := by
  have hrest (d : Decimal) (position : Position) : Parses Anything
      (if d.isEmpty then expected [what] else afterDecimal d.value position)
      (fun _ w _ x => d.isEmpty = false ∧ AfterDecimal d.value w x) EndsNumeral := by
    refine (Parses.ite (fun _ => parses_expected _) fun _ =>
      parses_afterDecimal d.value position).congr fun p w s x => ?_
    simp
  have hnumber : number what = here >>= fun position => decimal >>= fun d =>
      if d.isEmpty then expected [what] else afterDecimal d.value position := rfl
  rw [hnumber]
  refine (Parses.bind_here fun position => parses_decimal.bind (fun d => hrest d position)
    (fun _ _ _ _ _ => trivial) ?_).congr ?_
  · rintro p _ v s d x - ⟨-, h⟩ hs
    exact h.endsDecimal hs
  · intro p w s x
    constructor
    · rintro ⟨_, _, d, rfl, ⟨rfl, hwhole, hfraction⟩, hempty, h⟩
      have hd : Written d := ⟨hwhole, hfraction, hempty⟩
      cases h with
      | nothing =>
        rw [List.append_nil]
        exact .decimal hd
      | below hproper hzero => exact .fraction hd hproper hzero
      | mixed hn hproper hzero => exact .mixed hd hn hproper hzero
    · rintro (@⟨d, hd⟩ | ⟨hd, hproper, hzero⟩ | ⟨hd, hn, hproper, hzero⟩)
      · exact ⟨d.text, [], d, by simp, ⟨rfl, hd.whole_digits, hd.fraction_digits⟩, hd.not_isEmpty,
          .nothing⟩
      · exact ⟨_, _, _, rfl, ⟨rfl, hd.whole_digits, hd.fraction_digits⟩, hd.not_isEmpty,
          .below hproper hzero⟩
      · exact ⟨_, _, _, rfl, ⟨rfl, hd.whole_digits, hd.fraction_digits⟩, hd.not_isEmpty,
          .mixed hn hproper hzero⟩

lemma parses_barNumber :
    Parses Anything barNumber (fun _ w _ bar => DenotesBar w bar) NoDigit := by
  unfold barNumber
  refine (Parses.bind_here fun position => (parses_integer _).bind_still fun bar =>
    parses_unless _ position bar).congr ?_
  intro p w s bar
  constructor
  · rintro ⟨n, hn, hne, rfl⟩
    exact ⟨hn, hne⟩
  · intro h
    exact ⟨bar, h.whole, h.ne_zero, rfl⟩

/-- A bar or a range of bars does not go on here. -/
structure EndsBars (s : List Char) : Prop where
  noDigit : NoDigit s
  noRange : s.head? ≠ some '-'

theorem parses_bars : Parses Anything bars (fun _ w _ b => DenotesBars w b) EndsBars := by
  have hlast (first : UInt32) (position : Position) :=
    (parses_barNumber.before fun s (h : EndsBars s) => h.noDigit).bind_still
      fun last => parses_unless (P := last < first) (.backwardBars first last) position
        (Bars.range first last)
  have hrest (first : UInt32) (position : Position) := Parses.ite_eat (c := '-')
    (hlast first position) (parses_pure (.single first)) (by
      rintro p w s b ⟨rfl, -⟩ hs
      exact hs.noRange)
  unfold bars
  refine (Parses.bind_here fun position => parses_barNumber.bind (hrest · position)
    (fun _ _ _ _ _ => trivial) ?_).congr ?_
  · rintro p _ _ s n b - (⟨v, rfl, -⟩ | ⟨rfl, -⟩) hs
    · simp [NoDigit]
    · exact hs.noDigit
  · intro p w s b
    constructor
    · rintro ⟨u, _, first, rfl, hfirst, ⟨v, rfl, last, hlast, hle, rfl⟩ | ⟨rfl, rfl⟩⟩
      · exact .range hfirst hlast (UInt32.not_lt.mp hle)
      · rw [List.append_nil]
        exact .single hfirst
    · rintro (⟨hbar⟩ | ⟨hfirst, hlast, hle⟩)
      · exact ⟨w, [], _, by simp, hbar, .inr ⟨rfl, rfl⟩⟩
      · exact ⟨_, _, _, rfl, hfirst, .inl ⟨_, rfl, _, hlast, UInt32.not_lt.mpr hle, rfl⟩⟩

end Barline.Score
