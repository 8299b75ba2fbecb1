import Barline.Proofs.Score.Numerals

/-!
# What the readers of elements parse

Each reader of an element that is one word parses the words that denote its elements, up to where
they end.
-/

namespace Barline.Score

open Number Scan Reader

lemma EndsNumeral.of_separates {s : List Char} (hs : Separates s) : EndsNumeral s where
  noDigit := hs.noDigit
  noPoint := hs.head?_ne (by decide) (by decide)
  noFraction := hs.not_opens
  noMixed := hs.head?_ne (by decide) (by decide)

lemma EndsBars.of_separates {s : List Char} (hs : Separates s) : EndsBars s where
  noDigit := hs.noDigit
  noRange := hs.head?_ne (by decide) (by decide)

lemma endOfElement_of_separates (continuations : List String) {s : List Char} (hs : Separates s)
    (p : Position) : endOfElement continuations ⟨s, p⟩ = .ok ((), ⟨s, p⟩) := by
  have hsep := (atSeparator_iff s p).mpr hs
  change (if Cursor.atSeparator ⟨s, p⟩ = true then pure ()
    else expected (continuations ++ ["whitespace"]) : Scan Unit) ⟨s, p⟩ = _
  rw [if_pos hsep]
  rfl

lemma separates_of_endOfElement {continuations : List String} {t : List Char} {p : Position}
    {c : Cursor} (h : endOfElement continuations ⟨t, p⟩ = .ok ((), c)) :
    Separates t ∧ c = ⟨t, p⟩ := by
  change (if Cursor.atSeparator ⟨t, p⟩ = true then pure ()
    else expected (continuations ++ ["whitespace"]) : Scan Unit) ⟨t, p⟩ = _ at h
  split_ifs at h with hsep
  · cases h
    exact ⟨(atSeparator_iff t p).mp hsep, rfl⟩
  · cases h

lemma parses_end {α : Type} (continuations : List String) (a : α) :
    Parses Anything (endOfElement continuations >>= fun _ => pure a)
      (fun _ w s b => w = [] ∧ Separates s ∧ b = a) Separates where
  sound {t p b c} _ h := by
    rw [bind_apply] at h
    cases hend : endOfElement continuations ⟨t, p⟩ with
    | error e =>
      rw [hend] at h
      cases h
    | ok r =>
      obtain ⟨_, c'⟩ := r
      obtain ⟨hs, rfl⟩ := separates_of_endOfElement hend
      rw [hend] at h
      cases h
      exact ⟨[], t, rfl, rfl, rfl, hs, rfl⟩
  complete := by
    rintro p _ s b ⟨rfl, hs, rfl⟩ -
    rw [List.nil_append, bind_apply, endOfElement_of_separates continuations hs]
    rfl

lemma parses_velocityValue :
    Parses Anything velocityValue (fun _ w _ v => DenotesVelocity w v) NoDigit := by
  unfold velocityValue
  refine (Parses.bind_here fun position => (parses_integer _).bind_still fun n =>
    parses_provided (P := n ≤ 127) _ position n.toUInt8).congr ?_
  intro p w s v
  rfl

lemma Named.head?_chars {n : PitchName} (hn : Named n) {c : Char}
    (hc : c ∉ ['A', 'B', 'C', 'D', 'E', 'F', 'G']) : n.chars.head? ≠ some c := by
  intro h
  have hletter : n.letter = c := Option.some.inj h
  exact hc (hletter ▸ hn.letter)

/-- The scan parses the elements that begin with a character, up to where they end. -/
abbrev ParsesElement (c : Char) (x : Scan Element) : Prop :=
  Parses (Opens c Anything) x
    (fun _ w s e => Denotes ReadAs w e ∧ w.head? = some c ∧ Separates s) Separates

lemma parses_velocityHigh (low : UInt8) (position : Position) : Parses Anything
    (velocityValue >>= fun high =>
      if high < low then
        refuse (.velocityInverted low high) position >>= fun e =>
          endOfElement ["'-'"] >>= fun _ => pure e
      else endOfElement ["'-'"] >>= fun _ => pure (Element.velocityRange low high))
    (fun _ w s e => ∃ high, DenotesVelocity w high ∧ low ≤ high ∧ Separates s ∧
      e = Element.velocityRange low high) Separates := by
  refine (parses_velocityValue.before fun s (h : Separates s) =>
    h.noDigit).bind_still fun high => ?_
  refine (Parses.ite (fun _ => parses_refuse_bind _ _ _) fun _ => parses_end _ _).congr ?_
  intro p w s e
  simp only [and_false, false_or, UInt8.not_lt]
  tauto

theorem parses_velocityElement (position : Position) :
    ParsesElement 'v' (velocityElement position) := by
  unfold velocityElement
  simp only [pure_bind]
  refine ((parses_velocityValue.bind (fun low => (parses_velocityHigh low position).ite_eat
    (parses_end _ _).anywhere ?_) (fun _ _ _ _ _ => trivial) ?_).bind_advance 'v').congr ?_
  · rintro p w s e ⟨rfl, -⟩ hs
    exact hs.head?_ne (by decide) (by decide)
  · rintro p u _ s low e - (⟨v, rfl, -⟩ | ⟨rfl, -⟩) hs
    · simp [NoDigit]
    · exact hs.noDigit
  · intro p w s e
    constructor
    · rintro ⟨_, rfl, u, _, low, rfl, hlow, ⟨v, rfl, high, hhigh, hle, hs, rfl⟩ | ⟨rfl, hs, rfl⟩⟩
      · exact ⟨.velocityRange hlow hhigh hle, rfl, hs⟩
      · rw [List.append_nil]
        exact ⟨.velocity hlow, rfl, hs⟩
    · rintro ⟨h, hhead, hs⟩
      cases h with
      | velocity hlow => exact ⟨_, rfl, _, [], _, by simp, hlow, .inr ⟨rfl, hs, rfl⟩⟩
      | velocityRange hlow hhigh hle =>
        exact ⟨_, rfl, _, _, _, rfl, hlow, .inl ⟨_, rfl, _, hhigh, hle, hs, rfl⟩⟩
      | pitch hn => exact absurd hhead (hn.head?_chars (by decide))
      | _ => cases hhead

theorem parses_probabilityElement (position : Position) :
    ParsesElement 'p' (probabilityElement position) := by
  have hend (x : Float) : Parses Anything
      (if 0.0 ≤ x ∧ x ≤ 1.0 then endOfElement [] >>= fun _ => pure (Element.probability x)
        else refuse (.probabilityOutside x) position)
      (fun _ w s e => w = [] ∧ (0.0 ≤ x ∧ x ≤ 1.0) ∧ Separates s ∧ e = .probability x)
      Separates := by
    refine (Parses.ite (fun _ => parses_end _ _) fun _ => parses_refuse _ _).congr ?_
    intro p w s e
    simp only [and_false, or_false]
    tauto
  unfold probabilityElement
  refine (Parses.bind_advance 'p' (((parses_number _).before
    fun s (h : Separates s) => .of_separates h).bind_still hend)).congr ?_
  intro p w s e
  constructor
  · rintro ⟨v, rfl, x, hx, hrange, hs, rfl⟩
    exact ⟨.probability hx hrange.1 hrange.2, rfl, hs⟩
  · rintro ⟨h, hhead, hs⟩
    cases h with
    | probability hx h0 h1 => exact ⟨_, rfl, _, hx, ⟨h0, h1⟩, hs, rfl⟩
    | pitch hn => exact absurd hhead (hn.head?_chars (by decide))
    | _ => cases hhead

/-- A duration does not go on here. -/
structure EndsLength (s : List Char) : Prop extends EndsNumeral s where
  noBars : s.head? ≠ some ':'

lemma decimal_split (d : Decimal) (t : List Char) :
    ∃ r, d.text ++ t = d.whole ++ r ∧ (r = t ∨ r.head? = some '.') := by
  unfold Decimal.text
  split_ifs
  · exact ⟨t, by simp, .inl rfl⟩
  · exact ⟨'.' :: (d.fraction ++ t), by simp, .inr rfl⟩

/-- Behind its first digits a number does not go on with a colon. -/
lemma Numeral.split {w : List Char} {x : Float} (h : Numeral w x) :
    ∃ ds r, w = ds ++ r ∧ (∀ c ∈ ds, c.isDigit) ∧
      (r = [] ∨ ∃ c ∈ ['.', '/', '+'], r.head? = some c) := by
  have hsplit {d : Decimal} (hd : Written d) (t : List Char)
      (ht : t = [] ∨ ∃ c ∈ ['.', '/', '+'], t.head? = some c) :
      ∃ ds r, d.text ++ t = ds ++ r ∧ (∀ c ∈ ds, c.isDigit) ∧
        (r = [] ∨ ∃ c ∈ ['.', '/', '+'], r.head? = some c) := by
    obtain ⟨r, hr, rfl | hpoint⟩ := decimal_split d t
    · exact ⟨d.whole, r, hr, hd.whole_digits, ht⟩
    · exact ⟨d.whole, r, hr, hd.whole_digits, .inr ⟨'.', by simp, hpoint⟩⟩
  cases h with
  | @decimal d hd => simpa using hsplit hd [] (.inl rfl)
  | fraction hn hd hzero => exact hsplit hn _ (.inr ⟨'/', by simp, rfl⟩)
  | mixed hw hn hd hzero => exact hsplit hw _ (.inr ⟨'+', by simp, rfl⟩)

/-- A duration in bars and beats, from the colon on. -/
def lengthBars (ds : List Char) (position : Position) : Scan Length :=
  if valueOf ds < bound32 then do
    move Cursor.advance
    return .bars (UInt32.ofNat (valueOf ds)) (← number "beats")
  else refuse (.barCountTooLarge (String.ofList ds)) position

/-- A duration in beats. -/
def lengthBeats : Scan Length := do return .beats (← number "duration")

lemma parses_lengthBars (ds : List Char) (position : Position) :
    Parses (Opens ':' Anything) (lengthBars ds position)
      (fun _ w _ l => ∃ v x, w = ':' :: v ∧ valueOf ds < bound32 ∧ Numeral v x ∧
        l = Length.bars (UInt32.ofNat (valueOf ds)) x) EndsNumeral := by
  have hnumber := (parses_number "beats").bind_still fun x =>
    parses_pure (Length.bars (UInt32.ofNat (valueOf ds)) x)
  refine (Parses.ite (fun _ => hnumber.bind_advance ':') fun _ => parses_refuse _ _).congr ?_
  intro p w s l
  constructor
  · rintro (⟨hlt, v, rfl, x, hx, rfl⟩ | ⟨-, ⟨⟩⟩)
    exact ⟨v, x, rfl, hlt, hx, rfl⟩
  · rintro ⟨v, x, rfl, hlt, hx, rfl⟩
    exact .inl ⟨hlt, v, rfl, x, hx, rfl⟩

lemma parses_lengthBeats : Parses Anything lengthBeats
    (fun _ w _ l => ∃ x, Numeral w x ∧ l = Length.beats x) EndsNumeral :=
  (parses_number "duration").bind_still fun x => parses_pure (Length.beats x)

/-- A colon behind digits decides for bars. -/
lemma length_digits (position : Position) {ds s : List Char} (hds : ∀ c ∈ ds, c.isDigit)
    (hs : NoDigit s) (p : Position) :
    length position ⟨ds ++ s, p⟩ =
      if ds ≠ [] ∧ s.head? = some ':' then lengthBars ds position ⟨s, p.pastAll ds⟩
      else lengthBeats ⟨ds ++ s, p⟩ := by
  have hlength : length position ⟨ds ++ s, p⟩ = (digits >>= fun ds' => look (·.peek == some ':') >>=
      fun colon => if (!ds'.isEmpty && colon) = true then lengthBars ds' position
      else set (⟨ds ++ s, p⟩ : Cursor) >>= fun _ => lengthBeats) ⟨ds ++ s, p⟩ := rfl
  have hcolon : (!ds.isEmpty && Cursor.peek ⟨s, p.pastAll ds⟩ == some ':') = true ↔
      ds ≠ [] ∧ s.head? = some ':' := by
    simp [Cursor.peek]
  rw [hlength, bind_apply, digits_apply hds hs]
  change (if (!ds.isEmpty && Cursor.peek ⟨s, p.pastAll ds⟩ == some ':') = true then _ else _ :
    Scan Length) ⟨s, p.pastAll ds⟩ = _
  by_cases h : ds ≠ [] ∧ s.head? = some ':'
  · rw [if_pos (hcolon.mpr h), if_pos h]
  · rw [if_neg fun hc => h (hcolon.mp hc), if_neg h]
    rfl

theorem parses_length (position : Position) :
    Parses Anything (length position) (fun _ w _ l => DenotesLength w l) EndsLength where
  sound {t p l c} _ h := by
    obtain ⟨ds, s, rfl, hds, hs⟩ := exists_digits t
    rw [length_digits position hds hs] at h
    by_cases hcolon : ds ≠ [] ∧ s.head? = some ':'
    · rw [if_pos hcolon] at h
      obtain ⟨hne, hhead⟩ := hcolon
      obtain ⟨s, rfl⟩ := List.head?_eq_some_iff.mp hhead
      obtain ⟨_, s, hs, rfl, v, x, rfl, hlt, hx, rfl⟩ :=
        (parses_lengthBars ds position).sound ⟨s, rfl, trivial⟩ h
      refine ⟨ds ++ ':' :: v, s, by rw [hs, List.append_assoc], ?_, ?_⟩
      · rw [pastAll_append]
      · exact .bars ⟨hne, hds, hlt, rfl⟩ hx
    · rw [if_neg hcolon] at h
      obtain ⟨w, s, ht, hc, x, hx, rfl⟩ := parses_lengthBeats.sound trivial h
      exact ⟨w, s, ht, hc, .beats hx⟩
  complete {p w s l} h hs := by
    cases h with
    | beats hx =>
      -- the reader looks for a colon behind the first digits and goes back in front of them
      obtain ⟨ds, r, rfl, hds, hr⟩ := hx.split
      have hnext : NoDigit (r ++ s) ∧ (r ++ s).head? ≠ some ':' := by
        obtain rfl | ⟨c, hc, hhead⟩ := hr
        · exact ⟨hs.noDigit, hs.noBars⟩
        · obtain ⟨r, rfl⟩ := List.head?_eq_some_iff.mp hhead
          fin_cases hc <;> simp [NoDigit]
      rw [List.append_assoc, length_digits position hds hnext.1, if_neg fun h => hnext.2 h.2,
        ← List.append_assoc]
      exact parses_lengthBeats.complete ⟨_, hx, rfl⟩ hs.toEndsNumeral
    | @bars w v n x hbars hbeats =>
      have hcolon : NoDigit (':' :: v ++ s) := by simp [NoDigit]
      rw [List.append_assoc, length_digits position hbars.digits hcolon,
        if_pos ⟨hbars.ne_nil, rfl⟩, pastAll_append]
      exact (parses_lengthBars w position).complete
        ⟨v, x, rfl, hbars.small, hbeats, by rw [hbars.eq]⟩ hs.toEndsNumeral

theorem parses_durationElement (position : Position) :
    ParsesElement 't' (durationElement position) := by
  have hend (l : Length) : Parses Anything
      (if l.isPositive then endOfElement ["':'"] >>= fun _ => pure (Element.duration l)
        else refuse .noDuration position)
      (fun _ w s e => w = [] ∧ l.isPositive ∧ Separates s ∧ e = .duration l) Separates := by
    refine (Parses.ite (fun _ => parses_end _ _) fun _ => parses_refuse _ _).congr ?_
    intro p w s e
    simp only [and_false, or_false]
    tauto
  have hlength := (parses_length position).before fun s (h : Separates s) =>
    ⟨.of_separates h, h.head?_ne (by decide) (by decide)⟩
  unfold durationElement
  refine ((hlength.bind_still hend).bind_advance 't').congr ?_
  intro p w s e
  constructor
  · rintro ⟨v, rfl, l, hl, hpos, hs, rfl⟩
    exact ⟨.duration hl hpos, rfl, hs⟩
  · rintro ⟨h, hhead, hs⟩
    cases h with
    | duration hl hpos => exact ⟨_, rfl, _, hl, hpos, hs, rfl⟩
    | pitch hn => exact absurd hhead (hn.head?_chars (by decide))
    | _ => cases hhead

lemma accidental_eq : accidental = eat '#' >>= fun b => if b = true then pure (some '#') else
    eat 'b' >>= fun b => if b = true then pure (some 'b') else pure none := by
  funext c
  rw [bind_apply]
  by_cases hsharp : c.peek = some '#'
  · have haccidental : accidental c = .ok (some '#', c.advance) := by
      unfold accidental
      rw [bind_apply]
      dsimp only [look]
      rw [hsharp]
      rfl
    rw [haccidental, eat_of_peek hsharp]
    rfl
  · rw [eat_of_peek_ne hsharp]
    change _ = (eat 'b' >>= _) c
    rw [bind_apply]
    by_cases hflat : c.peek = some 'b'
    · have haccidental : accidental c = .ok (some 'b', c.advance) := by
        unfold accidental
        rw [bind_apply]
        dsimp only [look]
        rw [hflat]
        rfl
      rw [haccidental, eat_of_peek hflat]
      rfl
    · have haccidental : accidental c = .ok (none, c) := by
        unfold accidental
        simp [bind_apply, look]
        rfl
      rw [haccidental, eat_of_peek_ne hflat]
      rfl

lemma parses_accidental : Parses Anything accidental
    (fun _ w _ a => w = a.toList ∧ a ∈ [none, some '#', some 'b'])
    (fun s => s.head? ≠ some '#' ∧ s.head? ≠ some 'b') := by
  rw [accidental_eq]
  refine ((parses_pure (some '#')).ite_eat ((parses_pure (some 'b')).ite_eat (parses_pure none)
    ?_).anywhere ?_).congr ?_
  · rintro p w s a ⟨rfl, -⟩ hs
    exact hs.2
  · rintro p w s a (⟨_, rfl, rfl, -⟩ | ⟨rfl, -⟩) hs
    · simp
    · exact hs.1
  · intro p w s a
    constructor
    · rintro (⟨_, rfl, rfl, rfl⟩ | ⟨_, rfl, rfl, rfl⟩ | ⟨rfl, rfl⟩) <;> simp
    · rintro ⟨rfl, ha⟩
      fin_cases ha
      · exact .inr (.inr ⟨rfl, rfl⟩)
      · exact .inl ⟨[], rfl, rfl, rfl⟩
      · exact .inr (.inl ⟨[], rfl, rfl, rfl⟩)
lemma parses_octave (letter : Char) (accidental : Option Char) (negative : Bool)
    (words : List String) : Parses Anything
    (digits >>= fun ds => if ds.isEmpty = true then expected words
      else pure (⟨letter, accidental, negative, ds⟩ : PitchName))
    (fun _ w _ n => n = ⟨letter, accidental, negative, w⟩ ∧ w ≠ [] ∧ ∀ c ∈ w, c.isDigit)
    NoDigit := by
  have hname (ds : List Char) : Parses Anything
      (if ds.isEmpty = true then expected words else pure ⟨letter, accidental, negative, ds⟩)
      (fun _ w _ (n : PitchName) => w = [] ∧ ds ≠ [] ∧ n = ⟨letter, accidental, negative, ds⟩)
      NoDigit := by
    refine (Parses.ite (fun _ => parses_expected _) fun _ => parses_pure _).congr ?_
    intro p w s n
    simp only [and_false, false_or, List.isEmpty_iff]
    tauto
  refine (parses_digits.bind_still hname).congr ?_
  intro p w s n
  constructor
  · rintro ⟨ds, ⟨rfl, hds⟩, hne, rfl⟩
    exact ⟨rfl, hne, hds⟩
  · rintro ⟨rfl, hne, hds⟩
    exact ⟨w, ⟨rfl, hds⟩, hne, rfl⟩

lemma parses_pitchName {letter : Char} (hletter : letter ∈ ['A', 'B', 'C', 'D', 'E', 'F', 'G']) :
    Parses (Opens letter Anything) (pitchName letter)
      (fun _ w _ n => w = n.chars ∧ n.letter = letter ∧ Named n) NoDigit := by
  have hdash {w s : List Char} (hne : w ≠ []) (hw : ∀ c ∈ w, c.isDigit) :
      (w ++ s).head? ≠ some '-' := (startsDigit_of_digits hne hw s).head?_ne (by decide)
  have hsign {w s : List Char} {negative : Bool} {c : Char} (hc : c ∈ ['#', 'b']) (hne : w ≠ [])
      (hw : ∀ c ∈ w, c.isDigit) :
      ((if negative = true then ['-'] else []) ++ w ++ s).head? ≠ some c := by
    cases negative with
    | true => fin_cases hc <;> simp
    | false => exact (startsDigit_of_digits hne hw s).head?_ne (by fin_cases hc <;> decide)
  unfold pitchName
  refine (Parses.bind_advance letter (parses_accidental.bind (fun accidental =>
    (parses_eat '-').bind (fun negative => parses_octave letter accidental negative _)
      (fun _ _ _ _ _ => trivial) ?_) (fun _ _ _ _ _ => trivial) ?_)).congr ?_
  · rintro p u v s negative n - ⟨rfl, hne, hv⟩ -
    exact hdash hne hv
  · rintro p u _ s accidental n - ⟨_, v, negative, rfl, rfl, rfl, hne, hv⟩ -
    exact ⟨hsign (by simp) hne hv, hsign (by simp) hne hv⟩
  · rintro p w s n
    constructor
    · rintro ⟨_, rfl, _, _, accidental, rfl, ⟨rfl, ha⟩, _, v, negative, rfl, rfl, rfl, hne, hv⟩
      exact ⟨by simp [PitchName.chars], rfl, hletter, ha, hne, hv⟩
    · rintro ⟨rfl, rfl, hn⟩
      exact ⟨_, by simp [PitchName.chars], _, _, n.accidental, rfl, ⟨rfl, hn.accidental⟩, _,
        n.digits, n.negative, rfl, rfl, rfl, hn.digits_ne_nil, hn.digits⟩

theorem parses_pitchElement {letter : Char} (hletter : letter ∈ ['A', 'B', 'C', 'D', 'E', 'F', 'G'])
    (position : Position) : ParsesElement letter (pitchElement letter position) := by
  have hname := (parses_pitchName hletter).before fun s (h : Separates s) =>
    h.noDigit
  unfold pitchElement
  refine (hname.bind_still (R := fun s n e => ∃ pitch, ReadAs n pitch ∧
    Separates s ∧ e = .pitch pitch) fun n => ?_).congr ?_
  · simp only [readAs_iff]
    by_cases hoctave : valueOf n.digits < Pitch.octaveLimit
    · rw [if_pos hoctave]
      cases hmidi : Pitch.ofMidi? (Pitch.midi n.semitones (n.signed (valueOf n.digits))) with
      | none =>
        refine (parses_refuse _ _).congr fun p w s e => ?_
        simp
      | some pitch =>
        refine (parses_end _ _).congr fun p w s e => ?_
        simp [hoctave]
    · rw [if_neg hoctave]
      refine (parses_refuse _ _).congr fun p w s e => iff_of_false id ?_
      rintro ⟨-, pitch, ⟨hlt, -⟩, -⟩
      exact hoctave hlt
  intro p w s e
  constructor
  · rintro ⟨n, ⟨rfl, rfl, hn⟩, pitch, hpitch, hs, rfl⟩
    exact ⟨.pitch hn hpitch, rfl, hs⟩
  · rintro ⟨h, hhead, hs⟩
    cases h with
    | @pitch n pitch hn hpitch =>
      exact ⟨n, ⟨rfl, Option.some.inj hhead, hn⟩, pitch, hpitch, hs, rfl⟩
    | _ =>
      obtain rfl := Option.some.inj hhead
      exact absurd hletter (by decide)

lemma DenotesBars.startsDigit {w : List Char} {b : Bars} (h : DenotesBars w b) (s : List Char) :
    StartsDigit (w ++ s) := by
  cases h with
  | single h => exact h.whole.startsDigit s
  | range hfirst _ _ => simpa using hfirst.whole.startsDigit _

/-- The copies, without the sign they begin with. -/
inductive DenotesCopy : List Char → Element → Prop
  | previous {w : List Char} {destination : Bars} (h : DenotesBars w destination) :
    DenotesCopy w (.copy destination .previous)
  | bars {w u : List Char} {destination source : Bars} (hdestination : DenotesBars w destination)
    (hsource : DenotesBars u source) :
    DenotesCopy (w ++ '=' :: u) (.copy destination (.bars source))

lemma DenotesCopy.startsDigit {w : List Char} {e : Element} (h : DenotesCopy w e)
    (s : List Char) : StartsDigit (w ++ s) := by
  cases h with
  | previous h => exact h.startsDigit s
  | bars h _ => simpa using h.startsDigit _

/-- Where a copy takes its notes from, up to the end of the element. -/
def copySource (destination : Bars) : Scan Element := do
  let source ← if ← eat '=' then
      if ← look (·.digitAt 0) then Source.bars <$> bars else expected ["bar number"]
    else pure .previous
  endOfElement ["'='", "'-'"]
  return .copy destination source

lemma parses_copySource (destination : Bars) : Parses Anything (copySource destination)
    (fun _ w s e => (∃ u, w = '=' :: u ∧ ∃ source, DenotesBars u source ∧ Separates s ∧
      e = .copy destination (.bars source)) ∨
      (w = [] ∧ Separates s ∧ e = .copy destination .previous)) Separates := by
  have hbars := (parses_bars.before fun s (h : Separates s) =>
    EndsBars.of_separates h).bind_still fun source =>
      parses_end ["'='", "'-'"] (Element.copy destination (.bars source))
  have hexpected : Parses Anything (expected ["bar number"] >>= fun source : Source =>
      endOfElement ["'='", "'-'"] >>= fun _ => pure (Element.copy destination source))
      (fun _ _ _ _ => False) Separates := parses_expected _
  unfold copySource
  simp only [pure_bind, bind_map_left]
  refine (hbars.ite_digit hexpected ?_).ite_eat (parses_end _ _).anywhere ?_
  · rintro p w s e ⟨source, h, -⟩
    exact h.startsDigit s
  · rintro p w s e ⟨rfl, -⟩ hs
    exact hs.head?_ne (by decide) (by decide)

lemma parses_copyBars : Parses Anything (bars >>= copySource)
    (fun _ w s e => DenotesCopy w e ∧ Separates s) Separates := by
  refine (parses_bars.bind parses_copySource (fun _ _ _ _ _ => trivial) ?_).congr ?_
  · rintro p _ _ s destination e - (⟨u, rfl, -⟩ | ⟨rfl, -⟩) hs
    · exact ⟨by simp [NoDigit], by simp⟩
    · exact .of_separates hs
  · intro p w s e
    constructor
    · rintro ⟨u, _, destination, rfl, h, ⟨v, rfl, source, hsource, hs, rfl⟩ | ⟨rfl, hs, rfl⟩⟩
      · exact ⟨.bars h hsource, hs⟩
      · rw [List.append_nil]
        exact ⟨.previous h, hs⟩
    · rintro ⟨h | ⟨h, hsource⟩, hs⟩
      · exact ⟨w, [], _, by simp, h, .inr ⟨rfl, hs, rfl⟩⟩
      · exact ⟨_, _, _, rfl, h, .inl ⟨_, rfl, _, hsource, hs, rfl⟩⟩

theorem parses_copyElement : ParsesElement '@' copyElement := by
  have hexpected : Parses Anything (expected ["clear", "bar number"] : Scan Element)
      (fun _ _ _ _ => False) Separates := parses_expected _
  have hcopy : copyElement = move Cursor.advance >>= fun _ => eatWord "clear".toList >>= fun b =>
      if b = true then endOfElement [] >>= fun _ => pure Element.clear
      else look (·.digitAt 0) >>= fun b => if (!b) = true then expected ["clear", "bar number"]
        else bars >>= copySource := rfl
  rw [hcopy]
  simp only [Bool.not_eq_true', ← Bool.not_eq_true, ite_not]
  refine (((parses_end _ _).ite_eatWord (parses_copyBars.ite_digit hexpected ?_)
    ?_).bind_advance '@').congr ?_
  · exact fun p w s e h => h.1.startsDigit s
  · rintro p w s e ⟨h, -⟩ - ⟨r, hr⟩
    exact (h.startsDigit s).head?_ne (c := 'c') (by decide) (hr ▸ rfl)
  · intro p w s e
    constructor
    · rintro ⟨_, rfl, ⟨_, rfl, rfl, hs, rfl⟩ | ⟨h, hs⟩⟩
      · exact ⟨.clear, rfl, hs⟩
      · cases h with
        | previous h => exact ⟨.copyPrevious h, rfl, hs⟩
        | bars h hsource => exact ⟨.copy h hsource, rfl, hs⟩
    · rintro ⟨h, hhead, hs⟩
      cases h with
      | clear => exact ⟨_, rfl, .inl ⟨[], rfl, rfl, hs, rfl⟩⟩
      | copyPrevious h => exact ⟨_, rfl, .inr ⟨.previous h, hs⟩⟩
      | copy h hsource => exact ⟨_, rfl, .inr ⟨.bars h hsource, hs⟩⟩
      | pitch hn => exact absurd hhead (hn.head?_chars (by decide))
      | _ => cases hhead

end Barline.Score
