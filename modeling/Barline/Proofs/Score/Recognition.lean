import Barline.Proofs.Score.Readers
import Barline.Proofs.Score.Spelling

/-!
# Which words are recognized

A word is read if and only if it denotes elements and ends where words are separated.
-/

namespace Barline.Score

open Number Scan Reader

lemma parses_step : Parses Anything Reader.step
    (fun _ w _ x => Numeral w x ∧ (x == 0.0) = false) EndsNumeral := by
  unfold Reader.step
  refine (Parses.bind_here fun position => (parses_number _).bind_still fun x =>
    parses_unless (P := (x == 0.0) = true) _ position x).congr ?_
  intro p w s x
  constructor
  · rintro ⟨x, hx, hzero, rfl⟩
    exact ⟨hx, by simpa using hzero⟩
  · rintro ⟨hx, hzero⟩
    exact ⟨x, hx, by simp [hzero], rfl⟩

/-- A beat does not go on here. -/
structure EndsBeat (s : List Char) : Prop extends EndsNumeral s where
  noSeries : s.head? ≠ some 'x'
  noStep : s.head? ≠ some '@'

lemma EndsNumeral.of_mem {c : Char} (hc : c ∈ ['x', ',']) (s : List Char) :
    EndsNumeral (c :: s) := by
  refine ⟨⟨?_, ?_⟩, ?_, ?_⟩
  · fin_cases hc <;> simp [NoDigit]
  · fin_cases hc <;> simp
  · intro h
    obtain rfl : c = '/' := Option.some.inj h.head?
    exact absurd hc (by decide)
  · fin_cases hc <;> simp

lemma EndsBeat.comma (s : List Char) : EndsBeat (',' :: s) where
  toEndsNumeral := .of_mem (by simp) s
  noSeries := by simp
  noStep := by simp

lemma EndsBeat.of_separates {s : List Char} (hs : Separates s) : EndsBeat s where
  toEndsNumeral := .of_separates hs
  noSeries := hs.head?_ne (by decide) (by decide)
  noStep := hs.head?_ne (by decide) (by decide)

/-- What may stand behind the count of a series. -/
inductive AfterTimes (first : Float) (times : UInt32) : List Char → Beat → Prop
  | nothing : AfterTimes first times [] (.series first times none)
  | step {w : List Char} {x : Float} (h : Numeral w x) (hzero : (x == 0.0) = false) :
    AfterTimes first times ('@' :: w) (.series first times (some x))

/-- What is read behind the count of a series. -/
def afterTimes (first : Float) (times : UInt32) : Scan Beat := do
  if ← eat '@' then return .series first times (some (← Reader.step))
  else return .series first times none

lemma parses_afterTimes (first : Float) (times : UInt32) : Parses Anything
    (afterTimes first times) (fun _ w _ b => AfterTimes first times w b) EndsBeat := by
  have hstep := (parses_step.bind_still fun x =>
    parses_pure (Beat.series first times (some x))).before
      fun s (h : EndsBeat s) => h.toEndsNumeral
  refine (hstep.ite_eat (parses_pure _) ?_).congr ?_
  · rintro p w s b ⟨rfl, -⟩ hs
    exact hs.noStep
  · intro p w s b
    constructor
    · rintro (⟨v, rfl, x, ⟨hx, hzero⟩, rfl⟩ | ⟨rfl, rfl⟩)
      · exact .step hx hzero
      · exact .nothing
    · rintro (_ | ⟨hx, hzero⟩)
      · exact .inr ⟨rfl, rfl⟩
      · exact .inl ⟨_, rfl, _, ⟨hx, hzero⟩, rfl⟩

/-- What may stand behind the first beat of a series, or behind a single beat. -/
inductive AfterFirst (first : Float) : List Char → Beat → Prop
  | nothing : AfterFirst first [] (.single first)
  | series {v w : List Char} {times : UInt32} {b : Beat} (htimes : Whole v times)
    (hne : times ≠ 0) (h : AfterTimes first times w b) : AfterFirst first ('x' :: (v ++ w)) b

/-- What is read behind the first beat of a series, or behind a single beat. -/
def afterFirst (first : Float) : Scan Beat := do
  if ← eat 'x' then
    let position ← here
    let times ← integer "repeat count"
    if times = 0 then refuse .noRepeats position else afterTimes first times
  else return .single first

lemma parses_afterFirst (first : Float) :
    Parses Anything (afterFirst first) (fun _ w _ b => AfterFirst first w b) EndsBeat := by
  refine ((Parses.bind_here fun position => (parses_integer _).bind (fun times =>
    (Parses.ite (fun _ => parses_refuse _ _) fun _ => parses_afterTimes first times))
    (fun _ _ _ _ _ => trivial) ?_).ite_eat (parses_pure _) ?_).congr ?_
  · rintro p _ w s times b - (⟨-, ⟨⟩⟩ | ⟨-, h⟩) hs
    cases h with
    | nothing => exact hs.noDigit
    | step hx hzero => simp [NoDigit]
  · rintro p w s b ⟨rfl, -⟩ hs
    exact hs.noSeries
  · intro p w s b
    constructor
    · rintro (⟨_, rfl, v, w, times, rfl, htimes, ⟨-, ⟨⟩⟩ | ⟨hne, h⟩⟩ | ⟨rfl, rfl⟩)
      · exact .series htimes hne h
      · exact .nothing
    · rintro (_ | ⟨htimes, hne, h⟩)
      · exact .inr ⟨rfl, rfl⟩
      · exact .inl ⟨_, rfl, _, _, _, rfl, htimes, .inr ⟨hne, h⟩⟩

theorem parses_beat : Parses Anything beat (fun _ w _ b => DenotesBeat w b) EndsBeat := by
  have hbeat : beat = here >>= fun position => number "beat" >>= fun first =>
      if first < 1.0 then refuse (.beatBeforeBar first) position else afterFirst first := rfl
  rw [hbeat]
  refine (Parses.bind_here fun position => (parses_number _).bind (fun first =>
    Parses.ite (fun _ => parses_refuse _ position) fun _ => parses_afterFirst first)
    (fun _ _ _ _ _ => trivial) ?_).congr ?_
  · rintro p _ w s first b - (⟨-, ⟨⟩⟩ | ⟨-, h⟩) hs
    cases h with
    | nothing => exact hs.toEndsNumeral
    | series htimes hne h => exact .of_mem (by simp) _
  · intro p w s b
    constructor
    · rintro ⟨w, _, first, rfl, hfirst, ⟨-, ⟨⟩⟩ | ⟨hbar, h⟩⟩
      cases h with
      | nothing =>
        rw [List.append_nil]
        exact .single hfirst hbar
      | series htimes hne h =>
        cases h with
        | nothing =>
          rw [List.append_nil]
          exact .series hfirst hbar htimes hne
        | step hstep hzero => exact .seriesStep hfirst hbar htimes hne hstep hzero
    · rintro (⟨hfirst, hbar⟩ | ⟨hfirst, hbar, htimes, hne⟩ |
        ⟨hfirst, hbar, htimes, hne, hstep, hzero⟩)
      · exact ⟨_, [], _, by simp, hfirst, .inr ⟨hbar, .nothing⟩⟩
      · exact ⟨_, _, _, by simp, hfirst, .inr ⟨hbar, .series htimes hne .nothing⟩⟩
      · exact ⟨_, _, _, rfl, hfirst, .inr ⟨hbar, .series htimes hne (.step hstep hzero)⟩⟩

/-- Where a time position may begin: at its bar or at the bar line. -/
def BeginsPosition (t : List Char) : Prop := StartsDigit t ∨ Opens '|' Anything t

lemma parses_positionBar : Parses BeginsPosition positionBar
    (fun _ w _ bar => ∃ v, w = v ++ ['|'] ∧ DenotesPlace v bar) Anything := by
  have hbar : Parses Anything (barNumber >>= fun bar => eat '|' >>= fun b => if b = true then
      pure (some bar) else expected ["'|'", "digit"])
      (fun _ w _ bar => ∃ v n, w = v ++ ['|'] ∧ DenotesBar v n ∧ bar = some n) Anything := by
    refine (parses_barNumber.bind (fun bar => (parses_pure (some bar)).ite_eat
      (parses_expected _) (fun _ _ _ _ h => h.elim)) (fun _ _ _ _ _ => trivial) ?_).congr ?_
    · rintro p _ _ s n bar - (⟨_, rfl, -⟩ | h) -
      · simp [NoDigit]
      · exact h.elim
    · intro p w s bar
      constructor
      · rintro ⟨v, _, n, rfl, hn, ⟨_, rfl, rfl, rfl⟩ | h⟩
        · exact ⟨v, n, rfl, hn, rfl⟩
        · exact h.elim
      · rintro ⟨v, n, rfl, hn, rfl⟩
        exact ⟨v, ['|'], n, rfl, hn, .inl ⟨[], rfl, rfl, rfl⟩⟩
  have hnone : Parses (Opens '|' Anything) (move Cursor.advance >>= fun _ => pure none)
      (fun _ w _ (bar : Option UInt32) => ∃ v, w = '|' :: v ∧ v = [] ∧ bar = none) Anything :=
    (parses_pure none).bind_advance '|'
  unfold positionBar
  refine ((hbar.anywhere.ite_look _ digitAt_iff (hnone.weaken ?_ fun _ h => h) ?_ ?_).congr ?_)
  · rintro t ⟨hdigit | hopens, hne⟩
    · exact absurd hdigit hne
    · exact hopens
  · rintro p w s bar ⟨v, n, rfl, hn, rfl⟩ -
    simpa using hn.whole.startsDigit ('|' :: s)
  · rintro p w s bar ⟨_, rfl, rfl, rfl⟩ - hdigit
    exact hdigit.head?_ne (c := '|') (by decide) rfl
  · intro p w s bar
    constructor
    · rintro (⟨v, n, rfl, hn, rfl⟩ | ⟨_, rfl, rfl, rfl⟩)
      · exact ⟨v, rfl, .some hn⟩
      · exact ⟨[], rfl, .none⟩
    · rintro ⟨v, rfl, _ | hn⟩
      · exact .inr ⟨[], rfl, rfl, rfl⟩
      · exact .inl ⟨v, _, rfl, hn, rfl⟩

lemma parses_locatedBeat (bar : Option UInt32) : Parses Anything (locatedBeat bar)
    (fun p w _ e => ∃ b, DenotesBeat w b ∧ e = ⟨.position bar b, p⟩) EndsBeat := by
  unfold locatedBeat
  exact Parses.bind_here fun position => parses_beat.bind_still fun b => parses_pure _

lemma parses_nextBeat (bar : Option UInt32) : Parses Anything (nextBeat bar)
    (OneOrLast (fun p w _ e => ∃ v b, w = ',' :: v ∧ DenotesBeat v b ∧
      e = ⟨.position bar b, p.past ','⟩) (fun _ w s => w = [] ∧ s.head? ≠ some ',')) EndsBeat := by
  unfold nextBeat
  refine (((parses_locatedBeat bar).bind_still fun e => parses_pure (some e)).ite_eat
    (parses_pure_at _) ?_).congr ?_
  · rintro p w s o ⟨rfl, -, hcomma⟩ -
    exact hcomma
  · intro p w s o
    constructor
    · rintro (⟨v, rfl, _, ⟨b, hb, rfl⟩, rfl⟩ | ⟨rfl, rfl, hcomma⟩)
      · exact ⟨by simp, v, b, rfl, hb, rfl⟩
      · exact ⟨rfl, hcomma⟩
    · cases o with
      | none =>
        rintro ⟨rfl, hcomma⟩
        exact .inr ⟨rfl, rfl, hcomma⟩
      | some e =>
        rintro ⟨-, v, b, rfl, hb, rfl⟩
        exact .inl ⟨v, rfl, _, ⟨b, hb, rfl⟩, rfl⟩

/-- The beats behind the first. -/
def MoreBeats (bar : Option UInt32) (s : List Char) : Position → List Char → Elements → Prop :=
  Many (fun p w _ e => ∃ v b, w = ',' :: v ∧ DenotesBeat v b ∧ e = ⟨.position bar b, p.past ','⟩)
    (fun _ w s => w = [] ∧ s.head? ≠ some ',') s

lemma MoreBeats.endsBeat {bar : Option UInt32} {p : Position} {w s : List Char} {es : Elements}
    (h : MoreBeats bar s p w es) (hs : EndsBeat s) : EndsBeat (w ++ s) := by
  cases h with
  | last h => exact h.1 ▸ hs
  | more h hne hv =>
    obtain ⟨v, b, rfl, -⟩ := h
    exact .comma _

lemma parses_moreBeats (bar : Option UInt32) : Parses Anything
    (look manyRounds >>= fun n => many (nextBeat bar) n)
    (fun p w s es => MoreBeats bar s p w es) EndsBeat :=
  (parses_nextBeat bar).many (fun _ hs => hs)
    fun _ _ v s _ es _ (hv : MoreBeats bar s _ v es) hs => hv.endsBeat hs

lemma MoreBeats.denotesBeats {bar : Option UInt32} {p q : Position} {u v s : List Char}
    {b : Beat} {es : Elements} (h : MoreBeats bar s q v es) (hu : DenotesBeat u b)
    (hq : q = p.pastAll u) : DenotesBeats bar p (u ++ v) (⟨.position bar b, p⟩ :: es) := by
  induction h generalizing p u b with
  | last h =>
    rw [h.1, List.append_nil]
    exact .last hu
  | more h hne hv ih =>
    obtain ⟨w, b', rfl, hw, rfl⟩ := h
    subst hq
    have hplace : (p.pastAll u).past ',' = p.pastAll (u ++ [',']) := by simp [Position.pastAll]
    rw [hplace]
    exact .more hu (ih hw (by simp [Position.pastAll]))

lemma denotesBeats_iff {bar : Option UInt32} {p : Position} {w s : List Char} {es : Elements}
    (hs : s.head? ≠ some ',') : DenotesBeats bar p w es ↔ ∃ u v b fs, w = u ++ v ∧
      DenotesBeat u b ∧ MoreBeats bar s (p.pastAll u) v fs ∧
      es = ⟨.position bar b, p⟩ :: fs := by
  constructor
  · intro h
    induction h with
    | @last p w b hb => exact ⟨w, [], b, [], by simp, hb, .last ⟨rfl, hs⟩, rfl⟩
    | @more p w v b es hb hes ih =>
      obtain ⟨u, v, b', fs, rfl, hu, hmore, rfl⟩ := ih
      refine ⟨w, (',' :: u) ++ v, b, _, rfl, hb, .more ⟨u, b', rfl, hu, ?_⟩ (by simp) ?_, rfl⟩
      · rw [pastAll_append]
        rfl
      · rw [pastAll_append] at hmore
        exact hmore
  · rintro ⟨u, v, b, fs, rfl, hu, hmore, rfl⟩
    exact hmore.denotesBeats hu rfl

/-- A list of beats, up to where the word ends. -/
def beats (bar : Option UInt32) : Scan Elements := do
  let first ← locatedBeat bar
  let others ← many (nextBeat bar) (← look manyRounds)
  endOfElement ["','", "'x'"]
  return first :: others

lemma parses_beats (bar : Option UInt32) : Parses Anything (beats bar)
    (fun p w s es => DenotesBeats bar p w es ∧ Separates s) Separates := by
  have hmore (first : Located Element) := ((parses_moreBeats bar).before
    fun s (h : Separates s) => EndsBeat.of_separates h).bind_still fun others =>
      parses_end ["','", "'x'"] (first :: others)
  simp only [bind_assoc] at hmore
  refine ((parses_locatedBeat bar).bind hmore (fun _ _ _ _ _ => trivial) ?_).congr ?_
  · rintro p _ w s e es - ⟨fs, hfs, -⟩ hs
    exact hfs.endsBeat (.of_separates hs)
  · intro p w s es
    constructor
    · rintro ⟨u, v, _, rfl, ⟨b, hb, rfl⟩, fs, hfs, hs, rfl⟩
      exact ⟨hfs.denotesBeats hb rfl, hs⟩
    · rintro ⟨h, hs⟩
      obtain ⟨u, v, b, fs, rfl, hb, hfs, rfl⟩ :=
        (denotesBeats_iff (hs.head?_ne (by decide) (by decide))).mp h
      exact ⟨u, v, _, rfl, ⟨b, hb, rfl⟩, fs, hfs, hs, rfl⟩

theorem parses_positionElements : Parses BeginsPosition positionElements
    (fun p w s es => (∃ u v bar, w = u ++ '|' :: v ∧ DenotesPlace u bar ∧
      DenotesBeats bar (p.pastAll (u ++ ['|'])) v es) ∧ Separates s) Separates := by
  have hbeats : positionElements = positionBar >>= beats := rfl
  rw [hbeats]
  refine (parses_positionBar.bind parses_beats (fun _ _ _ _ _ => trivial)
    (fun _ _ _ _ _ _ _ _ _ => trivial)).congr ?_
  intro p w s es
  constructor
  · rintro ⟨_, v, bar, rfl, ⟨u, rfl, hbar⟩, hes, hs⟩
    exact ⟨⟨u, v, bar, by simp, hbar, hes⟩, hs⟩
  · rintro ⟨⟨u, v, bar, rfl, hbar, hes⟩, hs⟩
    exact ⟨_, v, bar, by simp, ⟨u, rfl, hbar⟩, hes, hs⟩

/-- The elements that begin with a character are read by one scan. -/
structure ReadBy (c : Char) (x : Position → Scan Element) : Prop where
  parses : ∀ p, ParsesElement c (x p)
  word : ∀ t p, word ⟨c :: t, p⟩ = one (x p) p ⟨c :: t, p⟩

lemma readBy_copy : ReadBy '@' fun _ => copyElement := ⟨fun _ => parses_copyElement, fun _ _ => rfl⟩

lemma readBy_velocity : ReadBy 'v' velocityElement := ⟨parses_velocityElement, word_velocity⟩

lemma readBy_duration : ReadBy 't' durationElement := ⟨parses_durationElement, word_duration⟩

lemma readBy_probability : ReadBy 'p' probabilityElement :=
  ⟨parses_probabilityElement, word_probability⟩

lemma readBy_pitch {c : Char} (hc : c ∈ ['A', 'B', 'C', 'D', 'E', 'F', 'G']) :
    ReadBy c (pitchElement c) := ⟨parses_pitchElement hc, word_pitch hc⟩

/-- The first character of an element tells which scan reads it. -/
lemma Denotes.readBy {w : List Char} {e : Element} (h : Denotes ReadAs w e) :
    ∃ c x, w.head? = some c ∧ ReadBy c x := by
  cases h with
  | pitch hn => exact ⟨_, _, rfl, readBy_pitch hn.letter⟩
  | velocity _ => exact ⟨_, _, rfl, readBy_velocity⟩
  | velocityRange _ _ _ => exact ⟨_, _, rfl, readBy_velocity⟩
  | duration _ _ => exact ⟨_, _, rfl, readBy_duration⟩
  | probability _ _ _ => exact ⟨_, _, rfl, readBy_probability⟩
  | clear => exact ⟨_, _, rfl, readBy_copy⟩
  | copyPrevious _ => exact ⟨_, _, rfl, readBy_copy⟩
  | copy _ _ => exact ⟨_, _, rfl, readBy_copy⟩

lemma letter_cases {c : Char} (hlow : 'A' ≤ c) (hhigh : c ≤ 'G') :
    c ∈ ['A', 'B', 'C', 'D', 'E', 'F', 'G'] := by
  have h1 : 65 ≤ c.toNat := hlow
  have h2 : c.toNat ≤ 71 := hhigh
  rw [← Char.ofNat_toNat c]
  interval_cases c.toNat <;> decide

/-- A word begins an element or a time position, or it is refused. -/
lemma word_cases (c : Char) : (∃ x, ReadBy c x) ∨ (c = '|' ∨ c.isDigit) ∨
    ∀ t p, ∃ e, word ⟨c :: t, p⟩ = .error e := by
  by_cases hcopy : c = '@'
  · exact .inl ⟨_, hcopy ▸ readBy_copy⟩
  by_cases hprobability : c = 'p'
  · exact .inl ⟨_, hprobability ▸ readBy_probability⟩
  by_cases hvelocity : c = 'v'
  · exact .inl ⟨_, hvelocity ▸ readBy_velocity⟩
  by_cases hduration : c = 't'
  · exact .inl ⟨_, hduration ▸ readBy_duration⟩
  by_cases hposition : c = '|' ∨ c.isDigit
  · exact .inr (.inl hposition)
  by_cases hpitch : 'A' ≤ c ∧ c ≤ 'G'
  · exact .inl ⟨_, readBy_pitch (letter_cases hpitch.1 hpitch.2)⟩
  -- every pattern but the last is excluded by now
  refine .inr (.inr fun t p => ?_)
  rw [not_or] at hposition
  unfold word
  simp only [bind_apply, here, look, Cursor.peek, List.head?_cons]
  simp [hposition, hpitch, expected]

lemma BeginsPosition.word {t : List Char} (h : BeginsPosition t) (p : Position) :
    word ⟨t, p⟩ = positionElements ⟨t, p⟩ := by
  obtain ⟨c, t, rfl, hc⟩ | ⟨t, rfl, -⟩ := h
  · exact word_position (.inr hc) t p
  · exact word_position (.inl rfl) t p

lemma DenotesPlace.begins {w : List Char} {bar : Option UInt32} (h : DenotesPlace w bar)
    (s : List Char) : BeginsPosition (w ++ '|' :: s) := by
  cases h with
  | none => exact .inr ⟨s, rfl, trivial⟩
  | some h => exact .inl (h.whole.startsDigit _)

/-- **Words.** A word is read as the elements it denotes, where a word may end behind it. -/
theorem parses_word : Parses Anything word
    (fun p w s es => DenotesWord ReadAs p w es ∧ Separates s) Separates where
  sound {t p es c} _ h := by
    cases t with
    | nil => cases h
    | cons d t =>
      obtain ⟨x, hx⟩ | hposition | herror := word_cases d
      · rw [hx.word] at h
        obtain ⟨w, s, ht, hc, e, ⟨he, -, hs⟩, rfl⟩ := ((hx.parses p).bind_still fun e =>
          parses_pure [(⟨e, p⟩ : Located Element)]).sound ⟨t, rfl, trivial⟩ h
        exact ⟨w, s, ht, hc, .element he, hs⟩
      · rw [word_position hposition] at h
        have hbegins : BeginsPosition (d :: t) :=
          hposition.symm.imp (fun hd => ⟨d, t, rfl, hd⟩) fun hd => ⟨t, by rw [hd], trivial⟩
        obtain ⟨w, s, ht, hc, ⟨u, v, bar, rfl, hbar, hes⟩, hs⟩ :=
          parses_positionElements.sound hbegins h
        exact ⟨_, s, ht, hc, .positions hbar hes, hs⟩
      · obtain ⟨e, he⟩ := herror t p
        rw [he] at h
        cases h
  complete {p w s es} h hs := by
    obtain ⟨hw, -⟩ := h
    cases hw with
    | @element _ e he =>
      obtain ⟨c, x, hhead, hx⟩ := he.readBy
      obtain ⟨w, rfl⟩ := List.head?_eq_some_iff.mp hhead
      rw [List.cons_append, hx.word]
      exact ((hx.parses p).bind_still fun e => parses_pure [(⟨e, p⟩ : Located Element)]).complete
        ⟨e, ⟨he, hhead, hs⟩, rfl⟩ hs
    | positions hbar hes =>
      rw [BeginsPosition.word (by simpa using hbar.begins _)]
      exact parses_positionElements.complete ⟨⟨_, _, _, rfl, hbar, hes⟩, hs⟩ hs

end Barline.Score
