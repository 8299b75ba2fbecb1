import Barline.Proofs.Text.Taking
import Barline.Score.Reader

/-!
# Words of a score

What the reader makes of the words that an engraver writes: pitches, velocities, durations,
probabilities and places, each with a blank or the end of the text behind it.
-/

namespace Barline.Score

open Number Scan Reader

variable {s : List Char}

lemma takes_endOfElement (continuations : List String) (hs : Ends s) :
    Takes (endOfElement continuations) [] s fun _ => True := by
  unfold endOfElement
  refine (takes_look hs.atSeparator).bind_nil ?_
  rintro _ rfl
  exact takes_pure trivial

theorem takes_number (what : String) {d : Decimal} (hd : d.Proper) (hs : Ends s) :
    Takes (number what) d.text s (· = d.value) := by
  have hne : d.isEmpty = false := by
    simp [Decimal.isEmpty, hd.whole_ne_nil]
  unfold number
  refine takes_here.bind_nil fun position _ => ?_
  rw [← List.append_nil d.text]
  refine (takes_decimal hd hs.noDigit (hs.head_ne (by decide))).bind ?_
  rintro _ rfl
  rw [hne]
  refine (takes_look (digitAfter_eq_false (hs.head_ne (by decide)))).bind_nil ?_
  rintro _ rfl
  refine (takes_look (digitAfter_eq_false (hs.head_ne (by decide)))).bind_nil ?_
  rintro _ rfl
  exact takes_pure rfl

/-- A number begins with a digit or a point. -/
theorem refuses_number (what : String) {c : Char} (hdigit : c.isDigit = false) (hdot : c ≠ '.')
    (t : List Char) : Refuses (number what) (c :: t) := by
  unfold number
  refine takes_here.bind_nil_refuses fun position _ => ?_
  have hdecimal : Takes decimal [] (c :: t) (· = ⟨[], []⟩) := by
    unfold decimal
    have hnone : Takes digits [] (c :: t) (· = []) := takes_digits (by simp) (by
      intro x hx
      obtain rfl : c = x := by simpa using hx
      exact hdigit)
    refine hnone.bind_nil ?_
    rintro _ rfl
    refine (takes_look (digitAfter_eq_false (by simpa using hdot))).bind_nil ?_
    rintro _ rfl
    exact takes_pure rfl
  refine hdecimal.bind_nil_refuses ?_
  rintro _ rfl
  exact refuses_expected _

/-- The number that a whole text is read as. -/
def amount? (w : List Char) : Option Float :=
  match number "number" (.start w) with
  | .ok (x, c) => if c.atEnd then some x else none
  | .error _ => none

lemma amount?_text {d : Decimal} (hd : d.Proper) : amount? d.text = some d.value := by
  have hnil : Ends [] := by simp [Ends]
  obtain ⟨x, p, hx, rfl⟩ := takes_number "number" hd hnil .start
  rw [List.append_nil] at hx
  unfold amount?
  rw [Cursor.start, hx]
  rfl

lemma no_decimal_of_mem {c : Char} (hc : c ∈ ['-', 'i', 'N']) :
    c.isDigit = false ∧ c ≠ '.' ∧ c ≠ ':' := by
  fin_cases hc <;> decide

lemma amount?_of_sign {c : Char} (hc : c ∈ ['-', 'i', 'N']) (t : List Char) :
    amount? (c :: t) = none := by
  obtain ⟨hdigit, hpoint, -⟩ := no_decimal_of_mem hc
  obtain ⟨e, he⟩ := refuses_number "number" hdigit hpoint t .start
  unfold amount?
  rw [Cursor.start, he]

theorem takes_integer (what : String) {n : ℕ} (hn : n < bound32) (hs : NoDigit s) :
    Takes (integer what) (Nat.toDigits 10 n) s (· = UInt32.ofNat n) := by
  have hne : (Nat.toDigits 10 n).isEmpty = false := by simp [Nat.toDigits_ne_nil]
  unfold integer
  refine takes_here.bind_nil fun position _ => ?_
  rw [← List.append_nil (Nat.toDigits 10 n)]
  refine (takes_digits (isDigit_toDigits n) hs).bind ?_
  rintro _ rfl
  rw [hne, valueOf_toDigits]
  simp only [Bool.false_eq_true, if_false, if_pos hn]
  exact takes_pure rfl

theorem takes_velocityValue {v : UInt8} (hv : v.toNat ≤ 127) (hs : NoDigit s) :
    Takes velocityValue (Nat.toDigits 10 v.toNat) s (· = v) := by
  have hle : UInt32.ofNat v.toNat ≤ 127 := by
    rw [UInt32.le_iff_toNat_le]
    simpa using hv
  have hback : (UInt32.ofNat v.toNat).toUInt8 = v := by simp
  unfold velocityValue
  refine takes_here.bind_nil fun position _ => ?_
  rw [← List.append_nil (Nat.toDigits 10 v.toNat)]
  refine (takes_integer _ (v.toNat_lt.trans (by decide)) hs).bind ?_
  rintro _ rfl
  rw [if_pos hle, hback]
  exact takes_pure rfl

/-- The element that is written for a range of velocities, or for one that is no range. -/
def velocityMark (low high : UInt8) : Element :=
  if low < high then .velocityRange low high else .velocity low

theorem takes_velocityElement {low high : UInt8} (hl : low.toNat ≤ 127) (hh : high.toNat ≤ 127)
    (hs : Ends s) (position : Position) :
    Takes (velocityElement position)
      ('v' :: Nat.toDigits 10 low.toNat ++
        if low < high then '-' :: Nat.toDigits 10 high.toNat else [])
      s (· = velocityMark low high) := by
  unfold velocityElement
  rw [List.cons_append, ← List.singleton_append]
  refine (takes_advance 'v').bind fun _ _ => ?_
  unfold velocityMark
  by_cases hlt : low < high
  · have hdash : NoDigit ('-' :: Nat.toDigits 10 high.toNat ++ s) := by
      intro x hx
      obtain rfl : '-' = x := by simpa using hx
      decide
    rw [if_pos hlt, if_pos hlt]
    refine (takes_velocityValue hl hdash).bind fun l h => ?_
    obtain rfl : low = l := h.symm
    refine Takes.bind (w := ['-']) (v := Nat.toDigits 10 high.toNat) (takes_eat '-') ?_
    rintro _ rfl
    rw [← List.append_nil (Nat.toDigits 10 high.toNat)]
    refine (takes_velocityValue hh (by simpa using hs.noDigit)).bind fun u h => ?_
    obtain rfl : high = u := h.symm
    rw [if_neg (UInt8.not_lt.mpr (UInt8.le_of_lt hlt))]
    exact (takes_pure rfl).bind_nil fun _ h =>
      (takes_endOfElement _ hs).bind_nil fun _ _ => takes_pure h.symm
  · rw [if_neg hlt, if_neg hlt]
    refine (takes_velocityValue hl (by simpa using hs.noDigit)).bind fun l h => ?_
    obtain rfl : low = l := h.symm
    refine (takes_not_eat (hs.head_ne (by decide))).bind_nil ?_
    rintro _ rfl
    exact (takes_pure rfl).bind_nil fun _ h =>
      (takes_endOfElement _ hs).bind_nil fun _ _ => takes_pure h.symm

lemma length_apply (position : Position) (c : Cursor) (h : c.pastDigits.peek ≠ some ':') :
    length position c = (do return Length.beats (← number "duration") : Scan Length) c := by
  have hcolon : (c.pastDigits.peek == some ':') = false := by simpa using h
  unfold length
  simp only [bind_apply, get, getThe, MonadStateOf.get, StateT.get, digits, look, hcolon,
    Bool.and_false, Bool.false_eq_true, if_false, set, StateT.set, pure, Except.pure]

lemma takes_length {w : List Char} {P : Length → Prop} (position : Position)
    (hcolon : ∀ p, (Cursor.pastDigits ⟨w ++ s, p⟩).peek ≠ some ':')
    (h : Takes (do return Length.beats (← number "duration") : Scan Length) w s P) :
    Takes (length position) w s P := by
  intro p
  rw [length_apply position _ (hcolon p)]
  exact h p

lemma refuses_length {t : List Char} (position : Position)
    (hcolon : ∀ p, (Cursor.pastDigits ⟨t, p⟩).peek ≠ some ':') (h : Refuses (number "duration") t) :
    Refuses (length position) t := by
  intro p
  rw [length_apply position _ (hcolon p)]
  exact h.bind _ p

lemma peek_pastDigits {ds : List Char} (hd : ∀ c ∈ ds, c.isDigit) (hs : NoDigit s) (p : Position) :
    (Cursor.pastDigits ⟨ds ++ s, p⟩).peek = s.head? := by
  have hdigits : Cursor.digits ⟨ds ++ s, p⟩ = ds := takeWhile_digits hd hs
  simp [Cursor.pastDigits, hdigits, Cursor.advanceBy, Cursor.peek]

lemma noDigit_cons {c : Char} (hc : c.isDigit = false) (t : List Char) : NoDigit (c :: t) := by
  intro x hx
  obtain rfl : c = x := by simpa using hx
  exact hc

theorem takes_durationElement {d : Decimal} (hd : d.Proper) (hpos : 0.0 < d.value) (hs : Ends s)
    (position : Position) :
    Takes (durationElement position) ('t' :: d.text) s (· = .duration (.beats d.value)) := by
  have hcolon (p : Position) : (Cursor.pastDigits ⟨d.text ++ s, p⟩).peek ≠ some ':' := by
    unfold Decimal.text
    split_ifs
    · rw [List.append_nil, peek_pastDigits hd.whole_digits hs.noDigit]
      exact hs.head_ne (by decide)
    · have hpoint : NoDigit ('.' :: (d.fraction ++ s)) := noDigit_cons (by decide) _
      rw [List.append_assoc, List.cons_append, peek_pastDigits hd.whole_digits hpoint]
      simp
  unfold durationElement
  refine Takes.bind (w := ['t']) (v := d.text) (takes_advance 't') fun _ _ => ?_
  rw [← List.append_nil d.text]
  refine Takes.bind (P := (· = .beats d.value)) ?_ ?_
  · refine takes_length position (by simpa using hcolon) ?_
    rw [← List.append_nil d.text]
    refine (takes_number _ hd (by simpa using hs)).bind ?_
    rintro _ rfl
    exact takes_pure rfl
  · rintro _ rfl
    have hlasts : Length.isPositive (.beats d.value) = true := decide_eq_true hpos
    rw [if_pos hlasts]
    exact (takes_endOfElement _ hs).bind_nil fun _ _ => takes_pure rfl

theorem refuses_durationElement {c : Char} (hc : c ∈ ['-', 'i', 'N']) (t : List Char)
    (position : Position) : Refuses (durationElement position) ('t' :: c :: t) := by
  obtain ⟨hdigit, hpoint, hcolon⟩ := no_decimal_of_mem hc
  unfold durationElement
  refine (takes_advance 't').bind_refuses (w := ['t']) fun _ _ => ?_
  refine (refuses_length position (fun p => ?_) (refuses_number _ hdigit hpoint t)).bind _
  have h : (Cursor.pastDigits ⟨[] ++ c :: t, p⟩).peek = some c :=
    peek_pastDigits (by simp) (noDigit_cons hdigit t) p
  rw [List.nil_append] at h
  rw [h]
  simpa using hcolon

theorem takes_probabilityElement {d : Decimal} (hd : d.Proper) (h0 : 0.0 ≤ d.value)
    (h1 : d.value ≤ 1.0) (hs : Ends s) (position : Position) :
    Takes (probabilityElement position) ('p' :: d.text) s (· = .probability d.value) := by
  unfold probabilityElement
  refine Takes.bind (w := ['p']) (v := d.text) (takes_advance 'p') fun _ _ => ?_
  rw [← List.append_nil d.text]
  refine (takes_number _ hd (by simpa using hs)).bind ?_
  rintro _ rfl
  rw [if_pos ⟨h0, h1⟩]
  exact (takes_endOfElement _ hs).bind_nil fun _ _ => takes_pure rfl

theorem refuses_probabilityElement {c : Char} (hc : c ∈ ['-', 'i', 'N']) (t : List Char)
    (position : Position) : Refuses (probabilityElement position) ('p' :: c :: t) := by
  obtain ⟨hdigit, hpoint, -⟩ := no_decimal_of_mem hc
  unfold probabilityElement
  refine (takes_advance 'p').bind_refuses (w := ['p']) fun _ _ => ?_
  exact (refuses_number _ hdigit hpoint t).bind _

theorem takes_beat {d : Decimal} (hd : d.Proper) (hbeat : ¬ d.value < 1.0) (hs : Ends s) :
    Takes beat d.text s (· = .single d.value) := by
  unfold beat
  refine takes_here.bind_nil fun position _ => ?_
  rw [← List.append_nil d.text]
  refine (takes_number _ hd (by simpa using hs)).bind ?_
  rintro _ rfl
  rw [if_neg hbeat]
  refine (takes_not_eat (hs.head_ne (by decide))).bind_nil ?_
  rintro _ rfl
  exact takes_pure rfl

theorem refuses_beat_early {d : Decimal} (hd : d.Proper) (hbeat : d.value < 1.0) (hs : Ends s) :
    Refuses beat (d.text ++ s) := by
  unfold beat
  refine takes_here.bind_nil_refuses fun position _ => ?_
  refine (takes_number _ hd hs).bind_refuses ?_
  rintro _ rfl
  rw [if_pos hbeat]
  exact refuses_refuse _ _

theorem refuses_beat {c : Char} (hc : c ∈ ['-', 'i', 'N']) (t : List Char) :
    Refuses beat (c :: t) := by
  obtain ⟨hdigit, hpoint, -⟩ := no_decimal_of_mem hc
  unfold beat
  refine takes_here.bind_nil_refuses fun position _ => ?_
  exact (refuses_number _ hdigit hpoint t).bind _

/-- The bar in front of a place, as it is written. -/
def barText : Option UInt32 → List Char
  | some bar => Nat.toDigits 10 bar.toNat
  | none => []

theorem takes_positionBar {bar : Option UInt32} (hbar : bar ≠ some 0) :
    Takes positionBar (barText bar ++ ['|']) s (· = bar) := by
  unfold positionBar
  cases bar with
  | none =>
    refine (takes_look (a := false) fun p => rfl).bind_nil ?_
    rintro _ rfl
    refine Takes.bind (w := ['|']) (v := []) (takes_advance '|') fun _ _ => ?_
    exact takes_pure rfl
  | some bar =>
    have hdigit (p : Position) :
        Cursor.digitAt ⟨Nat.toDigits 10 bar.toNat ++ ['|'] ++ s, p⟩ 0 = true := by
      obtain ⟨c, w, hw⟩ :=
        List.exists_cons_of_ne_nil (Nat.toDigits_ne_nil (n := bar.toNat) (b := 10))
      have hc : c.isDigit := isDigit_toDigits bar.toNat c (by simp [hw])
      simp [Cursor.digitAt, Cursor.peekAt, hw, hc]
    refine (takes_look hdigit).bind_nil ?_
    rintro _ rfl
    rw [if_pos rfl]
    have hnumber : Takes barNumber (Nat.toDigits 10 bar.toNat) (['|'] ++ s) (· = bar) := by
      unfold barNumber
      refine takes_here.bind_nil fun position _ => ?_
      rw [← List.append_nil (Nat.toDigits 10 bar.toNat)]
      refine (takes_integer _ bar.toNat_lt (noDigit_cons (by decide) _)).bind ?_
      rintro _ rfl
      rw [UInt32.ofNat_toNat, if_neg (by simpa using hbar)]
      exact takes_pure rfl
    refine hnumber.bind ?_
    rintro _ rfl
    refine Takes.bind (w := ['|']) (v := []) (takes_eat '|') ?_
    rintro _ rfl
    exact takes_pure rfl

/-- One beat and nothing after it. -/
theorem takes_positionElements {bar : Option UInt32} (hbar : bar ≠ some 0) {d : Decimal}
    (hd : d.Proper) (hbeat : ¬ d.value < 1.0) (hs : Ends s) :
    Takes positionElements (barText bar ++ '|' :: d.text) s
      fun es => es.map (·.value) = [.position bar (.single d.value)] := by
  unfold positionElements
  rw [show barText bar ++ '|' :: d.text = barText bar ++ ['|'] ++ (d.text ++ []) by simp]
  refine (takes_positionBar hbar).bind fun b hb => ?_
  obtain rfl : bar = b := hb.symm
  have hfirst :
      Takes (locatedBeat bar) d.text s fun e => e.value = .position bar (.single d.value) := by
    unfold locatedBeat
    refine takes_here.bind_nil fun position _ => ?_
    rw [← List.append_nil d.text]
    refine (takes_beat hd hbeat (by simpa using hs)).bind ?_
    rintro _ rfl
    exact takes_pure rfl
  refine Takes.bind (by simpa using hfirst) fun first hfirst => ?_
  have hothers : Takes (many (nextBeat bar) (s.length + 1)) [] s (· = []) := by
    unfold many
    have hnone : Takes (nextBeat bar) [] s (· = none) := by
      unfold nextBeat
      refine (takes_not_eat (hs.head_ne (by decide))).bind_nil ?_
      rintro _ rfl
      exact takes_pure rfl
    refine hnone.bind_nil ?_
    rintro _ rfl
    exact takes_pure rfl
  refine (takes_look (a := s.length + 1) fun p => rfl).bind_nil ?_
  rintro _ rfl
  refine hothers.bind_nil ?_
  rintro _ rfl
  exact (takes_endOfElement _ hs).bind_nil fun _ _ => takes_pure (by simp [hfirst])

theorem refuses_positionElements {bar : Option UInt32} (hbar : bar ≠ some 0) {t : List Char}
    (h : Refuses beat t) : Refuses positionElements (barText bar ++ '|' :: t) := by
  unfold positionElements
  rw [show barText bar ++ '|' :: t = barText bar ++ ['|'] ++ t by simp]
  refine (takes_positionBar hbar).bind_refuses fun b hb => ?_
  refine Refuses.bind ?_ _
  unfold locatedBeat
  exact takes_here.bind_nil_refuses fun position _ => h.bind _

end Barline.Score
