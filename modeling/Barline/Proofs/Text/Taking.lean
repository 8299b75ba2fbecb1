import Barline.Proofs.Number.Decimal
import Barline.Text.Scan

/-!
# What a scan takes

A scan takes a piece of text if it reads it off the front, whatever the position, and leaves what
comes behind. For a sequence of scans the pieces add up.
-/

namespace Barline.Scan

open Number

variable {α β : Type}

/-- With `s` behind it, the scan reads `w` as a value of which `P` holds. -/
def Takes (x : Scan α) (w s : List Char) (P : α → Prop) : Prop :=
  ∀ p, ∃ a p', x ⟨w ++ s, p⟩ = .ok (a, ⟨s, p'⟩) ∧ P a

/-- The scan refuses a text wherever it stands. -/
def Refuses (x : Scan α) (t : List Char) : Prop := ∀ p, ∃ e, x ⟨t, p⟩ = .error e

lemma bind_apply (x : Scan α) (f : α → Scan β) (c : Cursor) :
    (x >>= f) c = match x c with
      | .ok (a, c') => f a c'
      | .error e => .error e := by
  change (x c >>= fun r => f r.1 r.2) = _
  rcases x c with e | ⟨a, c'⟩ <;> rfl

namespace Takes

variable {x : Scan α} {f : α → Scan β} {w s : List Char} {P : α → Prop} {Q : β → Prop}

lemma mono (h : Takes x w s P) {P' : α → Prop} (hP : ∀ a, P a → P' a) : Takes x w s P' := by
  intro p
  obtain ⟨a, p', hx, ha⟩ := h p
  exact ⟨a, p', hx, hP a ha⟩

lemma bind {v : List Char} (hx : Takes x w (v ++ s) P) (hf : ∀ a, P a → Takes (f a) v s Q) :
    Takes (x >>= f) (w ++ v) s Q := by
  intro p
  obtain ⟨a, p', hxa, ha⟩ := hx p
  obtain ⟨b, p'', hfb, hb⟩ := hf a ha p'
  refine ⟨b, p'', ?_, hb⟩
  rw [bind_apply, List.append_assoc, hxa]
  exact hfb

lemma bind_nil (hx : Takes x [] (w ++ s) P) (hf : ∀ a, P a → Takes (f a) w s Q) :
    Takes (x >>= f) w s Q := by
  simpa using hx.bind hf

lemma bind_refuses (hx : Takes x w s P) (hf : ∀ a, P a → Refuses (f a) s) :
    Refuses (x >>= f) (w ++ s) := by
  intro p
  obtain ⟨a, p', hxa, ha⟩ := hx p
  obtain ⟨e, he⟩ := hf a ha p'
  exact ⟨e, by rw [bind_apply, hxa]; exact he⟩

lemma bind_nil_refuses (hx : Takes x [] s P) (hf : ∀ a, P a → Refuses (f a) s) :
    Refuses (x >>= f) s := hx.bind_refuses hf

end Takes

lemma Refuses.bind {x : Scan α} {t : List Char} (hx : Refuses x t) (f : α → Scan β) :
    Refuses (x >>= f) t := by
  intro p
  obtain ⟨e, he⟩ := hx p
  exact ⟨e, by rw [bind_apply, he]⟩

variable {w s t : List Char}

lemma takes_pure {P : α → Prop} {a : α} (h : P a) : Takes (pure a) [] s P :=
  fun p => ⟨a, p, rfl, h⟩

lemma takes_here : Takes here [] s fun _ => True := fun p => ⟨p, p, rfl, trivial⟩

lemma takes_look {view : Cursor → α} {a : α} (h : ∀ p, view ⟨s, p⟩ = a) :
    Takes (look view) [] s (· = a) := fun p => ⟨a, p, by rw [← h p]; rfl, rfl⟩

lemma takes_advance (c : Char) : Takes (move Cursor.advance) [c] s fun _ => True :=
  fun p => ⟨(), p.past c, rfl, trivial⟩

lemma takes_eat (c : Char) : Takes (eat c) [c] s (· = true) := by
  intro p
  refine ⟨true, p.past c, ?_, rfl⟩
  simp [eat, Cursor.eat?, Cursor.peek, Cursor.advance]

lemma takes_not_eat {c : Char} (h : s.head? ≠ some c) : Takes (eat c) [] s (· = false) := by
  intro p
  refine ⟨false, p, ?_, rfl⟩
  simp [eat, Cursor.eat?, Cursor.peek, h]

lemma refuses_expected (words : List String) : Refuses (expected words : Scan α) t :=
  fun _ => ⟨_, rfl⟩

lemma refuses_refuse (cause : Cause) (position : Position) :
    Refuses (refuse cause position : Scan α) t := fun _ => ⟨_, rfl⟩

lemma isDigit_of_isBlank {c : Char} (h : isBlank c) : c.isDigit = false := by
  by_contra hdigit
  rw [Bool.not_eq_false] at hdigit
  simp only [Char.isDigit, Bool.and_eq_true, decide_eq_true_eq] at hdigit
  simp only [isBlank, blankRanges, List.any_cons, List.any_nil, Bool.or_eq_true, Bool.and_eq_true,
    decide_eq_true_eq, Bool.false_eq_true, or_false] at h
  have h1 : 48 ≤ c.toNat := hdigit.1
  have h2 : c.toNat ≤ 57 := hdigit.2
  omega

/-- No digit comes next. -/
def NoDigit (s : List Char) : Prop := ∀ c ∈ s.head?, c.isDigit = false

/-- A word may end in front of this text. -/
def Ends (s : List Char) : Prop := ∀ c ∈ s.head?, isBlank c

namespace Ends

lemma head_ne (hs : Ends s) {c : Char} (hc : isBlank c = false) : s.head? ≠ some c := by
  intro h
  have := hs c (by simp [h])
  rw [hc] at this
  cases this

lemma noDigit (hs : Ends s) : NoDigit s := fun c hc => isDigit_of_isBlank (hs c hc)

lemma atSeparator (hs : Ends s) (p : Position) : Cursor.atSeparator ⟨s, p⟩ = true := by
  cases s with
  | nil => rfl
  | cons c s =>
    have hblank : isBlank c := hs c (by simp)
    have hslash : c ≠ '/' := by
      rintro rfl
      exact absurd hblank (by decide)
    unfold Cursor.atSeparator
    split <;> simp_all

end Ends

lemma ends_cons {b : Char} (hb : isBlank b) (t : List Char) : Ends (b :: t) := by
  intro c hc
  obtain rfl : b = c := by simpa using hc
  exact hb

lemma ends_nil : Ends [] := by simp [Ends]

lemma takeWhile_digits {ds : List Char} (hd : ∀ c ∈ ds, c.isDigit) (hs : NoDigit s) :
    (ds ++ s).takeWhile Char.isDigit = ds := by
  rw [List.takeWhile_append_of_pos hd]
  cases s with
  | nil => simp
  | cons c s => simp [hs c (by simp)]

lemma takes_digits {ds : List Char} (hd : ∀ c ∈ ds, c.isDigit) (hs : NoDigit s) :
    Takes digits ds s (· = ds) := by
  intro p
  have hdigits : Cursor.digits ⟨ds ++ s, p⟩ = ds := takeWhile_digits hd hs
  refine ⟨ds, p.pastAll ds, ?_, rfl⟩
  simp [digits, hdigits, Cursor.pastDigits, Cursor.advanceBy]

lemma takes_accidental {a : Option Char} (ha : a ∈ [none, some '#', some 'b'])
    (hs : s.head? ≠ some '#' ∧ s.head? ≠ some 'b') : Takes accidental a.toList s (· = a) := by
  unfold accidental
  fin_cases ha
  · refine (takes_look (a := s.head?) fun p => rfl).bind_nil ?_
    rintro _ rfl
    split
    · exact absurd ‹_› hs.1
    · exact absurd ‹_› hs.2
    · exact takes_pure rfl
  · refine (takes_look (a := some '#') fun p => rfl).bind_nil ?_
    rintro _ rfl
    exact Takes.bind (w := ['#']) (v := []) (takes_advance '#') fun _ _ => takes_pure rfl
  · refine (takes_look (a := some 'b') fun p => rfl).bind_nil ?_
    rintro _ rfl
    exact Takes.bind (w := ['b']) (v := []) (takes_advance 'b') fun _ _ => takes_pure rfl

lemma digitAfter_eq_false {c : Char} (h : s.head? ≠ some c) (p : Position) :
    Cursor.digitAfter ⟨s, p⟩ c = false := by
  simp [Cursor.digitAfter, Cursor.peek, h]

lemma digitAfter_eq_true {c d : Char} (h : d.isDigit) (p : Position) :
    Cursor.digitAfter ⟨c :: d :: s, p⟩ c = true := by
  simp [Cursor.digitAfter, Cursor.peek, Cursor.digitAt, Cursor.peekAt, h]

/-- A decimal is taken as it was written, if it does not go on behind. -/
theorem takes_decimal {d : Decimal} (hd : d.Proper) (hs : NoDigit s) (hdot : s.head? ≠ some '.') :
    Takes decimal d.text s (· = d) := by
  obtain ⟨whole, fraction⟩ := d
  cases fraction with
  | nil =>
    have htext : Decimal.text ⟨whole, []⟩ = whole ++ [] := rfl
    rw [htext]
    refine (takes_digits hd.whole_digits hs).bind ?_
    rintro _ rfl
    refine (takes_look (digitAfter_eq_false hdot)).bind_nil ?_
    rintro _ rfl
    exact takes_pure rfl
  | cons c fraction =>
    have htext : Decimal.text ⟨whole, c :: fraction⟩ = whole ++ ('.' :: (c :: fraction)) := rfl
    have hpoint : NoDigit ('.' :: (c :: fraction) ++ s) := by
      intro x hx
      obtain rfl : '.' = x := by simpa using hx
      decide
    rw [htext]
    refine (takes_digits hd.whole_digits hpoint).bind ?_
    rintro _ rfl
    refine (takes_look (digitAfter_eq_true (hd.fraction_digits c (by simp)))).bind_nil ?_
    rintro _ rfl
    refine Takes.bind (w := ['.']) (takes_advance '.') fun _ _ => ?_
    rw [← List.append_nil (c :: fraction)]
    refine (takes_digits hd.fraction_digits (by simpa using hs)).bind ?_
    rintro _ rfl
    exact takes_pure (by simp)

end Barline.Scan
