import Barline.Proofs.Text.Taking

/-!
# What a scan carries elsewhere

A scan that ends at a blank does the same wherever its text stands, and whatever stands behind the
blank. Two runs of a scan are compared: one on a text, one on the text in another place.
-/

namespace Barline

/-- The error for a text that was moved. -/
def Error.moved (f : Position → Position) : Error → Error
  | grammar words found p => grammar words found (f p)
  | domain cause p => domain cause (p.map f)

/-- The value in a text that was moved. -/
def Located.moved {α : Type} (f : Position → Position) (e : Located α) : Located α :=
  ⟨e.value, f e.position⟩

@[simp] lemma Located.moved_value {α : Type} (f : Position → Position) (e : Located α) :
    (e.moved f).value = e.value := rfl

namespace Scan

/-- Another place for a text: where its characters stand there, and what stands behind it. -/
structure Setting where
  move : Position → Position
  behind : List Char
  move_past : ∀ p c, move (p.past c) = (move p).past c
  ends : Ends behind

lemma atSeparator_cons (x : Char) (rest : List Char) (p : Position) :
    Cursor.atSeparator ⟨x :: rest, p⟩ = true ↔
      isBlank x ∨ (x = '/' ∧ (rest.head? = some '/' ∨ rest.head? = some '*')) := by
  unfold Cursor.atSeparator
  split
  · simp_all
  · simp_all
  · simp_all
  · rename_i y _ hline hblock heq
    obtain ⟨rfl, rfl⟩ := List.cons.inj heq
    refine ⟨.inl, ?_⟩
    rintro (h | ⟨rfl, h | h⟩)
    · exact h
    · obtain ⟨tail, rfl⟩ := List.head?_eq_some_iff.mp h
      exact (hline tail rfl rfl).elim
    · obtain ⟨tail, rfl⟩ := List.head?_eq_some_iff.mp h
      exact (hblock tail rfl rfl).elim

namespace Setting

variable (t : Setting) (c : Cursor)

/-- A cursor in the other place. -/
def place : Cursor := ⟨c.rest ++ t.behind, t.move c.position⟩

lemma move_pastAll (p : Position) (cs : List Char) :
    t.move (p.pastAll cs) = (t.move p).pastAll cs := by
  induction cs generalizing p with
  | nil => rfl
  | cons x cs ih => exact (ih (p.past x)).trans (by rw [t.move_past]; rfl)

variable {c}

lemma place_advance (h : c.rest ≠ []) : (t.place c).advance = t.place c.advance := by
  obtain ⟨rest, p⟩ := c
  cases rest with
  | nil => exact absurd rfl h
  | cons x rest => simp [place, Cursor.advance, t.move_past]

lemma place_advanceBy {n : ℕ} (h : n ≤ c.rest.length) :
    (t.place c).advanceBy n = t.place (c.advanceBy n) := by
  simp [place, Cursor.advanceBy, List.drop_append_of_le_length h, List.take_append_of_le_length h,
    t.move_pastAll]

/-- The same place, with nothing behind. -/
def stay : Setting := ⟨id, [], fun _ _ => rfl, ends_nil⟩

variable (c)

lemma place_peek_eq_some {x : Char} (hx : isBlank x = false) :
    (t.place c).peek = some x ↔ c.peek = some x := by
  obtain ⟨rest, p⟩ := c
  cases rest with
  | nil => simpa [place, Cursor.peek] using t.ends.head_ne hx
  | cons y rest => rfl

lemma place_peek_beq {x : Char} (hx : isBlank x = false) :
    ((t.place c).peek == some x) = (c.peek == some x) := by
  rw [Bool.eq_iff_iff, beq_iff_eq, beq_iff_eq]
  exact t.place_peek_eq_some c hx

/-- A character of a class without blanks is next in both places or in neither. -/
lemma any_head?_place {q : Char → Bool} (hq : ∀ x, isBlank x → q x = false) (rest : List Char) :
    (rest ++ t.behind).head?.any q = rest.head?.any q := by
  cases rest with
  | cons y rest => rfl
  | nil =>
    cases hbehind : t.behind with
    | nil => rfl
    | cons y behind =>
      have hblank := t.ends y (by simp [hbehind])
      simp [hq y hblank]

lemma place_digitAt : (t.place c).digitAt 0 = c.digitAt 0 := by
  unfold Cursor.digitAt Cursor.peekAt place
  rw [← List.head?_eq_getElem?, ← List.head?_eq_getElem?]
  exact t.any_head?_place (fun _ => isDigit_of_isBlank) _

lemma place_digitAfter {x : Char} (hx : isBlank x = false) :
    (t.place c).digitAfter x = c.digitAfter x := by
  unfold Cursor.digitAfter
  by_cases hpeek : c.peek = some x
  · obtain ⟨rest, p⟩ := c
    obtain ⟨y, rest, rfl⟩ : ∃ y r, rest = y :: r := by
      cases rest with
      | nil => cases hpeek
      | cons y rest => exact ⟨y, rest, rfl⟩
    exact congrArg _ (t.place_digitAt ⟨rest, p⟩)
  · have hplace := (t.place_peek_eq_some c hx).not.mpr hpeek
    simp only [beq_eq_false_iff_ne.mpr hpeek, beq_eq_false_iff_ne.mpr hplace, Bool.false_and]

lemma place_head?_eq_some {rest : List Char} {x : Char} (hx : isBlank x = false) :
    (rest ++ t.behind).head? = some x ↔ rest.head? = some x :=
  t.place_peek_eq_some ⟨rest, .start⟩ hx

lemma place_atSeparator : (t.place c).atSeparator = c.atSeparator := by
  obtain ⟨rest, p⟩ := c
  cases rest with
  | nil => exact t.ends.atSeparator _
  | cons x rest =>
    rw [Bool.eq_iff_iff, place, List.cons_append, atSeparator_cons, atSeparator_cons,
      t.place_head?_eq_some (by decide), t.place_head?_eq_some (by decide)]

lemma takeWhile_place {q : Char → Bool} (hq : ∀ x, isBlank x → q x = false) :
    (t.place c).rest.takeWhile q = c.rest.takeWhile q := by
  have hbehind : t.behind.takeWhile q = [] := by
    rw [List.takeWhile_eq_nil_iff]
    intro hpos
    have hblank := t.ends _ (List.head?_eq_getElem? ▸ List.getElem?_eq_getElem hpos)
    simp [hq _ hblank]
  unfold place
  dsimp only
  rw [List.takeWhile_append, hbehind]
  split_ifs with hall
  · rw [List.append_nil]
    exact ((List.takeWhile_prefix q).eq_of_length hall).symm
  · rfl

lemma place_digits : (t.place c).digits = c.digits :=
  t.takeWhile_place c fun _ => isDigit_of_isBlank

lemma place_pastDigits : (t.place c).pastDigits = t.place c.pastDigits := by
  unfold Cursor.pastDigits
  rw [place_digits, place_advanceBy]
  exact (List.takeWhile_sublist _).length_le

end Setting

variable {α β γ δ : Type}

/-- From a cursor the scan `x` does what `y` does in the other place, up to `R` on the values, and
leaves at most `n` characters. An error is only compared if nothing stands behind the text. -/
def CarriesAt (t : Setting) (n : ℕ) (R : α → β → Prop) (x : Scan α) (y : Scan β) (c : Cursor) :
    Prop :=
  match x c with
  | .ok (a, c') => c'.rest.length ≤ n ∧ ∃ b, y (t.place c) = .ok (b, t.place c') ∧ R a b
  | .error e => t.behind = [] → y (t.place c) = .error (e.moved t.move)

/-- From every cursor. -/
def Carries (t : Setting) (R : α → β → Prop) (x : Scan α) (y : Scan β) : Prop :=
  ∀ c, CarriesAt t c.rest.length R x y c

lemma length_advance {c : Cursor} (h : c.rest ≠ []) :
    c.advance.rest.length = c.rest.length - 1 := by
  obtain ⟨rest, p⟩ := c
  cases rest with
  | nil => exact absurd rfl h
  | cons x rest => rfl

namespace CarriesAt

variable {t : Setting} {n m : ℕ} {R : α → β → Prop} {Q : γ → δ → Prop} {x : Scan α} {y : Scan β}
  {g : α → Scan γ} {h : β → Scan δ} {c : Cursor}

lemma mono (hx : CarriesAt t n R x y c) (hn : n ≤ m) : CarriesAt t m R x y c := by
  unfold CarriesAt at hx ⊢
  cases hc : x c with
  | error e => simpa [hc] using hx
  | ok r =>
    rw [hc] at hx
    exact ⟨hx.1.trans hn, hx.2⟩

lemma imp {R' : α → β → Prop} (hx : CarriesAt t n R x y c) (hR : ∀ a b, R a b → R' a b) :
    CarriesAt t n R' x y c := by
  unfold CarriesAt at hx ⊢
  cases hc : x c with
  | error e => simpa [hc] using hx
  | ok r =>
    rw [hc] at hx
    obtain ⟨hn, b, hb, h⟩ := hx
    exact ⟨hn, b, hb, hR _ _ h⟩

lemma bind (hx : CarriesAt t m R x y c)
    (hg : ∀ a b c', R a b → c'.rest.length ≤ m → CarriesAt t n Q (g a) (h b) c') :
    CarriesAt t n Q (x >>= g) (y >>= h) c := by
  unfold CarriesAt at hx ⊢
  rw [bind_apply, bind_apply]
  cases hc : x c with
  | error e =>
    rw [hc] at hx
    intro hbehind
    rw [hx hbehind]
  | ok r =>
    rw [hc] at hx
    obtain ⟨hm, b, hb, hR⟩ := hx
    rw [hb]
    exact hg r.1 b r.2 hR hm

lemma pure {a : α} {b : β} (hR : R a b) (hn : c.rest.length ≤ n) :
    CarriesAt t n R (pure a) (pure b) c := ⟨hn, b, rfl, hR⟩

lemma look {view : Cursor → α} {view' : Cursor → β}
    (hg : CarriesAt t n Q (g (view c)) (h (view' (t.place c))) c) :
    CarriesAt t n Q (look view >>= g) (Scan.look view' >>= h) c := hg

lemma here {g : Position → Scan γ} {h : Position → Scan δ}
    (hg : CarriesAt t n Q (g c.position) (h (t.move c.position)) c) :
    CarriesAt t n Q (here >>= g) (Scan.here >>= h) c := hg

lemma advance (hne : c.rest ≠ []) :
    CarriesAt t (c.rest.length - 1) (fun _ _ => True) (move Cursor.advance) (move Cursor.advance)
      c := by
  refine ⟨(length_advance hne).le, (), ?_, trivial⟩
  rw [← t.place_advance hne]
  rfl

lemma expected (words : List String) :
    CarriesAt t n R (expected words) (Scan.expected words) c := by
  intro hbehind
  simp [Scan.expected, Setting.place, hbehind, Error.moved, Cursor.found, Cursor.peek]

lemma expected_bind (words : List String) :
    CarriesAt t n Q (Scan.expected words >>= g) (Scan.expected words >>= h) c :=
  (expected (n := n) (R := fun _ _ => False) words).bind fun _ _ _ hR => hR.elim

lemma refuse (cause : Cause) (position : Position) :
    CarriesAt t n R (refuse cause position) (Scan.refuse cause (t.move position)) c :=
  fun _ => rfl

lemma get {g h : Cursor → Scan γ} {Q : γ → γ → Prop}
    (hg : CarriesAt t n Q (g c) (h (t.place c)) c) :
    CarriesAt t n Q (get >>= g) (MonadState.get >>= h) c := hg

lemma set {mark : Cursor} (hmark : mark.rest.length ≤ n) :
    CarriesAt t n (fun _ _ => True) (set mark) (MonadStateOf.set (t.place mark)) c :=
  ⟨hmark, (), rfl, trivial⟩

lemma refuse_bind (cause : Cause) (position : Position) :
    CarriesAt t n Q (Scan.refuse cause position >>= g)
      (Scan.refuse cause (t.move position) >>= h) c :=
  (refuse (n := n) (R := fun _ _ => False) cause position).bind fun _ _ _ hR => hR.elim

/-- A choice by what is seen, where the same is seen in both places. -/
lemma branch {view : Cursor → Bool} (hview : view (t.place c) = view c) {x x' : Scan γ}
    {y y' : Scan δ} (htrue : view c = true → CarriesAt t n Q x y c)
    (hfalse : view c = false → CarriesAt t n Q x' y' c) :
    CarriesAt t n Q (Scan.look view >>= fun b => if b then x else x')
      (Scan.look view >>= fun b => if b then y else y') c := by
  refine .look ?_
  rw [hview]
  cases hb : view c with
  | false => exact hfalse hb
  | true => exact htrue hb

end CarriesAt

section

variable {t : Setting} {R : α → β → Prop} {c : Cursor}

lemma rest_ne_nil_of_peek {x : Char} (h : c.peek = some x) : c.rest ≠ [] := by
  rintro hnil
  simp [Cursor.peek, hnil] at h

lemma eat_of_peek {x : Char} (h : c.peek = some x) : eat x c = .ok (true, c.advance) := by
  simp [eat, Cursor.eat?, h]

lemma eat_of_peek_ne {x : Char} (h : c.peek ≠ some x) : eat x c = .ok (false, c) := by
  simp [eat, Cursor.eat?, h]

lemma carries_eat {x : Char} (hx : isBlank x = false) : Carries t (· = ·) (eat x) (eat x) := by
  intro c
  unfold CarriesAt
  by_cases hpeek : c.peek = some x
  · have hne := rest_ne_nil_of_peek hpeek
    rw [eat_of_peek hpeek, eat_of_peek ((t.place_peek_eq_some c hx).mpr hpeek),
      t.place_advance hne]
    exact ⟨by rw [length_advance hne]; exact Nat.sub_le _ _, true, rfl, rfl⟩
  · rw [eat_of_peek_ne hpeek, eat_of_peek_ne ((t.place_peek_eq_some c hx).not.mpr hpeek)]
    exact ⟨le_rfl, false, rfl, rfl⟩

lemma carries_digits (c : Cursor) : CarriesAt t (c.rest.length - c.digits.length)
    (fun a b => a = c.digits ∧ b = a) digits digits c := by
  refine ⟨?_, c.digits, ?_, rfl, rfl⟩
  · simp [Cursor.pastDigits, Cursor.advanceBy]
  · unfold digits
    rw [t.place_digits, t.place_pastDigits]

lemma isPrefixOf_append_ends {word rest s : List Char} (hword : word.any isBlank = false)
    (hs : Ends s) : word.isPrefixOf (rest ++ s) = word.isPrefixOf rest := by
  induction word generalizing rest with
  | nil => simp
  | cons x word ih =>
    rw [List.any_cons, Bool.or_eq_false_iff] at hword
    have ih (rest : List Char) : word.isPrefixOf (rest ++ s) = word.isPrefixOf rest :=
      ih hword.2
    cases rest with
    | cons y rest => rw [List.cons_append, List.isPrefixOf, List.isPrefixOf, ih]
    | nil =>
      cases s with
      | nil => rfl
      | cons y s =>
        have hne : x ≠ y := by
          rintro rfl
          exact hs.head_ne hword.1 rfl
        simp [List.isPrefixOf, hne]

lemma carries_eatWord {word : List Char} (hword : word.any isBlank = false) :
    Carries t (· = ·) (eatWord word) (eatWord word) := by
  intro c
  have hplace : word.isPrefixOf (t.place c).rest = word.isPrefixOf c.rest :=
    isPrefixOf_append_ends hword t.ends
  simp only [CarriesAt, eatWord, Cursor.eatWord?, hplace]
  cases hprefix : word.isPrefixOf c.rest with
  | false => exact ⟨le_rfl, false, rfl, rfl⟩
  | true =>
    have hlength := (List.isPrefixOf_iff_prefix.mp hprefix).length_le
    exact ⟨by simp [Cursor.advanceBy], true, by rw [if_pos rfl, t.place_advanceBy hlength], rfl⟩

lemma eq_map_of_forall₂ {f : α → β} {as : List α} {bs : List β}
    (h : List.Forall₂ (fun a b => b = f a) as bs) : bs = as.map f := by
  induction h with
  | nil => rfl
  | cons hab _ ih => rw [hab, ih, List.map_cons]

/-- Rounds that each pass a character are carried, however many more are allowed. -/
theorem carries_many {step : Scan (Option α)} {step' : Scan (Option β)}
    (hstep : Carries t (Option.Rel R) step step')
    (hpasses : ∀ c a c', step c = .ok (some a, c') → c'.rest.length < c.rest.length) {n m : ℕ}
    (hn : c.rest.length < n) (hm : (t.place c).rest.length < m) :
    CarriesAt t c.rest.length (List.Forall₂ R) (many step n) (many step' m) c := by
  induction n generalizing m c with
  | zero => omega
  | succ n ih =>
    obtain ⟨m, rfl⟩ : ∃ k, m = k + 1 := ⟨m - 1, by omega⟩
    unfold many
    have h := hstep c
    unfold CarriesAt at h ⊢
    rw [bind_apply, bind_apply]
    cases hc : step c with
    | error e =>
      rw [hc] at h
      intro hbehind
      rw [h hbehind]
    | ok r =>
      obtain ⟨o, c'⟩ := r
      rw [hc] at h
      obtain ⟨hle, o', ho', hR⟩ := h
      rw [ho']
      cases hR with
      | none => exact ⟨hle, [], rfl, .nil⟩
      | some hR =>
        have hlt := hpasses c _ c' hc
        have hrest := ih (c := c') (m := m) (by omega) (by simp [Setting.place] at hm ⊢; omega)
        exact (hrest.mono hle).bind fun as bs c'' hs hle' => .pure (.cons hR hs) hle'

lemma rest_ne_nil_of_digitAfter {x : Char} (h : c.digitAfter x) : c.rest ≠ [] := by
  simp only [Cursor.digitAfter, Bool.and_eq_true, beq_iff_eq] at h
  exact rest_ne_nil_of_peek h.1

lemma carries_decimal : Carries t (· = ·) decimal decimal := by
  intro c
  unfold decimal
  refine (carries_digits c).bind fun a b c' hab hle => ?_
  obtain ⟨-, rfl⟩ := hab
  refine .branch (t.place_digitAfter c' (by decide)) (fun hpoint => ?_) fun _ =>
    .pure rfl (by omega)
  refine (CarriesAt.advance (rest_ne_nil_of_digitAfter hpoint)).bind fun _ _ c'' _ hle' => ?_
  refine (carries_digits c'').bind fun ds ds' c''' hds hle'' => ?_
  obtain ⟨-, rfl⟩ := hds
  exact .pure rfl (by omega)

lemma carries_accidental : Carries t (· = ·) accidental accidental := by
  intro c
  unfold accidental
  refine .look ?_
  have hsharp := t.place_peek_eq_some c (by decide : isBlank '#' = false)
  have hflat := t.place_peek_eq_some c (by decide : isBlank 'b' = false)
  split
  · rename_i h
    rw [hsharp.mpr h]
    exact (CarriesAt.advance (rest_ne_nil_of_peek h)).bind fun _ _ c' _ hle => .pure rfl (by omega)
  · rename_i h
    rw [hflat.mpr h]
    exact (CarriesAt.advance (rest_ne_nil_of_peek h)).bind fun _ _ c' _ hle => .pure rfl (by omega)
  · rename_i h h'
    split
    · exact absurd (hsharp.mp ‹_›) h
    · exact absurd (hflat.mp ‹_›) h'
    · exact .pure rfl le_rfl

end

end Scan

end Barline
