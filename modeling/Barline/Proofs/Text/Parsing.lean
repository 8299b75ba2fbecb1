import Barline.Proofs.Text.Carrying

/-!
# What a scan parses

A scan parses a language if it reads exactly the texts of that language off the front: what it
passes belongs to the language, and a text that belongs to it is passed, provided that what comes
behind does not go on with it. For a sequence of scans the languages are put together.
-/

namespace Barline.Scan

open Number

variable {α β : Type}

/-- A language with values. A text belongs to it at a position and in front of another text. -/
abbrev Language (α : Type) := Position → List Char → List Char → α → Prop

/-- The scan parses a language, where it is started at texts of which `Begin` holds and left in
front of texts of which `Follow` holds. -/
structure Parses (Begin : List Char → Prop) (x : Scan α) (G : Language α)
    (Follow : List Char → Prop) : Prop where
  sound : ∀ {t : List Char} {p : Position} {a : α} {c : Cursor}, Begin t → x ⟨t, p⟩ = .ok (a, c) →
    ∃ w s, t = w ++ s ∧ c = ⟨s, p.pastAll w⟩ ∧ G p w s a
  complete : ∀ {p : Position} {w s : List Char} {a : α}, G p w s a → Follow s →
    x ⟨w ++ s, p⟩ = .ok (a, ⟨s, p.pastAll w⟩)

/-- Any text. -/
abbrev Anything : List Char → Prop := fun _ => True

/-- A text that begins with `x` and goes on with a text of which `P` holds. -/
def Opens (x : Char) (P : List Char → Prop) (t : List Char) : Prop := ∃ r, t = x :: r ∧ P r

/-- A text that begins with a digit. -/
def StartsDigit (t : List Char) : Prop := ∃ c r, t = c :: r ∧ c.isDigit = true

lemma startsDigit_of_digits {w : List Char} (hne : w ≠ []) (hw : ∀ c ∈ w, c.isDigit)
    (s : List Char) : StartsDigit (w ++ s) := by
  obtain ⟨c, w, rfl⟩ := List.exists_cons_of_ne_nil hne
  exact ⟨c, w ++ s, rfl, hw c List.mem_cons_self⟩

lemma StartsDigit.head?_ne {t : List Char} (h : StartsDigit t) {c : Char}
    (hc : c.isDigit = false) : t.head? ≠ some c := by
  obtain ⟨d, r, rfl, hd⟩ := h
  rintro ⟨⟩
  rw [hc] at hd
  cases hd

lemma pastAll_append (p : Position) (u v : List Char) :
    p.pastAll (u ++ v) = (p.pastAll u).pastAll v := List.foldl_append ..

namespace Parses

section

variable {Begin Begin' Follow Follow' : List Char → Prop} {x y : Scan α} {f : α → Scan β}
  {G G' : Language α} {H : α → Language β}

lemma congr (h : Parses Begin x G Follow) (hG : ∀ p w s a, G p w s a ↔ G' p w s a) :
    Parses Begin x G' Follow where
  sound hb hx := by
    obtain ⟨w, s, ht, hc, hg⟩ := h.sound hb hx
    exact ⟨w, s, ht, hc, (hG _ _ _ _).mp hg⟩
  complete hg hs := h.complete ((hG _ _ _ _).mpr hg) hs

lemma weaken (h : Parses Begin x G Follow) (hb : ∀ t, Begin' t → Begin t)
    (hs : ∀ s, Follow' s → Follow s) : Parses Begin' x G Follow' where
  sound hbegin hx := h.sound (hb _ hbegin) hx
  complete hg hfollow := h.complete hg (hs _ hfollow)

lemma before (h : Parses Begin x G Follow) (hs : ∀ s, Follow' s → Follow s) :
    Parses Begin x G Follow' := h.weaken (fun _ hb => hb) hs

lemma anywhere (h : Parses Anything x G Follow) : Parses Begin x G Follow :=
  h.weaken (fun _ _ => trivial) fun _ hs => hs

/-- One scan after another. -/
theorem bind (hx : Parses Begin x G Follow) (hf : ∀ a, Parses Begin' (f a) (H a) Follow')
    (hbegin : ∀ p u t a, G p u t a → Begin' t)
    (hfollow : ∀ p u v s a b, G p u (v ++ s) a → H a (p.pastAll u) v s b → Follow' s →
      Follow (v ++ s)) :
    Parses Begin (x >>= f)
      (fun p w s b => ∃ u v a, w = u ++ v ∧ G p u (v ++ s) a ∧ H a (p.pastAll u) v s b)
      Follow' where
  sound {t p b c} ht h := by
    rw [bind_apply] at h
    cases hxc : x ⟨t, p⟩ with
    | error e =>
      rw [hxc] at h
      cases h
    | ok r =>
      obtain ⟨a, c'⟩ := r
      rw [hxc] at h
      obtain ⟨u, r, rfl, rfl, hu⟩ := hx.sound ht hxc
      obtain ⟨v, s, rfl, rfl, hv⟩ := (hf a).sound (hbegin _ _ _ _ hu) h
      exact ⟨u ++ v, s, by simp, by rw [pastAll_append], u, v, a, rfl, hu, hv⟩
  complete {p w s b} hg hs := by
    obtain ⟨u, v, a, rfl, hu, hv⟩ := hg
    rw [bind_apply, List.append_assoc, hx.complete hu (hfollow _ _ _ _ _ _ hu hv hs),
      pastAll_append]
    exact (hf a).complete hv hs

/-- A scan that passes nothing more after another. -/
theorem bind_still {R : List Char → α → β → Prop} (hx : Parses Begin x G Follow)
    (hf : ∀ a, Parses Anything (f a) (fun _ w s b => w = [] ∧ R s a b) Follow) :
    Parses Begin (x >>= f) (fun p w s b => ∃ a, G p w s a ∧ R s a b) Follow := by
  refine (hx.bind hf (fun _ _ _ _ _ => trivial) ?_).congr ?_
  · rintro p u _ s a b - ⟨rfl, -⟩ hs
    exact hs
  · intro p w s b
    constructor
    · rintro ⟨u, _, a, rfl, hu, rfl, hR⟩
      exact ⟨a, by simpa using hu, hR⟩
    · rintro ⟨a, hu, hR⟩
      exact ⟨w, [], a, by simp, hu, rfl, hR⟩

end

end Parses

lemma eatWord_append (word t : List Char) (p : Position) :
    eatWord word ⟨word ++ t, p⟩ = .ok (true, ⟨t, p.pastAll word⟩) := by
  simp [eatWord, Cursor.eatWord?, Cursor.advanceBy]

lemma eatWord_of_not {word t : List Char} (h : ¬ word <+: t) (p : Position) :
    eatWord word ⟨t, p⟩ = .ok (false, ⟨t, p⟩) := by
  simp [eatWord, Cursor.eatWord?, h]

section

variable {Begin Follow : List Char → Prop} {x y : Scan α} {G H : Language α}

lemma parses_pure (a : α) : Parses Begin (pure a) (fun _ w _ b => w = [] ∧ b = a) Follow where
  sound {t p b c} _ h := by
    cases h
    exact ⟨[], t, rfl, rfl, rfl, rfl⟩
  complete := by
    rintro p _ s _ ⟨rfl, rfl⟩ _
    rfl

/-- What is said of the text that a scan begins with holds where it ends if it passes nothing. -/
lemma parses_pure_at (a : α) :
    Parses Begin (pure a) (fun _ w s b => w = [] ∧ b = a ∧ Begin s) Follow where
  sound {t p b c} hb h := by
    cases h
    exact ⟨[], t, rfl, rfl, rfl, rfl, hb⟩
  complete := by
    rintro p _ s _ ⟨rfl, rfl, -⟩ _
    rfl

lemma parses_expected (words : List String) :
    Parses Begin (expected words : Scan α) (fun _ _ _ _ => False) Follow where
  sound _ h := by cases h
  complete h := h.elim

lemma parses_refuse (cause : Cause) (position : Position) :
    Parses Begin (refuse cause position : Scan α) (fun _ _ _ _ => False) Follow where
  sound _ h := by cases h
  complete h := h.elim

lemma parses_refuse_bind (cause : Cause) (position : Position) (f : β → Scan α) :
    Parses Begin (refuse cause position >>= f) (fun _ _ _ _ => False) Follow where
  sound _ h := by cases h
  complete h := h.elim

lemma Parses.bind_here {f : Position → Scan α} {G : Position → Language α}
    (hf : ∀ q, Parses Begin (f q) (G q) Follow) :
    Parses Begin (here >>= f) (fun p => G p p) Follow where
  sound hb h := (hf _).sound hb h
  complete hg hs := (hf _).complete hg hs

lemma Parses.bind_advance (c : Char) (hx : Parses Begin x G Follow) :
    Parses (Opens c Begin) (move Cursor.advance >>= fun _ => x)
      (fun p w s a => ∃ v, w = c :: v ∧ G (p.past c) v s a) Follow where
  sound := by
    rintro _ p a c' ⟨t, rfl, ht⟩ h
    obtain ⟨w, s, rfl, rfl, hg⟩ := hx.sound ht h
    exact ⟨c :: w, s, rfl, rfl, w, rfl, hg⟩
  complete := by
    rintro p _ s a ⟨v, rfl, hg⟩ hs
    exact hx.complete hg hs

lemma Parses.ite {P : Prop} [Decidable P] (hx : P → Parses Begin x G Follow)
    (hy : ¬ P → Parses Begin y H Follow) :
    Parses Begin (if P then x else y) (fun p w s a => (P ∧ G p w s a) ∨ (¬ P ∧ H p w s a))
      Follow := by
  by_cases hP : P
  · simpa [hP] using hx hP
  · simpa [hP] using hy hP

lemma parses_unless {P : Prop} [Decidable P] (cause : Cause) (position : Position) (a : α) :
    Parses Begin (if P then refuse cause position else pure a)
      (fun _ w _ b => w = [] ∧ ¬ P ∧ b = a) Follow := by
  refine (Parses.ite (fun _ => parses_refuse _ _) fun _ => parses_pure _).congr fun p w s b => ?_
  simp only [and_false, false_or]
  tauto

lemma parses_provided {P : Prop} [Decidable P] (cause : Cause) (position : Position) (a : α) :
    Parses Begin (if P then pure a else refuse cause position)
      (fun _ w _ b => w = [] ∧ P ∧ b = a) Follow := by
  refine (Parses.ite (fun _ => parses_pure _) fun _ => parses_refuse _ _).congr fun p w s b => ?_
  simp only [and_false, or_false]
  tauto

/-- A choice by what is seen of the text that is left. -/
lemma Parses.ite_look (view : Cursor → Bool) {V : List Char → Prop}
    (hview : ∀ t p, view ⟨t, p⟩ = true ↔ V t)
    (hx : Parses (fun t => Begin t ∧ V t) x G Follow)
    (hy : Parses (fun t => Begin t ∧ ¬ V t) y H Follow)
    (hG : ∀ p w s a, G p w s a → Follow s → V (w ++ s))
    (hH : ∀ p w s a, H p w s a → Follow s → ¬ V (w ++ s)) :
    Parses Begin (look view >>= fun b => if b = true then x else y)
      (fun p w s a => G p w s a ∨ H p w s a) Follow where
  sound {t p a c} hb h := by
    change (if view ⟨t, p⟩ = true then x else y) ⟨t, p⟩ = _ at h
    split_ifs at h with hV
    · obtain ⟨w, s, ht, hc, hg⟩ := hx.sound ⟨hb, (hview t p).mp hV⟩ h
      exact ⟨w, s, ht, hc, .inl hg⟩
    · obtain ⟨w, s, ht, hc, hg⟩ := hy.sound ⟨hb, fun hV' => hV ((hview t p).mpr hV')⟩ h
      exact ⟨w, s, ht, hc, .inr hg⟩
  complete {p w s a} hg hs := by
    change (if view ⟨w ++ s, p⟩ = true then x else y) ⟨w ++ s, p⟩ = _
    rcases hg with hg | hg
    · rw [if_pos ((hview _ p).mpr (hG _ _ _ _ hg hs))]
      exact hx.complete hg hs
    · rw [if_neg fun hV => hH _ _ _ _ hg hs ((hview _ p).mp hV)]
      exact hy.complete hg hs

/-- A choice by whether a character is next, which then is passed. -/
lemma Parses.ite_eat {c : Char} (hx : Parses Anything x G Follow)
    (hy : Parses (fun t => t.head? ≠ some c) y H Follow)
    (hH : ∀ p w s a, H p w s a → Follow s → (w ++ s).head? ≠ some c) :
    Parses Anything (eat c >>= fun b => if b = true then x else y)
      (fun p w s a => (∃ v, w = c :: v ∧ G (p.past c) v s a) ∨ H p w s a) Follow where
  sound {t p a c'} _ h := by
    rw [bind_apply] at h
    by_cases hc : Cursor.peek ⟨t, p⟩ = some c
    · obtain ⟨t, rfl⟩ := List.head?_eq_some_iff.mp hc
      rw [eat_of_peek hc] at h
      obtain ⟨w, s, rfl, rfl, hg⟩ := hx.sound trivial h
      exact ⟨c :: w, s, rfl, rfl, .inl ⟨w, rfl, hg⟩⟩
    · rw [eat_of_peek_ne hc] at h
      obtain ⟨w, s, ht, hc', hg⟩ := hy.sound hc h
      exact ⟨w, s, ht, hc', .inr hg⟩
  complete {p w s a} hg hs := by
    rw [bind_apply]
    rcases hg with ⟨v, rfl, hg⟩ | hg
    · rw [eat_of_peek rfl]
      exact hx.complete hg hs
    · have hne : Cursor.peek ⟨w ++ s, p⟩ ≠ some c := hH _ _ _ _ hg hs
      rw [eat_of_peek_ne hne]
      exact hy.complete hg hs

lemma parses_eat (c : Char) : Parses Begin (eat c)
    (fun _ w _ b => w = if b = true then [c] else []) (fun s => s.head? ≠ some c) where
  sound {t p b c'} _ h := by
    by_cases hc : Cursor.peek ⟨t, p⟩ = some c
    · obtain ⟨t, rfl⟩ := List.head?_eq_some_iff.mp hc
      rw [eat_of_peek hc] at h
      cases h
      exact ⟨[c], t, rfl, rfl, rfl⟩
    · rw [eat_of_peek_ne hc] at h
      cases h
      exact ⟨[], t, rfl, rfl, rfl⟩
  complete := by
    rintro p _ s b rfl hs
    cases b
    · exact eat_of_peek_ne hs
    · exact eat_of_peek rfl

/-- A choice by whether a word is next, which then is passed. -/
lemma Parses.ite_eatWord {word : List Char} (hx : Parses Anything x G Follow)
    (hy : Parses Anything y H Follow)
    (hH : ∀ p w s a, H p w s a → Follow s → ¬ word <+: w ++ s) :
    Parses Anything (eatWord word >>= fun b => if b = true then x else y)
      (fun p w s a => (∃ v, w = word ++ v ∧ G (p.pastAll word) v s a) ∨ H p w s a) Follow where
  sound {t p a c'} _ h := by
    rw [bind_apply] at h
    by_cases hword : word <+: t
    · obtain ⟨t, rfl⟩ := hword
      rw [eatWord_append] at h
      obtain ⟨w, s, rfl, rfl, hg⟩ := hx.sound trivial h
      exact ⟨word ++ w, s, by simp, by rw [pastAll_append], .inl ⟨w, rfl, hg⟩⟩
    · rw [eatWord_of_not hword] at h
      obtain ⟨w, s, ht, hc, hg⟩ := hy.sound trivial h
      exact ⟨w, s, ht, hc, .inr hg⟩
  complete {p w s a} hg hs := by
    rw [bind_apply]
    rcases hg with ⟨v, rfl, hg⟩ | hg
    · rw [List.append_assoc, eatWord_append, pastAll_append]
      exact hx.complete hg hs
    · rw [eatWord_of_not (hH _ _ _ _ hg hs)]
      exact hy.complete hg hs

lemma digits_apply {ds s : List Char} (hds : ∀ c ∈ ds, c.isDigit) (hs : NoDigit s) (p : Position) :
    digits ⟨ds ++ s, p⟩ = .ok (ds, ⟨s, p.pastAll ds⟩) := by
  have hdigits : Cursor.digits ⟨ds ++ s, p⟩ = ds := takeWhile_digits hds hs
  simp [digits, Cursor.pastDigits, Cursor.advanceBy, hdigits]

lemma exists_digits (t : List Char) :
    ∃ ds s, t = ds ++ s ∧ (∀ c ∈ ds, c.isDigit) ∧ NoDigit s := by
  refine ⟨t.takeWhile Char.isDigit, t.dropWhile Char.isDigit,
    List.takeWhile_append_dropWhile.symm, fun c hc => List.mem_takeWhile_imp hc, fun c hc => ?_⟩
  have hnot := List.head?_dropWhile_not Char.isDigit t
  rw [hc] at hnot
  simpa using hnot

lemma parses_digits :
    Parses Begin digits (fun _ w _ ds => w = ds ∧ ∀ c ∈ ds, c.isDigit) NoDigit where
  sound {t p ds c} _ h := by
    obtain ⟨ds', s, rfl, hds, hs⟩ := exists_digits t
    rw [digits_apply hds hs] at h
    cases h
    exact ⟨ds, s, rfl, rfl, rfl, hds⟩
  complete := by
    rintro p _ s ds ⟨rfl, hds⟩ hs
    exact digits_apply hds hs p

lemma parses_digits_start : Parses StartsDigit digits
    (fun _ w _ ds => w = ds ∧ ds ≠ [] ∧ ∀ c ∈ ds, c.isDigit) NoDigit where
  sound := by
    rintro _ p ds c ⟨x, r, rfl, hx⟩ h
    have hdigits : Parses Anything digits (fun _ w _ ds => w = ds ∧ ∀ c ∈ ds, c.isDigit) NoDigit :=
      parses_digits
    obtain ⟨w, s, ht, hc, rfl, hds⟩ := hdigits.sound trivial h
    refine ⟨w, s, ht, hc, rfl, ?_, hds⟩
    have hw : w = (x :: r).takeWhile Char.isDigit := by
      cases h
      rfl
    simp [hw, hx]
  complete := by
    rintro p _ s ds ⟨rfl, -, hds⟩ hs
    exact digits_apply hds hs p

end

section

variable {Follow Follow' : List Char → Prop} {step : Scan (Option α)} {G : Language α}
  {N : Position → List Char → List Char → Prop} {p : Position} {w s : List Char} {as : List α}

/-- Texts of a language one after another and a last one that has no value. None is empty, except
for the last perhaps. -/
inductive Many (G : Language α) (N : Position → List Char → List Char → Prop) (s : List Char) :
    Position → List Char → List α → Prop
  | last {p : Position} {w : List Char} (h : N p w s) : Many G N s p w []
  | more {p : Position} {w v : List Char} {a : α} {as : List α} (h : G p w (v ++ s) a)
    (hne : w ≠ []) (hv : Many G N s (p.pastAll w) v as) : Many G N s p (w ++ v) (a :: as)

lemma many_succ_apply (step : Scan (Option α)) (n : ℕ) (c : Cursor) :
    many step (n + 1) c = match step c with
      | .error e => .error e
      | .ok (none, c') => .ok ([], c')
      | .ok (some a, c') => (many step n c').map fun r => (a :: r.1, r.2) := by
  rw [many, bind_apply]
  rcases step c with e | ⟨_ | a, c'⟩
  · rfl
  · rfl
  · dsimp only
    rw [bind_apply]
    cases many step n c' <;> rfl

/-- What is read in each round, or in the last. -/
def OneOrLast (G : Language α) (N : Position → List Char → List Char → Prop) :
    Language (Option α) := fun p w s o => match o with
  | some a => w ≠ [] ∧ G p w s a
  | none => N p w s

lemma Parses.many_sound (hstep : Parses Anything step (OneOrLast G N) Follow') {n : ℕ}
    {t : List Char} {c : Cursor} (hn : t.length < n) (h : many step n ⟨t, p⟩ = .ok (as, c)) :
    ∃ w s, t = w ++ s ∧ c = ⟨s, p.pastAll w⟩ ∧ Many G N s p w as := by
  -- on the rounds; they do not run out, as every value passes a character
  induction n generalizing t p as with
  | zero => cases hn
  | succ n ih =>
    rw [many_succ_apply] at h
    rcases hc : step ⟨t, p⟩ with e | ⟨_ | a, c'⟩
    · rw [hc] at h
      cases h
    · rw [hc] at h
      cases h
      obtain ⟨w, s, rfl, rfl, hw⟩ := hstep.sound trivial hc
      exact ⟨w, s, rfl, rfl, .last hw⟩
    · obtain ⟨w, t, rfl, rfl, hne, hw⟩ := hstep.sound trivial hc
      rw [hc] at h
      have hlength : t.length < n := by
        have := List.length_pos_iff.mpr hne
        rw [List.length_append] at hn
        omega
      dsimp only at h
      rcases hrest : many step n ⟨t, p.pastAll w⟩ with e | ⟨bs, c'⟩
      · rw [hrest] at h
        cases h
      · rw [hrest] at h
        cases h
        obtain ⟨v, s, rfl, rfl, hv⟩ := ih hlength hrest
        exact ⟨w ++ v, s, by simp, by rw [pastAll_append], .more hw hne hv⟩

lemma Parses.many_complete (hstep : Parses Anything step (OneOrLast G N) Follow')
    (hlast : ∀ s, Follow s → Follow' s)
    (hmore : ∀ p w v s a as, G p w (v ++ s) a → Many G N s (p.pastAll w) v as → Follow s →
      Follow' (v ++ s)) {n : ℕ} (h : Many G N s p w as) (hs : Follow s) (hn : w.length < n) :
    many step n ⟨w ++ s, p⟩ = .ok (as, ⟨s, p.pastAll w⟩) := by
  induction h generalizing n with
  | @last p w hw =>
    obtain ⟨n, rfl⟩ := Nat.exists_eq_add_one_of_ne_zero (Nat.ne_zero_of_lt hn)
    have hnone : OneOrLast G N p w s none := hw
    rw [many_succ_apply, hstep.complete hnone (hlast s hs)]
  | @more p w v a as hw hne hv ih =>
    obtain ⟨n, rfl⟩ := Nat.exists_eq_add_one_of_ne_zero (Nat.ne_zero_of_lt hn)
    have hsome : OneOrLast G N p w (v ++ s) (some a) := ⟨hne, hw⟩
    have hlength : v.length < n := by
      have := List.length_pos_iff.mpr hne
      rw [List.length_append] at hn
      omega
    rw [List.append_assoc, many_succ_apply, hstep.complete hsome (hmore _ _ _ _ _ _ hw hv hs),
      pastAll_append]
    dsimp only
    rw [ih hlength]
    rfl

/-- A repetition parses the texts of a language one after another, where what follows each of them
does not go on with it. There are rounds enough, as each but the last passes a character. -/
theorem Parses.many (hstep : Parses Anything step (OneOrLast G N) Follow')
    (hlast : ∀ s, Follow s → Follow' s)
    (hmore : ∀ p w v s a as, G p w (v ++ s) a → Many G N s (p.pastAll w) v as → Follow s →
      Follow' (v ++ s)) :
    Parses Anything (look manyRounds >>= fun n => many step n) (fun p w s as => Many G N s p w as)
      Follow where
  sound _ h := hstep.many_sound (Nat.lt_succ_self _) h
  complete {p w s as} h hs :=
    hstep.many_complete hlast hmore h hs (by simp [manyRounds])

end

lemma digitAfter_iff (x : Char) (t : List Char) (p : Position) :
    Cursor.digitAfter ⟨t, p⟩ x = true ↔ Opens x StartsDigit t := by
  cases t with
  | nil => simp [Cursor.digitAfter, Cursor.peek, Opens]
  | cons c t =>
    cases t <;> simp [Cursor.digitAfter, Cursor.digitAt, Cursor.peekAt, Cursor.peek, Opens,
      StartsDigit]

lemma Opens.head? {x : Char} {P : List Char → Prop} {t : List Char} (h : Opens x P t) :
    t.head? = some x := by
  obtain ⟨r, rfl, -⟩ := h
  rfl

lemma digitAt_iff (t : List Char) (p : Position) :
    Cursor.digitAt ⟨t, p⟩ 0 = true ↔ StartsDigit t := by
  cases t <;> simp [Cursor.digitAt, Cursor.peekAt, StartsDigit]

lemma Parses.ite_digit {Begin Follow : List Char → Prop} {x y : Scan α} {G : Language α}
    (hx : Parses Begin x G Follow) (hy : Parses Begin y (fun _ _ _ _ => False) Follow)
    (hG : ∀ p w s a, G p w s a → StartsDigit (w ++ s)) :
    Parses Begin (look (·.digitAt 0) >>= fun b => if b = true then x else y) G Follow := by
  refine (Parses.ite_look _ digitAt_iff (hx.weaken (fun _ h => h.1) fun _ h => h)
    (hy.weaken (fun _ h => h.1) fun _ h => h) (fun p w s a hg _ => hG p w s a hg)
    (fun _ _ _ _ h => h.elim)).congr fun _ _ _ _ => by rw [or_false]

lemma Parses.ite_digitAfter {Begin Follow : List Char → Prop} {x y : Scan α} {G H : Language α}
    {c : Char} (hx : Parses StartsDigit x G Follow) (hy : Parses Begin y H Follow)
    (hG : ∀ p w s a, G p w s a → Follow s → StartsDigit (w ++ s))
    (hH : ∀ p w s a, H p w s a → Follow s → ¬ Opens c StartsDigit (w ++ s)) :
    Parses Begin (look (·.digitAfter c) >>= fun b => if b = true then
      move Cursor.advance >>= fun _ => x else y)
      (fun p w s a => (∃ v, w = c :: v ∧ G (p.past c) v s a) ∨ H p w s a) Follow := by
  refine .ite_look _ (digitAfter_iff c) ((hx.bind_advance c).weaken ?_ ?_)
    (hy.weaken ?_ ?_) ?_ hH
  · exact fun _ h => h.2
  · exact fun _ h => h
  · exact fun _ h => h.1
  · exact fun _ h => h
  · rintro p _ s a ⟨v, rfl, hg⟩ hs
    exact ⟨v ++ s, rfl, hG _ _ _ _ hg hs⟩

/-- A word may end in front of this text: at the end, before a blank or before a comment that opens
with a slash. -/
def Separates (s : List Char) : Prop :=
  ∀ c r, s = c :: r → isBlank c ∨ (c = '/' ∧ (r.head? = some '/' ∨ r.head? = some '*'))

lemma atSeparator_iff (s : List Char) (p : Position) :
    Cursor.atSeparator ⟨s, p⟩ = true ↔ Separates s := by
  cases s with
  | nil => simp [Cursor.atSeparator, Separates]
  | cons c s =>
    rw [atSeparator_cons]
    constructor
    · rintro h _ _ ⟨⟩
      exact h
    · intro h
      exact h c s rfl

namespace Separates

variable {s : List Char}

lemma head?_ne (hs : Separates s) {c : Char} (hblank : isBlank c = false) (hslash : c ≠ '/') :
    s.head? ≠ some c := by
  intro h
  obtain ⟨r, rfl⟩ := List.head?_eq_some_iff.mp h
  obtain h | h := hs c r rfl
  · rw [hblank] at h
    cases h
  · exact hslash h.1

lemma noDigit (hs : Separates s) : NoDigit s := by
  cases s with
  | nil => simp [NoDigit]
  | cons c r =>
    obtain h | ⟨rfl, -⟩ := hs c r rfl
    · exact (ends_cons h r).noDigit
    · simp [NoDigit]

lemma not_opens (hs : Separates s) : ¬ Opens '/' StartsDigit s := by
  rintro ⟨_, rfl, d, r, rfl, hd⟩
  obtain h | ⟨-, h | h⟩ := hs _ _ rfl
  · exact absurd h (by decide)
  · obtain rfl : d = '/' := by simpa using h
    exact absurd hd (by decide)
  · obtain rfl : d = '*' := by simpa using h
    exact absurd hd (by decide)

end Separates

/-- A decimal does not go on here. -/
structure EndsDecimal (s : List Char) : Prop where
  noDigit : NoDigit s
  noPoint : s.head? ≠ some '.'

lemma parses_fraction (whole : List Char) : Parses Anything
    (look (·.digitAfter '.') >>= fun b => if b = true then
      move Cursor.advance >>= fun _ => digits >>= fun ds => pure ⟨whole, ds⟩
      else pure ⟨whole, []⟩)
    (fun _ w _ (d : Decimal) => d.whole = whole ∧ (∀ c ∈ d.fraction, c.isDigit) ∧
      w = if d.fraction.isEmpty then [] else '.' :: d.fraction) EndsDecimal := by
  have hpure (ds : List Char) : Parses Anything (pure ⟨whole, ds⟩ : Scan Decimal)
      (fun _ w _ d => w = [] ∧ d = ⟨whole, ds⟩) EndsDecimal 
    := parses_pure _
  have hpoint : Parses StartsDigit (digits >>= fun ds => pure (⟨whole, ds⟩ : Decimal))
      (fun _ w _ d => d = ⟨whole, w⟩ ∧ w ≠ [] ∧ ∀ c ∈ w, c.isDigit) EndsDecimal := by
    refine (parses_digits_start.bind hpure (fun _ _ _ _ _ => trivial) ?_).congr ?_
    · rintro p _ _ s ds _ - ⟨rfl, -⟩ hs
      exact hs.noDigit
    · intro p w s d
      constructor
      · rintro ⟨_, _, ds, rfl, ⟨rfl, hne, hds⟩, rfl, rfl⟩
        simpa using ⟨hne, hds⟩
      · rintro ⟨rfl, hne, hds⟩
        exact ⟨w, [], w, by simp, ⟨rfl, hne, hds⟩, rfl, rfl⟩
  refine (hpoint.ite_digitAfter (hpure []) ?_ ?_).congr ?_
  · rintro p w s d ⟨-, hne, hds⟩ hs
    obtain ⟨c, ds, rfl⟩ := List.exists_cons_of_ne_nil hne
    exact ⟨c, ds ++ s, rfl, hds c List.mem_cons_self⟩
  · rintro p _ s d ⟨rfl, -⟩ hs hpoint
    exact hs.noPoint hpoint.head?
  · rintro p w s ⟨front, behind⟩
    constructor
    · rintro (⟨v, rfl, hd, hne, hds⟩ | ⟨rfl, hd⟩)
      · obtain ⟨rfl, rfl⟩ := Decimal.mk.inj hd
        exact ⟨rfl, hds, by simp [hne]⟩
      · obtain ⟨rfl, rfl⟩ := Decimal.mk.inj hd
        simp
    · rintro ⟨rfl, hds, rfl⟩
      cases behind with
      | nil => exact .inr ⟨rfl, rfl⟩
      | cons c behind => exact .inl ⟨_, rfl, rfl, by simp, hds⟩

/-- The digits in front of the point are read as the first run of digits is. -/
lemma parses_decimal_of {Begin : List Char → Prop} {D : List Char → Prop}
    (h : Parses Begin digits (fun _ w _ ds => w = ds ∧ D ds ∧ ∀ c ∈ ds, c.isDigit) NoDigit) :
    Parses Begin decimal
      (fun _ w _ d => w = d.text ∧ D d.whole ∧ (∀ c ∈ d.whole, c.isDigit) ∧
        ∀ c ∈ d.fraction, c.isDigit) EndsDecimal := by
  refine (h.bind parses_fraction (fun _ _ _ _ _ => trivial) ?_).congr ?_
  · rintro p u v s ds d ⟨rfl, -, hds⟩ ⟨rfl, -, rfl⟩ hs
    split_ifs with hempty
    · simpa using hs.noDigit
    · intro c hc
      obtain rfl : '.' = c := by simpa using hc
      decide
  · rintro p w s d
    constructor
    · rintro ⟨_, _, _, rfl, ⟨rfl, hD, hds⟩, rfl, hfraction, rfl⟩
      exact ⟨rfl, hD, hds, hfraction⟩
    · rintro ⟨rfl, hD, hds, hfraction⟩
      exact ⟨_, _, _, rfl, ⟨rfl, hD, hds⟩, rfl, hfraction, rfl⟩

lemma parses_decimal : Parses Anything decimal
    (fun _ w _ d => w = d.text ∧ (∀ c ∈ d.whole, c.isDigit) ∧ ∀ c ∈ d.fraction, c.isDigit)
    EndsDecimal := by
  have h : Parses Anything digits (fun _ w _ ds => w = ds ∧ True ∧ ∀ c ∈ ds, c.isDigit) NoDigit :=
    parses_digits.congr fun _ _ _ _ => by simp
  exact (parses_decimal_of (D := fun _ => True) h).congr fun _ _ _ _ => by simp

lemma parses_decimal_start :
    Parses StartsDigit decimal (fun _ w _ d => w = d.text ∧ d.Proper) EndsDecimal :=
  (parses_decimal_of parses_digits_start).congr fun _ _ _ _ =>
    and_congr_right fun _ => ⟨fun h => ⟨h.1, h.2.1, h.2.2⟩, fun h =>
      ⟨h.whole_ne_nil, h.whole_digits, h.fraction_digits⟩⟩

end Barline.Scan
