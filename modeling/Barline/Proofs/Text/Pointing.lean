import Mathlib
import Barline.Proofs.Text.Comments

/-!
# Where an error points

A position counts the newlines in front of it and the characters since the last of them. A reader
that stays inside of a text reports what stands at the position that it names, so for every reader
it is enough to say where it goes on and with which errors it may end.
-/

namespace Barline

/-- The position behind a text. -/
def Position.behind (before : List Char) : Position :=
  ⟨before.count '\n' + 1, (before.rtakeWhile (· ≠ '\n')).length + 1⟩

lemma behind_concat (before : List Char) (c : Char) :
    Position.behind (before ++ [c]) = (Position.behind before).past c := by
  unfold Position.behind Position.past
  by_cases hc : c = '\n'
  · have htake : (before ++ [c]).rtakeWhile (· ≠ '\n') = [] :=
      List.rtakeWhile_concat_neg _ _ _ (by simp [hc])
    rw [htake, if_pos hc, hc, List.count_append]
    rfl
  · have htake : (before ++ [c]).rtakeWhile (· ≠ '\n') = before.rtakeWhile (· ≠ '\n') ++ [c] :=
      List.rtakeWhile_concat_pos _ _ _ (by simp [hc])
    rw [htake, if_neg hc, List.count_append, List.length_append, List.count_singleton]
    simp [hc]

lemma pastAll_behind (before cs : List Char) :
    (Position.behind before).pastAll cs = .behind (before ++ cs) := by
  induction cs generalizing before with
  | nil => rw [List.append_nil]; rfl
  | cons c cs ih =>
    change ((Position.behind before).past c).pastAll cs = _
    rw [← behind_concat, ih, List.append_assoc]
    rfl

/-- A character stands in a text at a position. -/
def CharAt (text : List Char) (p : Position) (c : Char) : Prop :=
  ∃ before after, text = before ++ c :: after ∧ p = .behind before

lemma pastAll_after (p : Position) (cs : List Char) :
    p.line < (p.pastAll cs).line ∨
      p.line = (p.pastAll cs).line ∧ p.column + cs.length ≤ (p.pastAll cs).column := by
  induction cs generalizing p with
  | nil => exact .inr ⟨rfl, le_rfl⟩
  | cons c cs ih =>
    have hcons : p.pastAll (c :: cs) = (p.past c).pastAll cs := rfl
    have hrest := ih (p.past c)
    rw [hcons, List.length_cons]
    by_cases hc : c = '\n'
    · have hline : (p.past c).line = p.line + 1 := by rw [Position.past, if_pos hc]
      omega
    · have hpast : p.past c = ⟨p.line, p.column + 1⟩ := if_neg hc
      rw [hpast] at hrest ⊢
      dsimp only at hrest
      omega

lemma pastAll_ne (p : Position) {cs : List Char} (hcs : cs ≠ []) : p.pastAll cs ≠ p := by
  intro h
  have hafter := pastAll_after p cs
  have hlength := List.length_pos_iff.mpr hcs
  rw [h] at hafter
  omega

/-- A text is told from its other beginnings by the position behind it. -/
lemma eq_of_pastAll_eq {p : Position} {u u' v v' : List Char} (htext : u ++ v = u' ++ v')
    (hp : p.pastAll u = p.pastAll u') : u = u' := by
  have hnil {w more : List Char} (h : (p.pastAll w).pastAll more = p.pastAll w) : more = [] := by
    by_contra hne
    exact pastAll_ne _ hne h
  obtain ⟨more, rfl, -⟩ | ⟨more, rfl, -⟩ := List.append_eq_append_iff.mp htext
  · rw [Position.pastAll, Position.pastAll, List.foldl_append] at hp
    rw [hnil hp.symm, List.append_nil]
  · rw [Position.pastAll, Position.pastAll, List.foldl_append] at hp
    rw [hnil hp, List.append_nil]

lemma eq_of_behind_eq {u u' v v' : List Char} (htext : u ++ v = u' ++ v')
    (hp : Position.behind u = .behind u') : u = u' := by
  have hstart (w : List Char) : Position.behind w = Position.start.pastAll w :=
    (pastAll_behind [] w).symm
  rw [hstart, hstart] at hp
  exact eq_of_pastAll_eq htext hp

lemma CharAt.unique {text : List Char} {p : Position} {c c' : Char} (h : CharAt text p c)
    (h' : CharAt text p c') : c = c' := by
  obtain ⟨before, after, rfl, rfl⟩ := h
  obtain ⟨before', after', htext, hp⟩ := h'
  obtain rfl := eq_of_behind_eq htext hp
  exact (List.cons.inj (List.append_cancel_left htext)).1

/-- Some character stands at a position. -/
def Inside (text : List Char) (p : Position) : Prop := ∃ c, CharAt text p c

/-- What a region says of a text where a comment that it has opened is never closed. -/
def Region.StaysOpen : Region → List Char → Prop
  | .opening _, t => ¬ ['*', '/'] <:+: t.tail
  | .block _, t => ¬ ['*', '/'] <:+: t
  | _, _ => False

lemma not_infix_cons {x : Char} {t : List Char} (hx : ¬ (x = '*' ∧ t.head? = some '/'))
    (ht : ¬ ['*', '/'] <:+: t) : ¬ ['*', '/'] <:+: x :: t := by
  rw [List.infix_cons_iff, not_or]
  refine ⟨fun hprefix => hx ?_, ht⟩
  obtain ⟨rfl, tail, rfl⟩ := List.cons_prefix_cons.mp hprefix
  exact ⟨rfl, rfl⟩

/-- Skipping that ends in a comment has either begun in it or come to it through trivia. -/
theorem Region.skip_unclosed {region : Region} {t : List Char} {p q : Position} {c : Cursor}
    (h : region.skip t p = ⟨c, some q⟩) :
    region.unclosed = some q ∧ region.StaysOpen t ∨
      ∃ gap inner, t = gap ++ '/' :: '*' :: inner ∧ q = p.pastAll gap ∧
        region.Passes gap ('/' :: '*' :: inner) ∧ ¬ ['*', '/'] <:+: inner := by
  induction t generalizing region p with
  | nil =>
    cases region with
    | opening began =>
      cases h
      exact .inl ⟨rfl, by simp [StaysOpen]⟩
    | block began =>
      cases h
      exact .inl ⟨rfl, by simp [StaysOpen]⟩
    | _ => cases h
  | cons x t ih =>
    -- whatever the next region comes through, `x` is passed in front of it
    have step {next : Region} (hnext : next.skip t (p.past x) = ⟨c, some q⟩)
        (hopen : next.unclosed = some q → next.StaysOpen t →
          region.unclosed = some q ∧ region.StaysOpen (x :: t))
        (hpass : ∀ u v, t = u ++ v → next.Passes u v → region.Passes (x :: u) v) :
        region.unclosed = some q ∧ region.StaysOpen (x :: t) ∨
          ∃ gap inner, x :: t = gap ++ '/' :: '*' :: inner ∧ q = p.pastAll gap ∧
            region.Passes gap ('/' :: '*' :: inner) ∧ ¬ ['*', '/'] <:+: inner := by
      obtain ⟨hunclosed, hstays⟩ | ⟨gap, inner, ht, hq, hgap, hinner⟩ := ih hnext
      · exact .inl (hopen hunclosed hstays)
      · refine .inr ⟨x :: gap, inner, ?_, hq, hpass gap _ ht hgap, hinner⟩
        rw [ht, List.cons_append]
    cases region with
    | plain =>
      rw [Region.skip] at h
      split_ifs at h with hblank hline hblock
      · exact step h (by rintro ⟨⟩) fun u v _ hu => .blank hblank hu
      · refine step h (by rintro ⟨⟩) fun u v ht hu => ?_
        rcases hline with rfl | ⟨rfl, hhead⟩
        · exact trivia_hash hu
        · exact trivia_slashes hu (ht ▸ hhead)
      · obtain ⟨rfl, hhead⟩ := hblock
        obtain ⟨hunclosed, hstays⟩ | ⟨gap, inner, ht, hq, hgap, hinner⟩ := ih h
        · obtain ⟨inner, rfl⟩ := List.head?_eq_some_iff.mp hhead
          exact .inr ⟨[], inner, rfl, (Option.some.inj hunclosed).symm, .nil, hstays⟩
        · refine .inr ⟨'/' :: gap, inner, ?_, hq, trivia_block hgap (ht ▸ hhead), hinner⟩
          rw [ht, List.cons_append]
      · cases h
    | line =>
      rw [Region.skip] at h
      split_ifs at h with hnewline
      · refine step h (by rintro ⟨⟩) fun u v _ hu => ?_
        subst hnewline
        exact ⟨[], '\n' :: u, rfl, by simp, by simp [LineEnds], .blank (by decide) hu⟩
      · exact step h (by rintro ⟨⟩) fun u v _ hu => passes_line_cons hnewline hu
    | opening began =>
      refine step h (fun hunclosed hstays => ⟨hunclosed, hstays⟩) fun u v _ hu => ?_
      obtain ⟨body, w, rfl, hbody, hw⟩ := hu
      exact ⟨x, body, w, rfl, hbody, hw⟩
    | block began =>
      rw [Region.skip] at h
      split_ifs at h with hclose
      · refine step h (by rintro ⟨⟩) fun u v ht hu => ?_
        obtain ⟨rfl, hhead⟩ := hclose
        exact passes_block_close hu (ht ▸ hhead)
      · refine step h (fun hunclosed hstays => ⟨hunclosed, not_infix_cons hclose hstays⟩)
          fun u v ht hu => passes_block_cons hu (ht ▸ hclose)
    | closing => exact step h (by rintro ⟨⟩) fun u v _ hu => ⟨x, u, rfl, hu⟩

/-- What an error says of a text is true: the character that was found is the one that stands at the
position, a token that was found is shown there, and the end of the input was found behind the last
character, or a comment opens at the position that never closes. A value that was refused stands in
the text. -/
def Error.Points (text : List Char) (opens : Position → Prop) (shows : Position → String → Prop) :
    Error → Prop
  | grammar _ (.char c) p => ∀ c', CharAt text p c' ↔ c' = c
  | grammar _ (.token shown) p => shows p shown
  | grammar _ .endOfInput p => p = .behind text ∨ opens p
  | domain _ position => ∃ p, position = some p ∧ Inside text p

/-- Started where `I` holds, a reader ends where `J` holds of its value, or with an error of which
`E` holds. -/
def Leads {σ α : Type} (E : Error → Prop) (I : σ → Prop) (x : StateT σ (Except Error) α)
    (J : α → σ → Prop) : Prop :=
  ∀ s, I s → match x s with
    | .ok (a, s') => J a s'
    | .error e => E e

namespace Leads

variable {σ α β : Type} {E : Error → Prop} {I I' : σ → Prop} {J J' : α → σ → Prop}
  {K : β → σ → Prop} {x y : StateT σ (Except Error) α} {f : α → StateT σ (Except Error) β}

lemma pure {a : α} (h : ∀ s, I s → J a s) : Leads E I (pure a) J := h

lemma before (hx : Leads E I x J) (hI : ∀ s, I' s → I s) : Leads E I' x J :=
  fun s hs => hx s (hI s hs)

lemma after (hx : Leads E I x J) (hJ : ∀ a s, J a s → J' a s) : Leads E I x J' := by
  intro s hs
  have h := hx s hs
  cases hxs : x s with
  | error e =>
    rw [hxs] at h
    exact h
  | ok r =>
    rw [hxs] at h
    exact hJ _ _ h

theorem bind (hx : Leads E I x J) (hf : ∀ a, Leads E (J a) (f a) K) :
    Leads E I (x >>= f) K := by
  intro s hs
  have h := hx s hs
  change match x s >>= fun r => f r.1 r.2 with
    | .ok (b, s') => K b s'
    | .error e => E e
  cases hxs : x s with
  | error e =>
    rw [hxs] at h
    exact h
  | ok r =>
    rw [hxs] at h
    exact hf r.1 r.2 h

lemma ite {P : Prop} [Decidable P] (hx : P → Leads E I x J) (hy : ¬ P → Leads E I y J) :
    Leads E I (if P then x else y) J := by
  split_ifs with h
  · exact hx h
  · exact hy h

/-- Where only the value of a reader is looked at, its errors are the same. -/
lemma error_of_map {γ : Type} {g : α × σ → γ} {s : σ} {e : Error} (hx : Leads E I x J) (hs : I s)
    (h : (x s).map g = .error e) : E e := by
  have hxs := hx s hs
  cases hread : x s with
  | ok r =>
    rw [hread] at h
    cases h
  | error error =>
    rw [hread] at h hxs
    cases h
    exact hxs

lemma ok_of_map {γ : Type} {g : α × σ → γ} {s : σ} {b : γ} (hx : Leads E I x J) (hs : I s)
    (h : (x s).map g = .ok b) : ∃ a s', g (a, s') = b ∧ J a s' := by
  have hxs := hx s hs
  cases hread : x s with
  | error error =>
    rw [hread] at h
    cases h
  | ok r =>
    rw [hread] at h hxs
    exact ⟨r.1, r.2, Except.ok.inj h, hxs⟩

end Leads

/-- A cursor in a text, with no more than so many characters left. -/
structure Cursor.Within (text : List Char) (n : ℕ) (c : Cursor) : Prop where
  place : ∃ before, text = before ++ c.rest ∧ c.position = .behind before
  length : c.rest.length ≤ n

namespace Cursor.Within

variable {text : List Char} {n : ℕ} {c : Cursor}

lemma start (text : List Char) : (Cursor.start text).Within text text.length :=
  ⟨⟨[], rfl, rfl⟩, le_rfl⟩

lemma advanceBy (h : c.Within text n) (k : ℕ) : (c.advanceBy k).Within text n := by
  obtain ⟨before, htext, hposition⟩ := h.place
  refine ⟨⟨before ++ c.rest.take k, ?_, ?_⟩, ?_⟩
  · rw [htext, List.append_assoc]
    exact congrArg (before ++ ·) (List.take_append_drop k c.rest).symm
  · unfold Cursor.advanceBy
    rw [hposition, pastAll_behind]
  · exact (List.drop_sublist k c.rest).length_le.trans h.length

lemma length_advanceBy {x : Char} {rest : List Char} {p : Position}
    (h : Cursor.Within text (n + 1) ⟨x :: rest, p⟩) (k : ℕ) :
    (Cursor.advanceBy ⟨x :: rest, p⟩ (k + 1)).rest.length ≤ n :=
  (List.drop_sublist k rest).length_le.trans (Nat.le_of_succ_le_succ h.length)

lemma advance_cons {x : Char} {rest : List Char} {p : Position}
    (h : Cursor.Within text n ⟨x :: rest, p⟩) :
    (Cursor.advance ⟨x :: rest, p⟩).Within text rest.length := by
  have hone : Cursor.advance ⟨x :: rest, p⟩ = Cursor.advanceBy ⟨x :: rest, p⟩ 1 := rfl
  exact ⟨hone ▸ (h.advanceBy 1).place, le_rfl⟩

lemma advance (h : c.Within text n) : c.advance.Within text n := by
  obtain ⟨_ | ⟨x, rest⟩, p⟩ := c
  · exact h
  · exact ⟨h.advance_cons.place, (Nat.le_succ _).trans h.length⟩

lemma position_of_nil {p : Position} (h : Cursor.Within text n ⟨[], p⟩) : p = .behind text := by
  obtain ⟨before, rfl, hposition⟩ := h.place
  rw [List.append_nil]
  exact hposition

lemma charAt {x : Char} {rest : List Char} {p : Position}
    (h : Cursor.Within text n ⟨x :: rest, p⟩) : CharAt text p x := by
  obtain ⟨before, htext, hposition⟩ := h.place
  exact ⟨before, rest, htext, hposition⟩

end Cursor.Within

namespace Scan

/-- Inside of a text a reader goes on or says what is true of the text. -/
abbrev Aims {α : Type} (text : List Char) (opens : Position → Prop)
    (shows : Position → String → Prop) (n : ℕ) (x : Scan α) : Prop :=
  Leads (Error.Points text opens shows) (Cursor.Within text n) x fun _ => Cursor.Within text n

section

variable {α β : Type} {text : List Char} {opens : Position → Prop}
  {shows : Position → String → Prop} {n : ℕ} {step : Scan (Option α)}

lemma aims_pure (a : α) : Aims text opens shows n (pure a) := fun _ h => h

lemma leads_look {E : Error → Prop} {I : Cursor → Prop} (view : Cursor → α) :
    Leads E I (look view) fun _ => I := fun _ h => h

lemma leads_view {E : Error → Prop} {I : Cursor → Prop} {J : β → Cursor → Prop}
    {f : α → Scan β} {view : Cursor → α}
    (hf : ∀ a, Leads E (fun c => I c ∧ view c = a) (f a) J) : Leads E I (look view >>= f) J :=
  fun c h => hf (view c) c ⟨h, rfl⟩

lemma aims_advance : Aims text opens shows n (move Cursor.advance) := fun _ h => h.advance

lemma aims_eat (x : Char) : Aims text opens shows n (eat x) := by
  intro c h
  unfold eat Cursor.eat?
  by_cases hpeek : c.peek = some x
  · rw [if_pos hpeek]
    exact h.advance
  · rw [if_neg hpeek]
    exact h

lemma aims_eatWord (word : List Char) : Aims text opens shows n (eatWord word) := by
  intro c h
  unfold eatWord Cursor.eatWord?
  by_cases hprefix : word.isPrefixOf c.rest
  · rw [if_pos hprefix]
    exact h.advanceBy _
  · rw [if_neg hprefix]
    exact h

lemma aims_digits : Aims text opens shows n digits := fun _ h => h.advanceBy _

/-- What is found is what stands at the cursor. -/
lemma leads_expected {J : α → Cursor → Prop} (words : List String) :
    Leads (Error.Points text opens shows) (Cursor.Within text n) (expected words) J := by
  rintro ⟨_ | ⟨x, rest⟩, p⟩ h
  · exact .inl h.position_of_nil
  · exact fun c => ⟨fun hc => hc.unique h.charAt, fun hc => hc ▸ h.charAt⟩

lemma leads_refuse {I : Cursor → Prop} {J : α → Cursor → Prop} (cause : Cause) {p : Position}
    (hp : Inside text p) : Leads (Error.Points text opens shows) I (refuse cause p) J :=
  fun _ _ => ⟨p, rfl, hp⟩

/-- A value that is refused begins inside of the text, as nothing is read at its end. -/
lemma aims_here {f : Position → Scan β}
    (hf : ∀ p, Inside text p → Aims text opens shows n (f p))
    (hend : ∀ p, ∃ words, f p ⟨[], p⟩ = expected words ⟨[], p⟩) :
    Aims text opens shows n (here >>= f) := by
  rintro ⟨_ | ⟨x, rest⟩, p⟩ h
  · obtain ⟨words, hwords⟩ := hend p
    have hexpected : Aims text opens shows n (expected words : Scan β) := leads_expected words
    have hpoints := hexpected _ h
    rw [← hwords] at hpoints
    exact hpoints
  · exact hf p ⟨x, h.charAt⟩ _ h

lemma aims_get {f : Cursor → Scan β}
    (hf : ∀ mark : Cursor, mark.Within text n → Aims text opens shows n (f mark)) :
    Aims text opens shows n (get >>= f) := fun c h => hf c h c h

lemma aims_set {mark : Cursor} (h : mark.Within text n) :
    Aims text opens shows n (set mark : Scan PUnit) := fun _ _ => h

lemma leads_many {E : Error → Prop} {I : Cursor → Prop} (hstep : Leads E I step fun _ => I)
    (k : ℕ) : Leads E I (many step k) fun _ => I := by
  induction k with
  | zero => exact fun _ h => h
  | succ k ih =>
    unfold many
    refine hstep.bind fun o => ?_
    cases o with
    | none => exact fun _ h => h
    | some a => exact ih.bind fun as => fun _ h => h

/-- A round that finds nothing ends behind the text, and any other leaves less of it. -/
def AfterRound (I : ℕ → Cursor → Prop) (Q : α → Prop) (m : ℕ) : Option α → Cursor → Prop
  | none, c => I m c ∧ c.rest = []
  | some a, c => Q a ∧ ∃ l < m, I l c

lemma leads_many_end {E : Error → Prop} {I : ℕ → Cursor → Prop} {Q : α → Prop}
    (hstep : ∀ m, Leads E (I m) step (AfterRound I Q m)) {k m : ℕ} (hk : m < k) :
    Leads E (I m) (many step k) fun as c => (∀ a ∈ as, Q a) ∧ (∃ l, I l c) ∧ c.rest = [] := by
  induction k generalizing m with
  | zero => omega
  | succ k ih =>
    unfold many
    refine (hstep m).bind fun o => ?_
    cases o with
    | none => exact fun c h => ⟨List.forall_mem_nil _, ⟨m, h.1⟩, h.2⟩
    | some a =>
      rintro c ⟨ha, l, hl, hc⟩
      have hlk : l < k := by omega
      refine ((ih hlk).bind fun as => ?_) c hc
      exact .pure fun c h => ⟨List.forall_mem_cons.mpr ⟨ha, h.1⟩, h.2⟩

lemma aims_decimal : Aims text opens shows n decimal := by
  unfold decimal
  refine aims_digits.bind fun whole => (leads_look _).bind fun point => .ite ?_ ?_
  · exact fun _ => aims_advance.bind fun _ => aims_digits.bind fun fraction => aims_pure _
  · exact fun _ => aims_pure _

lemma aims_accidental : Aims text opens shows n accidental := by
  unfold accidental
  refine (leads_look _).bind fun next => ?_
  split
  · exact aims_advance.bind fun _ => aims_pure _
  · exact aims_advance.bind fun _ => aims_pure _
  · exact aims_pure _

end

/-- Where a reader that begins again and again can stand. -/
inductive Reaches {α : Type} (x : Scan α) (c : Cursor) : Cursor → Prop
  | refl : Reaches x c c
  | again {c' c'' : Cursor} {a : α} (h : Reaches x c c') (hx : x c' = .ok (a, c'')) :
    Reaches x c c''

/-- The reader stands there with no more than so many characters left. -/
def Between {α : Type} (x : Scan α) (text : List Char) (n : ℕ) (c : Cursor) : Prop :=
  c.Within text n ∧ Reaches x (.start text) c

/-- Between two readings there is trivia up to the position and then a comment opens that never
closes. -/
def OpensComment {α : Type} (x : Scan α) (text : List Char) (p : Position) : Prop :=
  ∃ front gap inner, text = front ++ (gap ++ '/' :: '*' :: inner) ∧ p = .behind (front ++ gap) ∧
    Reaches x (.start text) ⟨gap ++ '/' :: '*' :: inner, .behind front⟩ ∧
    Trivia gap ('/' :: '*' :: inner) ∧ ¬ ['*', '/'] <:+: inner

section

variable {α : Type} {x : Scan α} {text : List Char} {shows : Position → String → Prop} {n : ℕ}

lemma leads_reaches {E : Error → Prop} {J : α → Cursor → Prop}
    (h : Leads E (Between x text n) x J) :
    Leads E (Between x text n) x fun a c => J a c ∧ Reaches x (.start text) c := by
  rintro c ⟨hc, hreaches⟩
  have hx := h c ⟨hc, hreaches⟩
  cases hxc : x c with
  | error e =>
    rw [hxc] at hx
    exact hx
  | ok r =>
    rw [hxc] at hx
    exact ⟨hx, hreaches.again hxc⟩

lemma leads_skipTrivia :
    Leads (Error.Points text (OpensComment x text) shows) (Between x text n) skipTrivia
      fun _ => Cursor.Within text n := by
  rintro ⟨t, p⟩ ⟨h, hreaches⟩
  have hskip : Cursor.skipTrivia ⟨t, p⟩ = Region.plain.skip t p := rfl
  unfold skipTrivia
  rw [hskip]
  rcases hs : Region.plain.skip t p with ⟨c, _ | q⟩
  · obtain ⟨u, v, rfl, rfl, -, -⟩ := Region.skip_sound hs nofun
    have hpast : (⟨v, p.pastAll u⟩ : Cursor) = Cursor.advanceBy ⟨u ++ v, p⟩ u.length := by
      simp [Cursor.advanceBy]
    dsimp only
    rw [hpast]
    exact h.advanceBy u.length
  · obtain ⟨⟨⟩, -⟩ | ⟨gap, inner, rfl, rfl, hgap, hinner⟩ := Region.skip_unclosed hs
    obtain ⟨front, htext, rfl⟩ := h.place
    exact .inr ⟨front, gap, inner, htext, pastAll_behind front gap, hreaches, hgap, hinner⟩

end

end Scan

end Barline
