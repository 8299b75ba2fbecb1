import Barline.Proofs.Text.Parsing

/-!
# Lines of a text

Both languages read a text as values between trivia. A text that is read to its end is closed by a
newline, in a comment too, and the values of a line below it are read as they are where the line
stands alone.
-/

namespace Barline

/-- The region in another place. -/
def Region.moved (f : Position → Position) : Region → Region
  | .plain => .plain
  | .line => .line
  | .opening began => .opening (f began)
  | .block began => .block (f began)
  | .closing => .closing

namespace Scan

variable {t : Setting}

/-- Trivia that ends before the text does ends there in another place, too. -/
lemma skip_place (region : Region) (w : List Char) (p : Position)
    (h : (region.skip w p).cursor.rest ≠ [] ∨ t.behind = []) :
    (region.moved t.move).skip (w ++ t.behind) (t.move p) =
      ⟨t.place (region.skip w p).cursor, (region.skip w p).unclosed.map t.move⟩ := by
  have hhead {w : List Char} {x : Char} (hx : isBlank x = false) :
      (w ++ t.behind).head? = some x ↔ w.head? = some x := t.place_head?_eq_some hx
  have hslash {w : List Char} := hhead (w := w) (by decide : isBlank '/' = false)
  have hstar {w : List Char} := hhead (w := w) (by decide : isBlank '*' = false)
  induction w generalizing region p with
  | nil =>
    have hbehind : t.behind = [] := h.resolve_left fun hne => hne (by cases region <;> rfl)
    rw [List.nil_append, hbehind]
    cases region <;> simp [Region.skip, Region.moved, Setting.place, hbehind, Region.unclosed]
  | cons c w ih =>
    cases region <;>
      simp only [List.cons_append, Region.moved, Region.skip, hslash, hstar] at h ⊢ <;>
      rw [← t.move_past]
    case plain =>
      split_ifs at h ⊢
      · exact ih .plain (p.past c) h
      · exact ih .line (p.past c) h
      · exact ih (.opening p) (p.past c) h
      · rfl
    case line =>
      split_ifs at h ⊢
      · exact ih .plain (p.past c) h
      · exact ih .line (p.past c) h
    case opening began => exact ih (.block began) (p.past c) h
    case block began =>
      split_ifs at h ⊢
      · exact ih .closing (p.past c) h
      · exact ih (.block began) (p.past c) h
    case closing => exact ih .plain (p.past c) h

lemma skip_newline (region : Region) (w : List Char) (p : Position)
    (h : (region.skip w p).cursor.rest = []) (hclosed : (region.skip w p).unclosed = none)
    (hclosing : region = .closing → w ≠ []) (b : List Char) :
    region.skip (w ++ '\n' :: b) p =
      Region.plain.skip b ((region.skip w p).cursor.position.past '\n') := by
  induction w generalizing region p with
  | nil =>
    have hblank : isBlank '\n' := by decide
    cases region with
    | plain => simp [Region.skip, hblank]
    | line => simp [Region.skip]
    | opening began => cases hclosed
    | block began => cases hclosed
    | closing => exact absurd rfl (hclosing rfl)
  | cons c w ih =>
    have hslash : (w ++ '\n' :: b).head? = some '/' ↔ w.head? = some '/' := by
      cases w <;> simp
    have hstar : (w ++ '\n' :: b).head? = some '*' ↔ w.head? = some '*' := by
      cases w <;> simp
    cases region <;> simp only [List.cons_append, Region.skip, hslash, hstar] at h hclosed ⊢
    case plain =>
      split_ifs at h hclosed ⊢
      · exact ih .plain (p.past c) h hclosed (by simp)
      · exact ih .line (p.past c) h hclosed (by simp)
      · exact ih (.opening p) (p.past c) h hclosed (by simp)
    case line =>
      split_ifs at h hclosed ⊢
      · exact ih .plain (p.past c) h hclosed (by simp)
      · exact ih .line (p.past c) h hclosed (by simp)
    case opening began => exact ih (.block began) (p.past c) h hclosed (by simp)
    case block began =>
      split_ifs at h hclosed ⊢ with hcloses
      · refine ih .closing (p.past c) h hclosed fun _ hnil => ?_
        simp [hnil] at hcloses
      · exact ih (.block began) (p.past c) h hclosed (by simp)
    case closing => exact ih .plain (p.past c) h hclosed (by simp)

lemma length_skip_le (region : Region) (w : List Char) (p : Position) :
    (region.skip w p).cursor.rest.length ≤ w.length := by
  induction w generalizing region p with
  | nil => cases region <;> simp [Region.skip]
  | cons c w ih =>
    have ih (region : Region) : (region.skip w (p.past c)).cursor.rest.length ≤ w.length + 1 :=
      (ih region (p.past c)).trans (Nat.le_succ _)
    cases region <;> simp only [Region.skip, List.length_cons]
    case plain => split_ifs <;> simp [ih]
    case line => split_ifs <;> exact ih _
    case opening began => exact ih _
    case block began => split_ifs <;> exact ih _
    case closing => exact ih _

lemma skipTrivia_place {c : Cursor} (h : c.skipTrivia.cursor.rest ≠ [] ∨ t.behind = []) :
    (t.place c).skipTrivia =
      ⟨t.place c.skipTrivia.cursor, c.skipTrivia.unclosed.map t.move⟩ := skip_place .plain _ _ h

variable {α : Type} {x : Scan α} {moved : (Position → Position) → α → α} {c c' : Cursor}

/-- A value after trivia, unless the text ends there. -/
def afterTrivia (x : Scan α) : Scan (Option α) := do
  skipTrivia
  if ← look Cursor.atEnd then return none else return some (← x)

/-- A scan that reads the same value wherever its text stands, apart from positions in the value,
and that passes a character at least. -/
structure Portable (x : Scan α) (moved : (Position → Position) → α → α) : Prop where
  carries : ∀ (t : Setting) {c : Cursor}, c.rest ≠ [] →
    CarriesAt t (c.rest.length - 1) (fun a b => b = moved t.move a) x x c
  moved_id : ∀ a, moved id a = a

lemma afterTrivia_apply (x : Scan α) (c : Cursor) :
    afterTrivia x c = match c.skipTrivia.unclosed with
      | some began => .error (.unclosedComment began)
      | none =>
        if c.skipTrivia.cursor.atEnd then .ok (none, c.skipTrivia.cursor)
        else (x c.skipTrivia.cursor).map fun r => (some r.1, r.2) := by
  unfold afterTrivia
  rw [bind_apply]
  unfold skipTrivia
  dsimp only
  cases c.skipTrivia.unclosed with
  | some began => rfl
  | none =>
    change ((look Cursor.atEnd >>= _) c.skipTrivia.cursor) = _
    rw [bind_apply]
    unfold look
    dsimp only
    split_ifs
    · rfl
    · rw [bind_apply]
      cases x c.skipTrivia.cursor <;> rfl

lemma afterTrivia_of_skip (hskip : c.skipTrivia = ⟨c', none⟩) (hne : c'.rest ≠ []) :
    afterTrivia x c = (x c').map fun r => (some r.1, r.2) := by
  rw [afterTrivia_apply, hskip]
  exact if_neg fun hend => hne (List.isEmpty_iff.mp hend)

/-- Where text stands behind the trivia, a value is read from it and then what follows. -/
lemma many_afterTrivia_of_ok {d : Cursor} {a : α} (hskip : c.skipTrivia = ⟨c', none⟩)
    (hne : c'.rest ≠ []) (hread : x c' = .ok (a, d)) (n : ℕ) :
    many (afterTrivia x) (n + 1) c = (many (afterTrivia x) n d).map fun r => (a :: r.1, r.2) := by
  rw [many_succ_apply, afterTrivia_of_skip hskip hne, hread]
  rfl

lemma many_afterTrivia_of_error {e : Error} (hskip : c.skipTrivia = ⟨c', none⟩)
    (hne : c'.rest ≠ []) (hread : x c' = .error e) (n : ℕ) :
    many (afterTrivia x) (n + 1) c = .error e := by
  rw [many_succ_apply, afterTrivia_of_skip hskip hne, hread]
  rfl

lemma afterTrivia_eq_some {a : α} (h : afterTrivia x c = .ok (some a, c')) :
    c.skipTrivia.cursor.rest ≠ [] ∧ x c.skipTrivia.cursor = .ok (a, c') := by
  rw [afterTrivia_apply] at h
  cases hunclosed : c.skipTrivia.unclosed with
  | some began =>
    rw [hunclosed] at h
    cases h
  | none =>
    rw [hunclosed] at h
    dsimp only at h
    split_ifs at h with hend
    · cases h
    · refine ⟨fun hnil => hend (List.isEmpty_iff.mpr hnil), ?_⟩
      cases hx : x c.skipTrivia.cursor with
      | error e =>
        rw [hx] at h
        cases h
      | ok r =>
        rw [hx] at h
        cases h
        rfl

lemma afterTrivia_eq_none (h : afterTrivia x c = .ok (none, c')) :
    c.skipTrivia.unclosed = none ∧ c.skipTrivia.cursor.rest = [] ∧ c' = c.skipTrivia.cursor := by
  rw [afterTrivia_apply] at h
  cases hunclosed : c.skipTrivia.unclosed with
  | some began =>
    rw [hunclosed] at h
    cases h
  | none =>
    rw [hunclosed] at h
    dsimp only at h
    split_ifs at h with hend
    · cases h
      exact ⟨rfl, List.isEmpty_iff.mp hend, rfl⟩
    · cases hx : x c.skipTrivia.cursor with
      | error e =>
        rw [hx] at h
        cases h
      | ok r =>
        rw [hx] at h
        cases h

namespace Portable

variable (hx : Portable x moved)
include hx

/-- A value that is not at the end of a text, or any value if nothing stands behind. -/
lemma carries_afterTrivia (h : c.skipTrivia.cursor.rest ≠ [] ∨ t.behind = []) :
    CarriesAt t c.rest.length (Option.Rel fun a b => b = moved t.move a) (afterTrivia x)
      (afterTrivia x) c := by
  have hle : c.skipTrivia.cursor.rest.length ≤ c.rest.length := length_skip_le .plain _ _
  unfold CarriesAt
  rw [afterTrivia_apply, afterTrivia_apply, skipTrivia_place h]
  cases c.skipTrivia.unclosed with
  | some began => exact fun _ => rfl
  | none =>
    dsimp only [Option.map_none]
    by_cases hnil : c.skipTrivia.cursor.rest = []
    · have hbehind := h.resolve_left fun hne => hne hnil
      have hend : c.skipTrivia.cursor.atEnd = true := List.isEmpty_iff.mpr hnil
      have hend' : (t.place c.skipTrivia.cursor).atEnd = true := by
        simp [Cursor.atEnd, Setting.place, hnil, hbehind]
      rw [if_pos hend, if_pos hend']
      exact ⟨hle, none, rfl, .none⟩
    · have hend : ¬ c.skipTrivia.cursor.atEnd = true := fun he => hnil (List.isEmpty_iff.mp he)
      have hend' : ¬ (t.place c.skipTrivia.cursor).atEnd = true := by
        simp [Cursor.atEnd, Setting.place, hnil]
      have hcarries := hx.carries t hnil
      rw [if_neg hend, if_neg hend']
      unfold CarriesAt at hcarries
      cases hc : x c.skipTrivia.cursor with
      | error e =>
        rw [hc] at hcarries
        intro hbehind
        rw [hcarries hbehind]
        rfl
      | ok r =>
        rw [hc] at hcarries
        obtain ⟨hn, b, hb, hR⟩ := hcarries
        rw [hb]
        exact ⟨by omega, some b, rfl, .some hR⟩

lemma afterTrivia_passes (c : Cursor) (a : α) (c' : Cursor)
    (h : afterTrivia x c = .ok (some a, c')) : c'.rest.length < c.rest.length := by
  obtain ⟨hne, hread⟩ := afterTrivia_eq_some h
  have hle : c.skipTrivia.cursor.rest.length ≤ c.rest.length := length_skip_le .plain _ _
  have hstrict := hx.carries .stay hne
  unfold CarriesAt at hstrict
  rw [hread] at hstrict
  have hlt := hstrict.1
  have hpos := List.length_pos_iff.mpr hne
  omega

end Portable

lemma afterTrivia_newline (h : afterTrivia x c = .ok (none, c')) (b : List Char) :
    afterTrivia x ⟨c.rest ++ '\n' :: b, c.position⟩ =
      afterTrivia x ⟨b, c'.position.past '\n'⟩ := by
  obtain ⟨hclosed, hnil, rfl⟩ := afterTrivia_eq_none h
  have hskip : Cursor.skipTrivia ⟨c.rest ++ '\n' :: b, c.position⟩ =
      Cursor.skipTrivia ⟨b, c.skipTrivia.cursor.position.past '\n'⟩ :=
    skip_newline .plain _ _ hnil hclosed (by simp) b
  rw [afterTrivia_apply, afterTrivia_apply, hskip]

/-- The text goes on with a line behind it. -/
def beforeLine (b : List Char) : Setting :=
  { Setting.stay with behind := '\n' :: b, ends := ends_cons rfl b }

namespace Portable

variable (hx : Portable x moved)
include hx

lemma afterTrivia_beforeLine {a : α} (h : afterTrivia x c = .ok (some a, c')) (b : List Char) :
    afterTrivia x ⟨c.rest ++ '\n' :: b, c.position⟩ =
      .ok (some a, ⟨c'.rest ++ '\n' :: b, c'.position⟩) := by
  have hcarries := hx.carries_afterTrivia (t := beforeLine b) (.inl (afterTrivia_eq_some h).1)
  unfold CarriesAt at hcarries
  rw [h] at hcarries
  obtain ⟨-, o, ho, hR⟩ := hcarries
  cases hR with
  | some ha =>
    rw [ha, show (beforeLine b).move = id from rfl, hx.moved_id] at ho
    exact ho

/-- The values of a text with one more line are those of the text and then those of the line. -/
lemma many_line (b : List Char) {n m : ℕ} {as : List α}
    (h : many (afterTrivia x) n c = .ok (as, c')) (hn : c.rest.length < n)
    (hm : (c.rest ++ '\n' :: b).length < m) :
    ∃ k, b.length < k ∧ many (afterTrivia x) m ⟨c.rest ++ '\n' :: b, c.position⟩ =
      (many (afterTrivia x) k ⟨b, c'.position.past '\n'⟩).map fun r => (as ++ r.1, r.2) := by
  -- on the rounds; the line is reached when a round finds the end of the text
  induction n generalizing m c as with
  | zero => omega
  | succ n ih =>
    obtain ⟨m, rfl⟩ : ∃ k, m = k + 1 := ⟨m - 1, by omega⟩
    rw [many_succ_apply] at h
    rcases hc : afterTrivia x c with e | ⟨_ | a, d⟩
    · rw [hc] at h
      cases h
    · rw [hc] at h
      cases h
      refine ⟨m + 1, by simp at hm ⊢; omega, ?_⟩
      rw [many_succ_apply, afterTrivia_newline hc b, ← many_succ_apply]
      rcases many (afterTrivia x) (m + 1) ⟨b, c'.position.past '\n'⟩ with e | r <;> rfl
    · rw [hc] at h
      dsimp only at h
      cases hrest : many (afterTrivia x) n d with
      | error e =>
        rw [hrest] at h
        cases h
      | ok r =>
        rw [hrest] at h
        cases h
        have hlt := hx.afterTrivia_passes c a d hc
        obtain ⟨k, hk, hmany⟩ := ih hrest (m := m) (by omega) (by simp at hm ⊢; omega)
        refine ⟨k, hk, ?_⟩
        rw [many_succ_apply, hx.afterTrivia_beforeLine hc b]
        dsimp only
        rw [hmany]
        cases many (afterTrivia x) k ⟨b, _⟩ <;> rfl

/-- The values of a text are read as they are wherever it stands with nothing behind. -/
lemma many_elsewhere (ht : t.behind = []) {b : List Char} {k : ℕ} (hk : b.length < k) :
    many (afterTrivia x) k (t.place (.start b)) =
      match many (afterTrivia x) (b.length + 1) (.start b) with
      | .ok (as, c) => .ok (as.map (moved t.move), t.place c)
      | .error e => .error (e.moved t.move) := by
  have hcarries := carries_many (t := t) (c := .start b) (n := b.length + 1) (m := k)
    (fun c => hx.carries_afterTrivia (.inr ht)) hx.afterTrivia_passes (Nat.lt_succ_self _)
    (by simpa [Setting.place, ht, Cursor.start] using hk)
  unfold CarriesAt at hcarries
  cases hmany : many (afterTrivia x) (b.length + 1) (.start b) with
  | error e =>
    rw [hmany] at hcarries
    exact hcarries ht
  | ok r =>
    rw [hmany] at hcarries
    obtain ⟨-, bs, hbs, hR⟩ := hcarries
    rw [hbs, eq_map_of_forall₂ hR]

/-- **One text below another.** Below a text that is read to its end, the values of a line are read
as they are where it stands alone, only that they stand where the line does. -/
theorem many_below {a : List Char} {as : List α}
    (ha : many (afterTrivia x) (a.length + 1) (.start a) = .ok (as, c)) (ht : t.behind = [])
    (hstart : t.move .start = c.position.past '\n') (b : List Char) :
    many (afterTrivia x) ((a ++ '\n' :: b).length + 1) (.start (a ++ '\n' :: b)) =
      match many (afterTrivia x) (b.length + 1) (.start b) with
      | .ok (bs, d) => .ok (as ++ bs.map (moved t.move), t.place d)
      | .error e => .error (e.moved t.move) := by
  obtain ⟨k, hk, hline⟩ := hx.many_line b ha (Nat.lt_succ_self _) (Nat.lt_succ_self _)
  have hplace : t.place (.start b) = ⟨b, c.position.past '\n'⟩ := by
    simp [Setting.place, Cursor.start, ht, hstart]
  refine hline.trans ?_
  rw [← hplace, hx.many_elsewhere ht hk]
  rcases many (afterTrivia x) (b.length + 1) (.start b) with e | ⟨bs, d⟩ <;> rfl

end Portable

end Scan

end Barline
