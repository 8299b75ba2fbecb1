import Barline.Proofs.Text.Taking

/-!
# What trivia is

Blanks and comments, said without going through the text once: a line comment goes on up to the end
of its line, and a block comment up to the first `*/` after its opening.
-/

namespace Barline

/-- A line ends in front of this text. -/
def LineEnds (s : List Char) : Prop := ∀ c ∈ s.head?, c = '\n'

/-- What opens a line comment. -/
def lineOpenings : List (List Char) := [['#'], ['/', '/']]

/-- The text is trivia in front of another text. -/
inductive Trivia : List Char → List Char → Prop
  | nil {s : List Char} : Trivia [] s
  | blank {c : Char} {w s : List Char} (hc : isBlank c) (hw : Trivia w s) : Trivia (c :: w) s
  | line {opening body w s : List Char} (hopening : opening ∈ lineOpenings) (hbody : '\n' ∉ body)
    (hend : LineEnds (w ++ s)) (hw : Trivia w s) : Trivia (opening ++ (body ++ w)) s
  | block {body w s : List Char} (hbody : ¬ ['*', '/'] <:+: body) (hw : Trivia w s) :
    Trivia ('/' :: '*' :: (body ++ '*' :: '/' :: w)) s

/-- No trivia comes next. -/
def Solid (s : List Char) : Prop :=
  ∀ c ∈ s.head?, isBlank c = false ∧ c ≠ '#' ∧
    (c = '/' → s[1]? ≠ some '/' ∧ s[1]? ≠ some '*')

section

variable {c : Char} {u w s s' ws : List Char}

lemma Trivia.append {t : List Char} (hu : Trivia u t) (ht : t = w ++ s) (hw : Trivia w s) :
    Trivia (u ++ w) s := by
  induction hu with
  | nil => exact hw
  | blank hc _ ih => exact .blank hc (ih ht)
  | @line opening body u t hopening hbody hend hu ih =>
    rw [ht, ← List.append_assoc] at hend
    rw [List.append_assoc, List.append_assoc]
    exact .line hopening hbody hend (ih ht)
  | @block body u t hbody hu ih =>
    have happend : '/' :: '*' :: (body ++ '*' :: '/' :: u) ++ w =
        '/' :: '*' :: (body ++ '*' :: '/' :: (u ++ w)) := by simp
    rw [happend]
    exact .block hbody (ih ht)

lemma Trivia.congr (h : Trivia w s) (hs : LineEnds s → LineEnds s') : Trivia w s' := by
  induction h with
  | nil => exact .nil
  | blank hc _ ih => exact .blank hc (ih hs)
  | @line opening body w s hopening hbody hend _ ih =>
    refine .line hopening hbody ?_ (ih hs)
    cases w with
    | nil => exact hs hend
    | cons x w => simpa [LineEnds] using hend
  | block hbody _ ih => exact .block hbody (ih hs)

lemma Trivia.blanks_append (hws : ∀ c ∈ ws, isBlank c) (h : Trivia w s) : Trivia (ws ++ w) s := by
  induction ws with
  | nil => exact h
  | cons c ws ih =>
    obtain ⟨hc, hws⟩ := List.forall_mem_cons.mp hws
    exact .blank hc (ih hws)

/-- A line comment at the end goes on with a blank, unless that ends the line. -/
lemma Trivia.concat_blank (hc : isBlank c) (h : Trivia w s) (hs : s = []) :
    Trivia (w ++ [c]) [] := by
  induction h with
  | nil => exact .blank hc .nil
  | blank hx _ ih => exact .blank hx (ih hs)
  | @line opening body w s hopening hbody hend hw ih =>
    rw [List.append_assoc, List.append_assoc]
    cases w with
    | cons x w => exact .line hopening hbody (by simpa [LineEnds] using hend) (ih hs)
    | nil =>
      by_cases hline : c = '\n'
      · exact .line hopening hbody (by simp [LineEnds, hline]) (.blank hc .nil)
      · have hgoes : '\n' ∉ body ++ [c] := by simp [hbody, Ne.symm hline]
        rw [List.nil_append, ← List.append_nil (body ++ [c])]
        exact .line hopening hgoes (by simp [LineEnds]) .nil
  | @block body w s hbody hw ih =>
    have htext : '/' :: '*' :: (body ++ '*' :: '/' :: w) ++ [c] =
        '/' :: '*' :: (body ++ '*' :: '/' :: (w ++ [c])) := by simp
    rw [htext]
    exact .block hbody (ih hs)

lemma Trivia.append_blanks (hws : ∀ c ∈ ws, isBlank c) (h : Trivia w []) : Trivia (w ++ ws) [] := by
  induction ws generalizing w with
  | nil => rwa [List.append_nil]
  | cons c ws ih =>
    obtain ⟨hc, hws⟩ := List.forall_mem_cons.mp hws
    have hcons := ih hws (h.concat_blank hc rfl)
    rwa [List.append_assoc] at hcons

lemma Trivia.head_cases {x : Char} (h : Trivia (x :: w) s) : isBlank x ∨ x = '#' ∨ x = '/' := by
  generalize hxw : x :: w = v at h
  cases h with
  | nil => cases hxw
  | blank hc hw =>
    cases hxw
    exact .inl hc
  | @line opening body w s hopening hbody hend hw =>
    simp only [lineOpenings, List.mem_cons, List.not_mem_nil, or_false] at hopening
    rcases hopening with rfl | rfl <;> cases hxw <;> simp
  | block hbody hw =>
    cases hxw
    simp

lemma Trivia.ne_t (h : Trivia w s) {u : List Char} : w ≠ 't' :: u := by
  rintro rfl
  exact absurd h.head_cases (by decide)

end

namespace Region

variable {t u v w s body : List Char} {p : Position}

/-- What is passed from inside a region on, in front of a text. -/
def Passes : Region → List Char → List Char → Prop
  | .plain, u, v => Trivia u v
  | .line, u, v => ∃ body w, u = body ++ w ∧ '\n' ∉ body ∧ LineEnds (w ++ v) ∧ Trivia w v
  | .opening _, u, v =>
    ∃ c body w, u = c :: (body ++ '*' :: '/' :: w) ∧ ¬ ['*', '/'] <:+: body ∧ Trivia w v
  | .block _, u, v => ∃ body w, u = body ++ '*' :: '/' :: w ∧ ¬ ['*', '/'] <:+: body ∧ Trivia w v
  | .closing, u, v => ∃ c w, u = c :: w ∧ Trivia w v

lemma trivia_hash (h : Passes .line u v) : Trivia ('#' :: u) v := by
  obtain ⟨body, w, rfl, hbody, hend, hw⟩ := h
  have hopening : ['#'] ∈ lineOpenings := by simp [lineOpenings]
  exact .line hopening hbody hend hw

lemma trivia_slashes (h : Passes .line u v) (hhead : (u ++ v).head? = some '/') :
    Trivia ('/' :: u) v := by
  obtain ⟨body, w, rfl, hbody, hend, hw⟩ := h
  have hopening : ['/', '/'] ∈ lineOpenings := by simp [lineOpenings]
  cases body with
  | nil => exact absurd (hend '/' (by simpa using hhead)) (by decide)
  | cons c body =>
    obtain rfl : c = '/' := by simpa using hhead
    exact .line hopening (fun h => hbody (List.mem_cons_of_mem _ h)) hend hw

lemma trivia_block {began : Position} (h : Passes (.opening began) u v)
    (hhead : (u ++ v).head? = some '*') : Trivia ('/' :: u) v := by
  obtain ⟨c, body, w, rfl, hbody, hw⟩ := h
  obtain rfl : c = '*' := by simpa using hhead
  exact .block hbody hw

lemma passes_line_cons {x : Char} (hx : x ≠ '\n') (h : Passes .line u v) :
    Passes .line (x :: u) v := by
  obtain ⟨body, w, rfl, hbody, hend, hw⟩ := h
  exact ⟨x :: body, w, rfl, by simp [hx.symm, hbody], hend, hw⟩

lemma passes_block_close {began : Position} (h : Passes .closing u v)
    (hhead : (u ++ v).head? = some '/') : Passes (.block began) ('*' :: u) v := by
  obtain ⟨c, w, rfl, hw⟩ := h
  obtain rfl : c = '/' := by simpa using hhead
  exact ⟨[], w, rfl, by simp, hw⟩

lemma passes_block_cons {began : Position} {x : Char} (h : Passes (.block began) u v)
    (hx : ¬ (x = '*' ∧ (u ++ v).head? = some '/')) : Passes (.block began) (x :: u) v := by
  obtain ⟨body, w, rfl, hbody, hw⟩ := h
  refine ⟨x :: body, w, rfl, ?_, hw⟩
  rw [List.infix_cons_iff, not_or]
  refine ⟨fun hprefix => hx ?_, hbody⟩
  obtain ⟨rfl, tail, rfl⟩ := List.cons_prefix_cons.mp hprefix
  exact ⟨rfl, rfl⟩

lemma solid_cons {x : Char} (hblank : ¬ isBlank x)
    (hline : ¬ (x = '#' ∨ (x = '/' ∧ t.head? = some '/')))
    (hblock : ¬ (x = '/' ∧ t.head? = some '*')) : Solid (x :: t) := by
  rintro _ ⟨⟩
  rw [not_or] at hline
  have hsecond : (x :: t)[1]? = t.head? := by cases t <;> rfl
  rw [hsecond]
  refine ⟨by simpa using hblank, hline.1, fun hx => ⟨fun hs => hline.2 ⟨hx, hs⟩, ?_⟩⟩
  exact fun hs => hblock ⟨hx, hs⟩

/-- What is skipped to get from a region to the end of trivia is what passes there. -/
theorem skip_sound {region : Region} {c : Cursor} (h : region.skip t p = ⟨c, none⟩)
    (hclosing : region = .closing → t ≠ []) :
    ∃ u v, t = u ++ v ∧ c = ⟨v, p.pastAll u⟩ ∧ region.Passes u v ∧ Solid v := by
  induction t generalizing region p with
  | nil =>
    have hnil : Solid [] := by simp [Solid]
    cases region with
    | plain =>
      cases h
      exact ⟨[], [], rfl, rfl, .nil, hnil⟩
    | line =>
      cases h
      exact ⟨[], [], rfl, rfl, ⟨[], [], rfl, by simp, by simp [LineEnds], .nil⟩, hnil⟩
    | opening began => cases h
    | block began => cases h
    | closing => exact absurd rfl (hclosing rfl)
  | cons x t ih =>
    -- whatever the next region passes, `x` is passed in front of it
    have step {next : Region} (hnext : next.skip t (p.past x) = ⟨c, none⟩)
        (hne : next = .closing → t ≠ [])
        (hpass : ∀ u v, t = u ++ v → next.Passes u v → region.Passes (x :: u) v) :
        ∃ u v, x :: t = u ++ v ∧ c = ⟨v, p.pastAll u⟩ ∧ region.Passes u v ∧ Solid v := by
      obtain ⟨u, v, ht, hc, hu, hv⟩ := ih hnext hne
      exact ⟨x :: u, v, by rw [ht, List.cons_append], hc, hpass u v ht hu, hv⟩
    cases region with
    | plain =>
      rw [Region.skip] at h
      split_ifs at h with hblank hline hblock
      · exact step h nofun fun u v _ hu => .blank hblank hu
      · refine step h nofun fun u v ht hu => ?_
        rcases hline with rfl | ⟨rfl, hhead⟩
        · exact trivia_hash hu
        · exact trivia_slashes hu (ht ▸ hhead)
      · refine step h nofun fun u v ht hu => ?_
        obtain ⟨rfl, hhead⟩ := hblock
        exact trivia_block hu (ht ▸ hhead)
      · cases h
        exact ⟨[], x :: t, rfl, rfl, .nil, solid_cons hblank hline hblock⟩
    | line =>
      rw [Region.skip] at h
      split_ifs at h with hnewline
      · refine step h nofun fun u v _ hu => ?_
        subst hnewline
        exact ⟨[], '\n' :: u, rfl, by simp, by simp [LineEnds], .blank (by decide) hu⟩
      · exact step h nofun fun u v _ hu => passes_line_cons hnewline hu
    | opening began =>
      exact step h nofun fun u v _ ⟨body, w, hu, hbody, hw⟩ =>
        ⟨x, body, w, by rw [hu], hbody, hw⟩
    | block began =>
      rw [Region.skip] at h
      split_ifs at h with hclose
      · refine step h (fun _ ht => ?_) fun u v ht hu => ?_
        · simp [ht] at hclose
        · obtain ⟨rfl, hhead⟩ := hclose
          exact passes_block_close hu (ht ▸ hhead)
      · exact step h nofun fun u v ht hu => passes_block_cons hu (ht ▸ hclose)
    | closing => exact step h nofun fun u v _ hu => ⟨x, u, rfl, hu⟩

lemma skip_line (hbody : '\n' ∉ body) (hs : LineEnds s) :
    Region.line.skip (body ++ s) p = Region.plain.skip s (p.pastAll body) := by
  induction body generalizing p with
  | nil =>
    cases s with
    | nil => rfl
    | cons c s =>
      obtain rfl : c = '\n' := hs c (by simp)
      have hblank : isBlank '\n' := by decide
      simp [Region.skip, hblank, Position.pastAll]
  | cons c body ih =>
    rw [List.mem_cons, not_or] at hbody
    rw [List.cons_append, Region.skip, if_neg (Ne.symm hbody.1), ih hbody.2]
    rfl

lemma skip_block {began : Position} (hbody : ¬ ['*', '/'] <:+: body) :
    (Region.block began).skip (body ++ '*' :: '/' :: s) p =
      Region.plain.skip s (p.pastAll (body ++ ['*', '/'])) := by
  induction body generalizing p with
  | nil => simp [Region.skip, Position.pastAll]
  | cons c body ih =>
    rw [List.infix_cons_iff, not_or] at hbody
    have hopen : ¬ (c = '*' ∧ (body ++ '*' :: '/' :: s).head? = some '/') := by
      rintro ⟨rfl, hhead⟩
      cases body with
      | nil => cases hhead
      | cons d body =>
        obtain rfl : d = '/' := by simpa using hhead
        exact hbody.1 (by simp)
    rw [List.cons_append, Region.skip, if_neg hopen, ih hbody.2]
    rfl

lemma skip_solid (hs : Solid s) : Region.plain.skip s p = ⟨⟨s, p⟩, none⟩ := by
  cases s with
  | nil => rfl
  | cons c s =>
    obtain ⟨hblank, hhash, hslash⟩ := hs c (by simp)
    have hsecond : (c :: s)[1]? = s.head? := by cases s <;> rfl
    rw [hsecond] at hslash
    rw [Region.skip, if_neg (by simp [hblank]), if_neg, if_neg]
    · exact fun h => (hslash h.1).2 h.2
    · exact not_or.mpr ⟨hhash, fun h => (hslash h.1).1 h.2⟩

/-- Whatever follows it, trivia is passed. -/
theorem skip_trivia (h : Trivia w s) :
    Region.plain.skip (w ++ s) p = Region.plain.skip s (p.pastAll w) := by
  induction h generalizing p with
  | nil => rfl
  | blank hc hw ih =>
    rw [List.cons_append, Region.skip, if_pos hc, ih]
    rfl
  | @line opening body w s hopening hbody hend hw ih =>
    have hline : Region.plain.skip (opening ++ (body ++ (w ++ s))) p =
        Region.line.skip (body ++ (w ++ s)) (p.pastAll opening) := by
      simp only [lineOpenings, List.mem_cons, List.not_mem_nil, or_false] at hopening
      obtain rfl | rfl := hopening <;> simp [Region.skip, isBlank, blankRanges, Position.pastAll]
    rw [List.append_assoc, List.append_assoc, hline, skip_line hbody hend, ih]
    simp [Position.pastAll]
  | @block body w s hbody hw ih =>
    have hblock : Region.plain.skip ('/' :: '*' :: (body ++ '*' :: '/' :: (w ++ s))) p =
        (Region.block p).skip (body ++ '*' :: '/' :: (w ++ s)) (p.pastAll ['/', '*']) := by
      simp [Region.skip, isBlank, blankRanges, Position.pastAll]
    have happend : '/' :: '*' :: (body ++ '*' :: '/' :: w) ++ s =
        '/' :: '*' :: (body ++ '*' :: '/' :: (w ++ s)) := by simp
    rw [happend, hblock, skip_block hbody, ih]
    simp [Position.pastAll]

theorem skip_complete (h : Trivia w s) (hs : Solid s) :
    Region.plain.skip (w ++ s) p = ⟨⟨s, p.pastAll w⟩, none⟩ := by
  rw [skip_trivia h, skip_solid hs]

end Region

/-- Skipping passes the longest trivia that comes next, and refuses what opens a comment that is
never closed. -/
theorem Scan.skipTrivia_eq_ok {t : List Char} {p : Position} {c : Cursor} :
    skipTrivia ⟨t, p⟩ = .ok ((), c) ↔
      ∃ u v, t = u ++ v ∧ c = ⟨v, p.pastAll u⟩ ∧ Trivia u v ∧ Solid v := by
  have hskip : Cursor.skipTrivia ⟨t, p⟩ = Region.plain.skip t p := rfl
  rw [skipTrivia, hskip]
  constructor
  · intro h
    rcases hs : Region.plain.skip t p with ⟨c', unclosed⟩
    rw [hs] at h
    cases unclosed with
    | some began => cases h
    | none =>
      cases h
      exact Region.skip_sound hs nofun
  · rintro ⟨u, v, rfl, rfl, hu, hv⟩
    rw [Region.skip_complete hu hv]

end Barline
