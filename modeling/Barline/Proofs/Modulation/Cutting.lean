import Barline.Proofs.Modulation.Lexemes

/-!
# How a text is cut into tokens

Each token has trivia in front of it, the shortest there can be, and a lexeme of its own. The pieces
tile the text up to the trivia at its end.
-/

namespace Barline.Modulation.Lexer

open Scan

/-- A token with its lexeme and the trivia in front of it. -/
structure Piece where
  gap : List Char
  lexeme : List Char
  token : Token

/-- The text that pieces tile. -/
def textOf (gs : List Piece) : List Char := gs.flatMap fun g => g.gap ++ g.lexeme

/-- The tokens of pieces that begin at a position. -/
def tokensFrom : Position → List Piece → Tokens
  | _, [] => []
  | p, g :: gs => ⟨g.token, p.pastAll g.gap⟩ :: tokensFrom (p.pastAll (g.gap ++ g.lexeme)) gs

/-- A piece is cut off in front of a text. -/
structure Piece.CutOff (g : Piece) (s : List Char) : Prop where
  trivia : Trivia g.gap (g.lexeme ++ s)
  solid : Solid (g.lexeme ++ s)
  lexeme : Lexeme g.lexeme s g.token

/-- Pieces are cut off one after another, the last one in front of a text. -/
def Cut : List Piece → List Char → Prop
  | [], _ => True
  | g :: gs, s => g.CutOff (textOf gs ++ s) ∧ Cut gs s

section

variable {g : Piece} {gs hs : List Piece} {s t gap : List Char} {p : Position} {ts : Tokens}
  {c : Cursor}

@[simp] lemma textOf_nil : textOf [] = [] := rfl

@[simp] lemma textOf_cons (g : Piece) (gs : List Piece) :
    textOf (g :: gs) = g.gap ++ (g.lexeme ++ textOf gs) := by simp [textOf]

@[simp] lemma textOf_append (gs hs : List Piece) : textOf (gs ++ hs) = textOf gs ++ textOf hs :=
  List.flatMap_append ..

lemma tokensFrom_append (p : Position) (gs hs : List Piece) : tokensFrom p (gs ++ hs) =
    tokensFrom p gs ++ tokensFrom (p.pastAll (textOf gs)) hs := by
  induction gs generalizing p with
  | nil => rfl
  | cons g gs ih => simp [tokensFrom, ih, pastAll_append]

lemma map_value_tokensFrom (p : Position) (gs : List Piece) :
    (tokensFrom p gs).map (·.value) = gs.map (·.token) := by
  induction gs generalizing p with
  | nil => rfl
  | cons g gs ih => simp [tokensFrom, ih]

lemma cut_append : Cut (gs ++ hs) s ↔ Cut gs (textOf hs ++ s) ∧ Cut hs s := by
  induction gs with
  | nil => simp [Cut]
  | cons g gs ih => simp [Cut, ih, and_assoc]

lemma Cut.length_le (h : Cut gs s) : gs.length ≤ (textOf gs).length := by
  induction gs with
  | nil => simp
  | cons g gs ih =>
    have hg := List.length_pos_iff.mpr h.1.lexeme.ne_nil
    have hgs := ih h.2
    simp only [List.length_cons, textOf_cons, List.length_append]
    omega

lemma located_apply (c : Cursor) :
    located c = (token c).map fun r => (⟨r.1, c.position⟩, r.2) := by
  unfold located
  rw [bind_apply]
  dsimp only [here]
  rw [bind_apply]
  rcases token c with e | r <;> rfl

lemma nextToken_cutOff (h : g.CutOff s) (p : Position) :
    nextToken ⟨g.gap ++ (g.lexeme ++ s), p⟩ =
      .ok (some ⟨g.token, p.pastAll g.gap⟩, ⟨s, p.pastAll (g.gap ++ g.lexeme)⟩) := by
  have hskip : Cursor.skipTrivia ⟨g.gap ++ (g.lexeme ++ s), p⟩ = _ :=
    Region.skip_complete h.trivia h.solid
  have hne : g.lexeme ++ s ≠ [] := List.append_ne_nil_of_left_ne_nil h.lexeme.ne_nil s
  rw [nextToken_eq_afterTrivia, afterTrivia_of_skip hskip hne, located_apply,
    token_complete h.lexeme, pastAll_append]
  rfl

lemma nextToken_end (h : Trivia gap []) (p : Position) :
    nextToken ⟨gap, p⟩ = .ok (none, ⟨[], p.pastAll gap⟩) := by
  have hsolid : Solid [] := by simp [Solid]
  have hskip : Cursor.skipTrivia ⟨gap ++ [], p⟩ = _ := Region.skip_complete h hsolid
  rw [List.append_nil] at hskip
  rw [nextToken_eq_afterTrivia, afterTrivia_apply, hskip]
  rfl

/-- The next token is cut off, or there is nothing but trivia. -/
lemma nextToken_sound {o : Option (Located Token)} (h : nextToken ⟨t, p⟩ = .ok (o, c)) :
    (o = none ∧ c = ⟨[], p.pastAll t⟩ ∧ Trivia t []) ∨
      ∃ (g : Piece) (s : List Char), o = some ⟨g.token, p.pastAll g.gap⟩ ∧
        c = ⟨s, p.pastAll (g.gap ++ g.lexeme)⟩ ∧ t = g.gap ++ (g.lexeme ++ s) ∧ g.CutOff s := by
  have hregion : Cursor.skipTrivia ⟨t, p⟩ = Region.plain.skip t p := rfl
  rw [nextToken_eq_afterTrivia, afterTrivia_apply, hregion] at h
  rcases hskip : Region.plain.skip t p with ⟨d, _ | began⟩
  · obtain ⟨gap, v, rfl, rfl, hgap, hv⟩ := Region.skip_sound hskip nofun
    rw [hskip] at h
    dsimp only at h
    cases v with
    | nil =>
      cases h
      exact .inl ⟨rfl, by simp, by simpa [Region.Passes] using hgap⟩
    | cons x v =>
      rw [if_neg (by simp [Cursor.atEnd]), located_apply] at h
      rcases htoken : token ⟨x :: v, p.pastAll gap⟩ with e | ⟨k, d⟩
      · rw [htoken] at h
        cases h
      · rw [htoken] at h
        cases h
        obtain ⟨w, s, hws, rfl, hw⟩ := token_sound htoken
        rw [hws] at hgap hv ⊢
        exact .inr ⟨⟨gap, w, k⟩, s, rfl, by rw [pastAll_append], rfl, hgap, hv, hw⟩
  · rw [hskip] at h
    cases h

lemma many_cut (h : Cut gs s) (n : ℕ) (p : Position) :
    many nextToken (gs.length + n) ⟨textOf gs ++ s, p⟩ =
      (many nextToken n ⟨s, p.pastAll (textOf gs)⟩).map fun r => (tokensFrom p gs ++ r.1, r.2) := by
  induction gs generalizing p with
  | nil =>
    rw [List.length_nil, Nat.zero_add]
    change many nextToken n ⟨s, p⟩ = (many nextToken n ⟨s, p⟩).map id
    rcases many nextToken n ⟨s, p⟩ with e | r <;> rfl
  | cons g gs ih =>
    have hrounds : (g :: gs).length + n = gs.length + n + 1 := by
      rw [List.length_cons]
      omega
    have htext : textOf (g :: gs) ++ s = g.gap ++ (g.lexeme ++ (textOf gs ++ s)) := by simp
    have hpast : p.pastAll (textOf (g :: gs)) =
        (p.pastAll (g.gap ++ g.lexeme)).pastAll (textOf gs) := by simp [pastAll_append]
    rw [hrounds, htext, many_succ_apply, nextToken_cutOff h.1, hpast]
    dsimp only
    rw [ih h.2]
    rcases many nextToken n _ with e | r <;> rfl

lemma many_whole {last : List Char} (h : Cut gs last) (hlast : Trivia last []) {n : ℕ}
    (hn : gs.length < n) (p : Position) : many nextToken n ⟨textOf gs ++ last, p⟩ =
      .ok (tokensFrom p gs, ⟨[], p.pastAll (textOf gs ++ last)⟩) := by
  obtain ⟨m, rfl⟩ : ∃ m, n = gs.length + (m + 1) := ⟨n - gs.length - 1, by omega⟩
  rw [many_cut h, many_succ_apply, nextToken_end hlast, pastAll_append]
  simp [Except.map]

lemma many_sound {n : ℕ} (hn : t.length < n) (h : many nextToken n ⟨t, p⟩ = .ok (ts, c)) :
    ∃ gs last, t = textOf gs ++ last ∧ Cut gs last ∧ Trivia last [] ∧ ts = tokensFrom p gs ∧
      c = ⟨[], p.pastAll t⟩ := by
  induction n generalizing t p ts with
  | zero => omega
  | succ n ih =>
    rw [many_succ_apply] at h
    rcases hnext : nextToken ⟨t, p⟩ with e | ⟨o, d⟩
    · rw [hnext] at h
      cases h
    rw [hnext] at h
    obtain ⟨rfl, rfl, ht⟩ | ⟨g, s, rfl, rfl, rfl, hg⟩ := nextToken_sound hnext
    · cases h
      exact ⟨[], t, rfl, trivial, ht, rfl, rfl⟩
    · dsimp only at h
      rcases hmany : many nextToken n ⟨s, p.pastAll (g.gap ++ g.lexeme)⟩ with e | ⟨ts, d⟩
      · rw [hmany] at h
        cases h
      · rw [hmany] at h
        cases h
        have hlength : s.length < n := by
          have hpos := List.length_pos_iff.mpr hg.lexeme.ne_nil
          simp only [List.length_append] at hn
          omega
        obtain ⟨gs, last, rfl, hgs, hlast, rfl, rfl⟩ := ih hlength hmany
        refine ⟨g :: gs, last, by simp, ⟨hg, hgs⟩, hlast, rfl, ?_⟩
        simp [pastAll_append]

lemma tokens_apply (t : List Char) (p : Position) : tokens ⟨t, p⟩ =
    (many nextToken (t.length + 1) ⟨t, p⟩).map
      fun r => (r.1 ++ [⟨.finish, r.2.position⟩], r.2) := by
  change (many nextToken (t.length + 1) >>= fun ts => here >>= fun q =>
    pure (ts ++ [⟨.finish, q⟩]) : Scan Tokens) ⟨t, p⟩ = _
  rw [bind_apply]
  rcases many nextToken (t.length + 1) ⟨t, p⟩ with e | r <;> rfl

/-- **Cutting a text into tokens.** A text has tokens if and only if it is tiled by pieces up to the
trivia at its end, and then they are the tokens of these pieces and the closing one. -/
theorem tokens_eq_ok_iff : tokens ⟨t, p⟩ = .ok (ts, c) ↔
    ∃ gs last, t = textOf gs ++ last ∧ Cut gs last ∧ Trivia last [] ∧
      ts = tokensFrom p gs ++ [⟨.finish, p.pastAll t⟩] ∧ c = ⟨[], p.pastAll t⟩ := by
  rw [tokens_apply]
  constructor
  · intro h
    rcases hmany : many nextToken (t.length + 1) ⟨t, p⟩ with e | ⟨us, d⟩
    · rw [hmany] at h
      cases h
    · rw [hmany] at h
      cases h
      obtain ⟨gs, last, rfl, hgs, hlast, rfl, rfl⟩ := many_sound (Nat.lt_succ_self _) hmany
      exact ⟨gs, last, rfl, hgs, hlast, rfl, rfl⟩
  · rintro ⟨gs, last, rfl, hgs, hlast, rfl, rfl⟩
    have hrounds : gs.length < (textOf gs ++ last).length + 1 := by
      have hle := hgs.length_le
      rw [List.length_append]
      omega
    rw [many_whole hgs hlast hrounds]
    rfl

/-- The tokens of pieces stand in front of those of the text behind them. -/
lemma tokens_cut (h : Cut gs s) (hts : tokens ⟨s, p.pastAll (textOf gs)⟩ = .ok (ts, c)) :
    tokens ⟨textOf gs ++ s, p⟩ = .ok (tokensFrom p gs ++ ts, c) := by
  obtain ⟨hs, last, rfl, hcut, hlast, rfl, rfl⟩ := tokens_eq_ok_iff.mp hts
  have hpast := pastAll_append p (textOf gs) (textOf hs ++ last)
  refine tokens_eq_ok_iff.mpr ⟨gs ++ hs, last, by simp, cut_append.mpr ⟨h, hcut⟩, hlast, ?_, ?_⟩
  · rw [tokensFrom_append, hpast, List.append_assoc]
  · rw [hpast]

end

end Lexer

theorem tokenize_eq_ok_iff {text : List Char} {ts : Tokens} : tokenize text = .ok ts ↔
    ∃ gs last, text = Lexer.textOf gs ++ last ∧ Lexer.Cut gs last ∧ Trivia last [] ∧
      ts = Lexer.tokensFrom .start gs ++ [⟨.finish, Position.start.pastAll text⟩] := by
  change (Lexer.tokens ⟨text, .start⟩).map (·.1) = .ok ts ↔ _
  constructor
  · intro h
    rcases htokens : Lexer.tokens ⟨text, .start⟩ with e | ⟨us, c⟩
    · rw [htokens] at h
      cases h
    · rw [htokens] at h
      cases h
      obtain ⟨gs, last, htext, hgs, hlast, hts, -⟩ := Lexer.tokens_eq_ok_iff.mp htokens
      exact ⟨gs, last, htext, hgs, hlast, hts⟩
  · rintro ⟨gs, last, htext, hgs, hlast, hts⟩
    rw [Lexer.tokens_eq_ok_iff.mpr ⟨gs, last, htext, hgs, hlast, hts, rfl⟩]
    rfl

end Barline.Modulation
