import Barline.Proofs.Modulation.Cutting
import Barline.Proofs.Modulation.Unplaced

/-!
# Blanks between tokens

Blanks next to a token are trivia of their own. What a token looks for behind its end, a blank is
not, so that each token ends where it did, and no token begins that was not there.
-/

namespace Barline

namespace Modulation.Lexer

open Number Scan
open Score (Named Written)

variable {g : Piece} {gs hs hs' : List Piece} {k : Token} {w s s' ws gap last last' : List Char}

lemma noWord_of_ends (h : Ends s) : NoWord s := fun c hc => isWordChar_of_isBlank (h c hc)

/-- Tokens that end in front of one text end in front of the other. -/
structure KeepsEnds (s s' : List Char) : Prop where
  head : s'.head? = s.head? ∨ Ends s'
  period : Opens 't' NoWord s' → Opens 't' NoWord s
  point : Opens '.' StartsDigit s' → Opens '.' StartsDigit s

namespace KeepsEnds

lemma noDigit (h : KeepsEnds s s') (hs : NoDigit s) : NoDigit s' := by
  rcases h.head with heq | hends
  · rwa [NoDigit, heq]
  · exact hends.noDigit

lemma noWord (h : KeepsEnds s s') (hs : NoWord s) : NoWord s' := by
  rcases h.head with heq | hends
  · rwa [NoWord, heq]
  · exact noWord_of_ends hends

lemma head?_ne (h : KeepsEnds s s') {x : Char} (hx : isBlank x = false) (hs : s.head? ≠ some x) :
    s'.head? ≠ some x := by
  rcases h.head with heq | hends
  · rwa [heq]
  · exact hends.head_ne hx

lemma not_startsDigit (h : KeepsEnds s s') (hs : ¬ StartsDigit s) : ¬ StartsDigit s' := by
  rintro ⟨c, r, rfl, hc⟩
  rcases h.head with heq | hends
  · obtain ⟨r', rfl⟩ := List.head?_eq_some_iff.mp heq.symm
    exact hs ⟨c, r', rfl, hc⟩
  · rw [isDigit_of_isBlank (hends c rfl)] at hc
    cases hc

lemma of_blanks (hws : ∀ c ∈ ws, isBlank c) (s : List Char) : KeepsEnds s (ws ++ s) := by
  cases ws with
  | nil => exact ⟨.inl rfl, id, id⟩
  | cons c ws =>
    have hc : isBlank c := hws c List.mem_cons_self
    refine ⟨.inr (ends_cons hc _), ?_, ?_⟩ <;>
    · rintro ⟨r, hr, -⟩
      obtain rfl := (List.cons.inj hr).1
      exact absurd hc (by decide)

/-- A text in front of both keeps the ends, unless it is a word of a single `t`. -/
lemma append {u : List Char} (h : KeepsEnds s s') (hu : u = ['t'] → NoWord s) :
    KeepsEnds (u ++ s) (u ++ s') := by
  cases u with
  | nil => exact h
  | cons c u =>
    refine ⟨.inl rfl, ?_, ?_⟩
    · rintro ⟨_, ⟨⟩, hword⟩
      refine ⟨u ++ s, rfl, ?_⟩
      cases u with
      | nil => exact hu rfl
      | cons d u => exact fun x hx => hword x hx
    · rintro ⟨_, ⟨⟩, hdigit⟩
      refine ⟨u ++ s, rfl, ?_⟩
      cases u with
      | nil => exact not_not.mp fun hs => h.not_startsDigit hs hdigit
      | cons d u =>
        obtain ⟨_, _, ⟨⟩, hd⟩ := hdigit
        exact ⟨d, u ++ s, rfl, hd⟩

end KeepsEnds

lemma Lexeme.congr (h : Lexeme w s k) (hs : KeepsEnds s s') : Lexeme w s' k := by
  cases h with
  | number hd hstops hperiod =>
    exact .number hd ⟨hs.noDigit hstops.noDigit, fun hnil => mt hs.point (hstops.noPoint hnil)⟩
      (mt hs.period hperiod)
  | period hd hword => exact .period hd (hs.noWord hword)
  | pitch hn hdigit => exact .pitch hn (hs.noDigit hdigit)
  | word hc hw hword => exact .word hc hw (hs.noWord hword)
  | plus hequals => exact .plus (hs.head?_ne (by decide) hequals)
  | plusEquals => exact .plusEquals
  | dot hdigit => exact .dot (hs.not_startsDigit hdigit)
  | symbol hk hc => exact .symbol hk hc

lemma solid_congr (h : Solid (w ++ s)) (hw : w ≠ []) (hs : KeepsEnds s s') : Solid (w ++ s') := by
  obtain ⟨x, w, rfl⟩ := List.exists_cons_of_ne_nil hw
  rintro _ ⟨⟩
  obtain ⟨hblank, hhash, hslash⟩ := h x rfl
  refine ⟨hblank, hhash, fun hx => ?_⟩
  obtain ⟨hline, hblock⟩ := hslash hx
  cases w with
  | nil =>
    simp only [List.singleton_append, List.getElem?_cons_succ, ← List.head?_eq_getElem?] at *
    exact ⟨hs.head?_ne (by decide) hline, hs.head?_ne (by decide) hblock⟩
  | cons y w => exact ⟨hline, hblock⟩

lemma Piece.CutOff.congr (h : g.CutOff s) (hs : KeepsEnds s s') : g.CutOff s' := by
  obtain ⟨x, w, hw⟩ := List.exists_cons_of_ne_nil h.lexeme.ne_nil
  refine ⟨h.trivia.congr ?_, solid_congr h.solid h.lexeme.ne_nil hs, h.lexeme.congr hs⟩
  simp [LineEnds, hw]

lemma Lexeme.noWord (h : Lexeme ['t'] s k) : NoWord s := by
  generalize hw : ['t'] = w at h
  cases h with
  | number hd _ _ =>
    have hbegins := beginsNumber_of_written hd []
    rw [List.append_nil, ← hw] at hbegins
    exact absurd hbegins (not_beginsNumber (by decide) (by decide) [])
  | @period d _ hd _ =>
    have hbegins := beginsNumber_of_written hd []
    have hnil : d.text = [] := by simpa using hw
    rw [List.append_nil, hnil] at hbegins
    simp [BeginsNumber, StartsDigit, Opens] at hbegins
  | pitch hn _ =>
    have hletter := hn.letter
    rw [← (List.cons.inj hw).1] at hletter
    simp at hletter
  | word _ _ hs =>
    exact hs
  | symbol hk _ =>
    obtain rfl := (List.cons.inj hw).1
    cases hk
  | _ => cases hw

/-- What ends in front of pieces does so with other text behind them. -/
lemma Cut.keepsEnds (h : Cut gs s) (hs : KeepsEnds s s') :
    KeepsEnds (textOf gs ++ s) (textOf gs ++ s') := by
  refine hs.append fun ht => ?_
  cases gs with
  | nil => cases ht
  | cons g gs =>
    obtain ⟨hg, -⟩ := h
    rw [textOf_cons] at ht
    have hgap : g.gap = [] := by
      by_contra hne
      obtain ⟨x, gap, hgap⟩ := List.exists_cons_of_ne_nil hne
      rw [hgap, List.cons_append] at ht
      obtain rfl := (List.cons.inj ht).1
      exact hg.trivia.ne_t hgap
    have hlexeme := hg.lexeme
    rw [hgap, List.nil_append, List.append_eq_singleton_iff] at ht
    obtain ⟨hnil, -⟩ | ⟨hword, hrest⟩ := ht
    · exact absurd hnil hlexeme.ne_nil
    · rw [hword, hrest] at hlexeme
      exact hlexeme.noWord

lemma Cut.congr (h : Cut gs s) (hs : KeepsEnds s s') : Cut gs s' := by
  induction gs with
  | nil => trivial
  | cons g gs ih => exact ⟨h.1.congr (h.2.keepsEnds hs), ih h.2⟩

lemma keepsEnds_blanks (h : Trivia gap s) (hws : ∀ c ∈ ws, isBlank c) :
    KeepsEnds (gap ++ s) (gap ++ (ws ++ s)) :=
  (KeepsEnds.of_blanks hws s).append fun ht => absurd ht h.ne_t

lemma Piece.CutOff.not_lineEnds (h : g.CutOff s) : ¬ LineEnds (g.lexeme ++ s) := by
  obtain ⟨x, w, hw⟩ := List.exists_cons_of_ne_nil h.lexeme.ne_nil
  have hsolid := h.solid
  rw [hw] at hsolid ⊢
  intro hends
  obtain rfl : x = '\n' := hends x rfl
  exact absurd (hsolid '\n' rfl).1 (by decide)

lemma Piece.CutOff.concat_blanks (h : g.CutOff s) (hws : ∀ c ∈ ws, isBlank c) :
    (⟨g.gap ++ ws, g.lexeme, g.token⟩ : Piece).CutOff s where
  trivia :=
    have hgap : Trivia g.gap (ws ++ (g.lexeme ++ s)) :=
      h.trivia.congr fun hends => absurd hends h.not_lineEnds
    have hblanks : Trivia ws (g.lexeme ++ s) := by simpa using Trivia.nil.blanks_append hws
    hgap.append rfl hblanks
  solid := h.solid
  lexeme := h.lexeme

lemma Piece.CutOff.blanks_append (h : g.CutOff s) (hws : ∀ c ∈ ws, isBlank c) :
    (⟨ws ++ g.gap, g.lexeme, g.token⟩ : Piece).CutOff s :=
  ⟨h.trivia.blanks_append hws, h.solid, h.lexeme⟩

/-- Blanks in front of all pieces belong to the first gap, or to the trivia at the end. -/
lemma exists_indented (h : Cut gs last) (hlast : Trivia last []) (hws : ∀ c ∈ ws, isBlank c) :
    ∃ hs last', textOf hs ++ last' = ws ++ (textOf gs ++ last) ∧ Cut hs last' ∧ Trivia last' [] ∧
      hs.map (·.token) = gs.map (·.token) := by
  cases gs with
  | nil => exact ⟨[], ws ++ last, rfl, trivial, hlast.blanks_append hws, rfl⟩
  | cons g gs =>
    exact ⟨⟨ws ++ g.gap, g.lexeme, g.token⟩ :: gs, last, by simp, ⟨h.1.blanks_append hws, h.2⟩,
      hlast, rfl⟩

lemma Cut.replace (h : Cut (gs ++ hs) last) (hhs : Cut hs' last')
    (hends : KeepsEnds (textOf hs ++ last) (textOf hs' ++ last')) : Cut (gs ++ hs') last' :=
  cut_append.mpr ⟨(cut_append.mp h).1.congr hends, hhs⟩

lemma Cut.spaced_before (h : Cut (gs ++ g :: hs) last) (hws : ∀ c ∈ ws, isBlank c) :
    Cut (gs ++ ⟨g.gap ++ ws, g.lexeme, g.token⟩ :: hs) last := by
  obtain ⟨-, hg, hhs⟩ := cut_append.mp h
  have hends := keepsEnds_blanks hg.trivia hws
  exact h.replace ⟨hg.concat_blanks hws, hhs⟩ (by simpa using hends)

lemma Cut.spaced_behind (h : Cut (gs ++ g :: hs) last) (hhs : Cut hs' last')
    (hws : ∀ c ∈ ws, isBlank c) (htext : textOf hs' ++ last' = ws ++ (textOf hs ++ last)) :
    Cut (gs ++ g :: hs') last' := by
  obtain ⟨-, hg, -⟩ := cut_append.mp h
  have hblanks := KeepsEnds.of_blanks hws (textOf hs ++ last)
  rw [← htext] at hblanks
  have hsingle : Cut [g] (textOf hs ++ last) := ⟨hg, trivial⟩
  have hends := hsingle.keepsEnds hblanks
  exact h.replace ⟨hg.congr hblanks, hhs⟩ (by simpa using hends)

lemma mem_tokensFrom {t : Located Token} {p : Position} (h : t ∈ tokensFrom p gs) :
    ∃ front g back, gs = front ++ g :: back ∧
      t = ⟨g.token, p.pastAll (textOf front ++ g.gap)⟩ := by
  induction gs generalizing p with
  | nil => cases h
  | cons g gs ih =>
    obtain rfl | h := List.mem_cons.mp h
    · exact ⟨[], g, gs, rfl, rfl⟩
    · obtain ⟨front, g', back, rfl, rfl⟩ := ih h
      exact ⟨g :: front, g', back, rfl, by simp [pastAll_append]⟩

lemma tokenize_pieces (h : Cut gs last) (hlast : Trivia last []) :
    ∃ ts, tokenize (textOf gs ++ last) = .ok ts ∧
      ts.map (·.value) = gs.map (·.token) ++ [.finish] :=
  ⟨_, tokenize_eq_ok_iff.mpr ⟨gs, last, rfl, h, hlast, rfl⟩, by simp [map_value_tokensFrom]⟩

end Modulation.Lexer

namespace Modulation

open Lexer

/-- Blanks next to a token leave all tokens as they are. -/
theorem tokenize_spaced {text ws : List Char} {ts : Tokens} {t : Located Token}
    (h : tokenize text = .ok ts) (ht : t ∈ ts) (hws : ∀ c ∈ ws, isBlank c) :
    ∃ front w back, text = front ++ (w ++ back) ∧ t.position = .behind front ∧
      Lexer.token ⟨w ++ back, t.position⟩ = .ok (t.value, ⟨back, t.position.pastAll w⟩) ∧
      ∀ text' ∈ [front ++ (ws ++ (w ++ back)), front ++ (w ++ (ws ++ back))],
        ∃ us, tokenize text' = .ok us ∧ us.map (·.value) = ts.map (·.value) := by
  obtain ⟨gs, last, rfl, hgs, hlast, rfl⟩ := tokenize_eq_ok_iff.mp h
  have hbehind (u : List Char) : Position.start.pastAll u = .behind u := pastAll_behind [] u
  rw [List.map_append, map_value_tokensFrom, List.map_singleton]
  obtain ht | ht := List.mem_append.mp ht
  · obtain ⟨front, g, back, rfl, rfl⟩ := mem_tokensFrom ht
    obtain ⟨-, hg, hback⟩ := cut_append.mp hgs
    refine ⟨textOf front ++ g.gap, g.lexeme, textOf back ++ last, by simp, hbehind _,
      token_complete hg.lexeme _, List.forall_mem_cons.mpr ⟨?_, List.forall_mem_singleton.mpr ?_⟩⟩
    · obtain ⟨us, hus, hvalues⟩ := tokenize_pieces (hgs.spaced_before hws) hlast
      exact ⟨us, by simpa using hus, by simpa using hvalues⟩
    · obtain ⟨hs, last', htext, hhs, hlast', htokens⟩ := exists_indented hback hlast hws
      obtain ⟨us, hus, hvalues⟩ := tokenize_pieces (hgs.spaced_behind hhs hws htext) hlast'
      refine ⟨us, ?_, by simpa [htokens] using hvalues⟩
      rw [← htext]
      simpa using hus
  · obtain rfl := List.mem_singleton.mp ht
    have hends := keepsEnds_blanks hlast hws
    simp only [List.append_nil] at hends
    obtain ⟨us, hus, hvalues⟩ :=
      tokenize_pieces (hgs.congr hends) (hlast.append_blanks hws)
    refine ⟨textOf gs ++ last, [], [], by simp, hbehind _, rfl,
      List.forall_mem_cons.mpr ⟨?_, List.forall_mem_singleton.mpr ?_⟩⟩
    all_goals exact ⟨us, by simpa using hus, hvalues⟩

namespace Program

/-- **Blanks between tokens.** Put in front of a token of a text or behind it, blanks leave the
tokens of the text as they are, so that it is read as the same program or refused for the same
reason, up to positions. -/
theorem parse_loosened {text ws : List Char} {ts : Tokens} {t : Located Token}
    (h : tokenize text = .ok ts) (ht : t ∈ ts) (hws : ∀ c ∈ ws, isBlank c) :
    ∃ front w back, text = front ++ (w ++ back) ∧ t.position = .behind front ∧
      Lexer.token ⟨w ++ back, t.position⟩ = .ok (t.value, ⟨back, t.position.pastAll w⟩) ∧
      ∀ text' ∈ [front ++ (ws ++ (w ++ back)), front ++ (w ++ (ws ++ back))],
        (∃ us, tokenize text' = .ok us ∧ us.map (·.value) = ts.map (·.value)) ∧
          unplaced (parse text') = unplaced (parse text) := by
  obtain ⟨front, w, back, htext, hposition, htoken, hspaced⟩ := tokenize_spaced h ht hws
  refine ⟨front, w, back, htext, hposition, htoken, fun text' htext' => ?_⟩
  obtain ⟨us, hus, hvalues⟩ := hspaced text' htext'
  refine ⟨⟨us, hus, hvalues⟩, ?_⟩
  rw [parse, parse, hus, h]
  exact Parse.unplaced_program hvalues

/-- A new line in front of a period or behind it, where the sign and the stroke are. -/
theorem parse_loosened_period :
    let text := "timing+=1t/2//x".toList
    let ws := ['\n']
    let ts : Tokens := [⟨.word "timing", ⟨1, 1⟩⟩, ⟨.plusEquals, ⟨1, 7⟩⟩, ⟨.period 1.0, ⟨1, 9⟩⟩,
      ⟨.slash, ⟨1, 11⟩⟩, ⟨.number 2.0, ⟨1, 12⟩⟩, ⟨.finish, ⟨1, 16⟩⟩]
    tokenize text = .ok ts ∧ ∃ front w back, text = front ++ (w ++ back) ∧
      ⟨1, 9⟩ = Position.behind front ∧
      Lexer.token ⟨w ++ back, ⟨1, 9⟩⟩ = .ok (.period 1.0, ⟨back, Position.pastAll ⟨1, 9⟩ w⟩) ∧
      ∀ text' ∈ [front ++ (ws ++ (w ++ back)), front ++ (w ++ (ws ++ back))],
        (∃ us, tokenize text' = .ok us ∧ us.map (·.value) = ts.map (·.value)) ∧
          unplaced (parse text') = unplaced (parse text) := by
  intro text ws ts
  have htokens : tokenize text = .ok ts := by decide +kernel
  have hmem : ⟨.period 1.0, ⟨1, 9⟩⟩ ∈ ts := by simp [ts]
  have hblank : ∀ c ∈ ws, isBlank c := List.forall_mem_singleton.mpr (by decide)
  exact ⟨htokens, parse_loosened htokens hmem hblank⟩

end Program

end Modulation

end Barline
