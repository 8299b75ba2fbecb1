import Barline.Proofs.Modulation.Pointing
import Barline.Proofs.Modulation.Spacing
import Barline.Proofs.Score.Elements

/-!
# Tokens and the text they stand for

The tokens of a text, each with its own characters, tile the text with trivia between them. Each
stands where its characters begin, one behind another, and the closing token stands behind them all
and nowhere else.
-/

namespace Barline.Modulation.Lexer

open Scan

/-- Pieces tile a text up to the trivia at its end, and the tokens are theirs and the closing one.
-/
structure Tiling (gs : List Piece) (last text : List Char) (ts : Tokens) : Prop where
  text_eq : text = textOf gs ++ last
  trivia_last : Trivia last []
  tokens_eq : ts = tokensFrom .start gs ++ [⟨.finish, .behind text⟩]
  trivia {gs₁ gs₂ : List Piece} {g : Piece} (h : gs = gs₁ ++ g :: gs₂) :
    Trivia g.gap (g.lexeme ++ (textOf gs₂ ++ last))
  ne_nil {gs₁ gs₂ : List Piece} {g : Piece} (h : gs = gs₁ ++ g :: gs₂) : g.lexeme ≠ []
  ne_finish {gs₁ gs₂ : List Piece} {g : Piece} (h : gs = gs₁ ++ g :: gs₂) : g.token ≠ .finish
  /-- A token stands where its own characters begin. -/
  place {gs₁ gs₂ : List Piece} {g : Piece} (h : gs = gs₁ ++ g :: gs₂) :
    ts[gs₁.length]? = some ⟨g.token, .behind (textOf gs₁ ++ g.gap)⟩
  /-- The lexer passes the characters of a token, no less and no more. -/
  read {gs₁ gs₂ : List Piece} {g : Piece} (h : gs = gs₁ ++ g :: gs₂) (p : Position) :
    token ⟨g.lexeme ++ (textOf gs₂ ++ last), p⟩ =
      .ok (g.token, ⟨textOf gs₂ ++ last, p.pastAll g.lexeme⟩)

variable {gs gs₁ gs₂ : List Piece} {g : Piece} {s w last text : List Char} {k : Token}
  {p q : Position} {ts : Tokens}

lemma Lexeme.ne_finish (h : Lexeme w s k) : k ≠ .finish := by
  cases h with
  | symbol hk => exact symbol_ne_finish hk
  | _ => exact nofun

lemma Cut.cutOff (h : Cut gs s) (hg : gs = gs₁ ++ g :: gs₂) : g.CutOff (textOf gs₂ ++ s) := by
  rw [hg, cut_append] at h
  exact h.2.1

@[simp] lemma length_tokensFrom (p : Position) (gs : List Piece) :
    (tokensFrom p gs).length = gs.length := by
  simpa using congrArg List.length (map_value_tokensFrom p gs)

lemma tiling_of_cut (h : Cut gs last) (hlast : Trivia last []) :
    Tiling gs last (textOf gs ++ last)
      (tokensFrom .start gs ++ [⟨.finish, .behind (textOf gs ++ last)⟩]) where
  text_eq := rfl
  trivia_last := hlast
  tokens_eq := rfl
  trivia hg := (h.cutOff hg).trivia
  ne_nil hg := (h.cutOff hg).lexeme.ne_nil
  ne_finish hg := (h.cutOff hg).lexeme.ne_finish
  place {gs₁ gs₂ g} hg := by
    have hplace : Position.start.pastAll (textOf gs₁ ++ g.gap) = .behind (textOf gs₁ ++ g.gap) :=
      pastAll_behind [] _
    rw [hg, tokensFrom_append, List.append_assoc, List.getElem?_append_right (by simp)]
    simp [tokensFrom, ← hplace, pastAll_append]
  read hg p := token_complete (h.cutOff hg).lexeme p

/-- Pieces tile every text that has tokens. -/
theorem exists_tiling (h : tokenize text = .ok ts) : ∃ gs last, Tiling gs last text ts := by
  obtain ⟨gs, last, rfl, hgs, hlast, rfl⟩ := tokenize_eq_ok_iff.mp h
  have hbehind : Position.start.pastAll (textOf gs ++ last) = .behind (textOf gs ++ last) :=
    pastAll_behind [] _
  rw [hbehind]
  exact ⟨gs, last, tiling_of_cut hgs hlast⟩

lemma increasing_tokensFrom (hgs : ∀ g ∈ gs, g.lexeme ≠ []) (p : Position)
    (hq : (p.pastAll (textOf gs)).key ≤ q.key) :
    (tokensFrom p gs ++ [⟨.finish, q⟩] : Tokens).Pairwise
      fun t u => t.position.key < u.position.key := by
  induction gs generalizing p with
  | nil => exact List.pairwise_singleton _ _
  | cons g gs ih =>
    have hpast : (p.pastAll (g.gap ++ g.lexeme)).pastAll (textOf gs) =
        p.pastAll (textOf (g :: gs)) := by simp [pastAll_append]
    refine List.pairwise_cons.mpr ⟨fun t ht => ?_, ih (fun x hx => hgs x (.tail g hx)) _ ?_⟩
    · have hg : (p.pastAll g.gap).key < (p.pastAll (g.gap ++ g.lexeme)).key := by
        rw [pastAll_append]
        exact Position.key_lt_pastAll _ (hgs g (.head gs))
      refine hg.trans_le ?_
      obtain ht | ht := List.mem_append.mp ht
      · obtain ⟨front, x, back, -, rfl⟩ := mem_tokensFrom ht
        exact Position.key_le_pastAll _ _
      · obtain rfl := List.mem_singleton.mp ht
        exact (Position.key_le_pastAll _ (textOf gs)).trans (hpast ▸ hq)
    · rwa [hpast]

variable (h : Tiling gs last text ts)
include h

/-- The tokens stand one behind another. -/
theorem Tiling.increasing : ts.Pairwise fun t u => t.position.key < u.position.key := by
  rw [h.tokens_eq]
  have hbehind : Position.behind text = .pastAll (.pastAll .start (textOf gs)) last := by
    rw [h.text_eq, ← pastAll_append]
    exact (pastAll_behind [] _).symm
  refine increasing_tokensFrom (fun g hg => ?_) .start ?_
  · obtain ⟨gs₁, gs₂, hsplit⟩ := List.append_of_mem hg
    exact h.ne_nil hsplit
  · rw [hbehind]
    exact Position.key_le_pastAll _ last

/-- No token but the last one closes the list. -/
theorem Tiling.ends : ∃ front, ts = front ++ [⟨.finish, .behind text⟩] ∧
    ∀ t ∈ front, t.value ≠ .finish := by
  refine ⟨_, h.tokens_eq, fun t ht => ?_⟩
  obtain ⟨gs₁, g, gs₂, hsplit, rfl⟩ := mem_tokensFrom ht
  exact h.ne_finish hsplit

end Barline.Modulation.Lexer
