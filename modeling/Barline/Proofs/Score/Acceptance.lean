import Barline.Proofs.Score.Recognition

/-!
# Which texts are scores

The parser gives elements for a text if and only if the grammar does. Trivia and words take turns;
what the reader asks behind a word, that it ends where words are separated, is what the grammar asks
of the trivia there.
-/

namespace Barline.Score

open Scan Reader

variable {p : Position} {t w s v : List Char} {es : Elements}

lemma DenotesWord.begins (h : DenotesWord ReadAs p w es) : Begins w := by
  have hsign (r : List Char) : Begins ('@' :: r) := ⟨'@', r, rfl, by decide⟩
  cases h with
  | element h =>
    cases h with
    | pitch hn => exact begins_of_mem (.inr (.inr hn.letter)) _
    | velocity _ => exact begins_of_mem (by simp) _
    | velocityRange _ _ _ => exact begins_of_mem (by simp) _
    | duration _ _ => exact begins_of_mem (by simp) _
    | probability _ _ _ => exact begins_of_mem (by simp) _
    | clear => exact hsign _
    | copyPrevious _ => exact hsign _
    | copy _ _ => exact hsign _
  | positions hbar _ =>
    obtain ⟨c, r, hr, hc⟩ | ⟨r, hr, -⟩ := hbar.begins _
    · rw [hr]
      exact begins_of_mem (.inr (.inl hc)) r
    · rw [hr]
      exact begins_of_mem (by simp) r

lemma Begins.append (h : Begins w) (s : List Char) : Begins (w ++ s) := by
  obtain ⟨c, r, rfl, hc⟩ := h
  exact ⟨c, r ++ s, rfl, hc⟩

lemma Begins.solid (h : Begins w) : Solid w := by
  obtain ⟨c, r, rfl, hblank, hhash, hslash⟩ := h
  rintro _ ⟨⟩
  exact ⟨hblank, hhash, fun hc => absurd hc hslash⟩

lemma Words.begins (h : Words ReadAs p w es) : Begins w := by
  cases h with
  | last hw _ _ => exact hw.begins.append _
  | more hw _ _ _ _ => exact hw.begins.append _

/-- A word with the trivia in front of it, where words are separated behind it. -/
def NextWord : Scan.Language Elements := fun p w s es =>
  ∃ t v, w = t ++ v ∧ Trivia t (v ++ s) ∧ DenotesWord ReadAs (p.pastAll t) v es ∧ Separates s

/-- Trivia at the end of a text. -/
def LastTrivia : Position → List Char → List Char → Prop := fun _ w s => Trivia w s ∧ s = []

lemma parses_skipTrivia :
    Parses Anything skipTrivia (fun _ w s _ => Trivia w s ∧ Solid s) Anything where
  sound _ h := by
    obtain ⟨u, v, ht, hc, hu, hv⟩ := skipTrivia_eq_ok.mp h
    exact ⟨u, v, ht, hc, hu, hv⟩
  complete h _ := skipTrivia_eq_ok.mpr ⟨_, _, rfl, rfl, h⟩

lemma parses_wordOrEnd : Parses Anything
    (look Cursor.atEnd >>= fun b => if b = true then pure none
      else word >>= fun es => pure (some es))
    (fun p w s o => (w = [] ∧ o = none ∧ s = []) ∨
      ∃ es, (DenotesWord ReadAs p w es ∧ Separates s) ∧ o = some es) Separates := by
  have hend (t : List Char) (p : Position) : Cursor.atEnd ⟨t, p⟩ = true ↔ t = [] :=
    List.isEmpty_iff
  have hnone : Parses (fun t => Anything t ∧ t = []) (pure none : Scan (Option Elements)) _
      Separates := parses_pure_at none
  have hword := parses_word.bind_still fun es => parses_pure (some es)
  refine (Parses.ite_look _ hend hnone hword.anywhere ?_ ?_).congr ?_
  · rintro p w s o ⟨rfl, -, -, rfl⟩ -
    rfl
  · rintro p w s o ⟨es, ⟨hw, -⟩, -⟩ - h
    exact (hw.begins.append s).ne_nil h
  · intro p w s o
    simp

lemma parses_nextWord : Parses Anything nextWord (OneOrLast NextWord LastTrivia) Separates := by
  unfold nextWord
  refine (parses_skipTrivia.bind (fun _ => parses_wordOrEnd) (fun _ _ _ _ _ => trivial)
    (fun _ _ _ _ _ _ _ _ _ => trivial)).congr ?_
  intro p w s o
  constructor
  · rintro ⟨t, v, -, rfl, ⟨ht, -⟩, ⟨rfl, rfl, rfl⟩ | ⟨es, ⟨hw, hs⟩, rfl⟩⟩
    · rw [List.append_nil]
      exact ⟨ht, rfl⟩
    · exact ⟨by simp [hw.begins.ne_nil], t, v, rfl, ht, hw, hs⟩
  · cases o with
    | none =>
      rintro ⟨ht, rfl⟩
      exact ⟨w, [], (), by simp, ⟨ht, by simp [Solid]⟩, .inl ⟨rfl, rfl, rfl⟩⟩
    | some es =>
      rintro ⟨-, t, v, rfl, ht, hw, hs⟩
      exact ⟨t, v, (), rfl, ⟨ht, (hw.begins.append s).solid⟩, .inr ⟨es, ⟨hw, hs⟩, rfl⟩⟩

lemma parses_elements : Parses Anything elements
    (fun p w s es => ∃ ess, Many NextWord LastTrivia s p w ess ∧ es = ess.flatten) (· = []) := by
  have hlast (s : List Char) (hs : s = []) : Separates s := by simp [hs, Separates]
  have hmore (p : Position) (w v s : List Char) (es : Elements) (ess : List Elements)
      (h : NextWord p w (v ++ s) es) (_ : Many NextWord LastTrivia s (p.pastAll w) v ess)
      (_ : s = []) : Separates (v ++ s) := by
    obtain ⟨_, _, -, -, -, hs⟩ := h
    exact hs
  have hmany := (parses_nextWord.many hlast hmore).bind_still fun ess => parses_pure ess.flatten
  rw [bind_assoc] at hmany
  exact hmany

lemma eq_nil_of_many {ess : List Elements} (h : Many NextWord LastTrivia s p w ess) :
    s = [] := by
  induction h with
  | last h => exact h.2
  | more _ _ _ ih => exact ih

lemma DenotesBeats.not_pitch {bar : Option UInt32} {pitch : UInt8} {q : Position}
    (h : DenotesBeats bar p w es) : ⟨.pitch pitch, q⟩ ∉ es := by
  induction h with
  | last _ => simp
  | more _ _ ih => simpa using ih

section

variable {reads : PitchName → UInt8 → Prop} {pitch : UInt8} {q : Position}

lemma DenotesWord.exists_name (h : DenotesWord reads p w es) (he : ⟨.pitch pitch, q⟩ ∈ es) :
    ∃ n, Named n ∧ reads n pitch ∧ n.chars = w := by
  cases h with
  | element h =>
    obtain ⟨rfl, -⟩ := Located.mk.inj (List.mem_singleton.mp he)
    cases h with
    | pitch hn hpitch => exact ⟨_, hn, hpitch, rfl⟩
  | positions _ hes => exact absurd he hes.not_pitch

lemma Words.exists_name (h : Words reads p w es) (he : ⟨.pitch pitch, q⟩ ∈ es) :
    ∃ n, Named n ∧ reads n pitch ∧ n.chars <:+: w := by
  induction h with
  | last hw _ _ =>
    obtain ⟨n, hn, hpitch, rfl⟩ := hw.exists_name he
    exact ⟨n, hn, hpitch, (List.prefix_append _ _).isInfix⟩
  | @more p w t v es fs hw _ _ _ _ ih =>
    obtain he | he := List.mem_append.mp he
    · obtain ⟨n, hn, hpitch, rfl⟩ := hw.exists_name he
      exact ⟨n, hn, hpitch, (List.prefix_append _ _).isInfix⟩
    · obtain ⟨n, hn, hpitch, hinfix⟩ := ih he
      exact ⟨n, hn, hpitch,
        hinfix.trans ((List.suffix_append t v).trans (List.suffix_append w _)).isInfix⟩

lemma Grammatical.exists_name {text : List Char} (h : Grammatical reads text es)
    (he : ⟨.pitch pitch, q⟩ ∈ es) : ∃ n, Named n ∧ reads n pitch ∧ n.chars <:+: text := by
  cases h with
  | empty _ => cases he
  | words _ hv =>
    obtain ⟨n, hn, hpitch, hinfix⟩ := hv.exists_name he
    exact ⟨n, hn, hpitch, hinfix.trans (List.suffix_append _ _).isInfix⟩

end

end Barline.Score
