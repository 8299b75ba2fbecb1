import Barline.Proofs.Score.Groups

/-!
# Changes among other elements

A change of a parameter is heard if a time position places pitches before the parameter changes
again. Whether it is heard, and whether it can still be, is read off the elements before and after
it, and grows with every further element.
-/

namespace Barline.Score

/-- The parameter that an element changes. -/
def Element.parameter? : Element → Option Parameter
  | .velocity _ | .velocityRange .. => some .velocity
  | .duration _ => some .duration
  | .probability _ => some .probability
  | _ => none

/-- Whether pitches are gathered behind the last of the elements that end what is gathered. -/
def gatheredSince (ends : Element → Bool) (elements : Elements) : Bool :=
  (elements.rtakeWhile fun e => !ends e.value).any (·.value.pitch?.isSome)

/-- Whether a time position behind the elements finds pitches, also such as were placed before. -/
def atHand (elements : Elements) : Bool := gatheredSince Element.drops elements

/-- Whether pitches that were not placed yet wait behind the elements. -/
def waiting (elements : Elements) : Bool := gatheredSince Element.settles elements

/-- Whether an element is a time position that finds pitches. -/
def places (before : Elements) (e : Located Element) : Bool := e.value.isPosition && atHand before

/-- Whether a time position among the elements finds pitches before a parameter changes. -/
def heard (q : Parameter) (before : Elements) : Elements → Bool
  | [] => false
  | e :: elements =>
    e.value.parameter? ≠ some q && (places before e || heard q (before ++ [e]) elements)

section

variable {q : Parameter} {before after elements : Elements} {e f : Located Element}

lemma Element.parameter?_of_change? {e : Element} {perBar : Float} {c : Change}
    (h : e.change? perBar = some c) : e.parameter? = some c.parameter := by
  cases e <;> cases h <;> rfl

lemma Element.of_parameter? {e : Element} (h : e.parameter? = some q) :
    e.pitch? = none ∧ e.isPosition = false ∧ e.settles = false := by
  cases e <;> first | exact ⟨rfl, rfl, rfl⟩ | cases h

lemma Element.parameter?_of_settles {e : Element} (h : e.settles) : e.parameter? = none := by
  cases e <;> first | rfl | cases h

lemma gatheredSince_concat (ends : Element → Bool) (elements : Elements) (e : Located Element) :
    gatheredSince ends (elements ++ [e]) =
      (!ends e.value && (e.value.pitch?.isSome || gatheredSince ends elements)) := by
  unfold gatheredSince
  rw [List.rtakeWhile_concat]
  cases ends e.value <;> simp [Bool.or_comm]

lemma atHand_concat (elements : Elements) (e : Located Element) :
    atHand (elements ++ [e]) =
      (!e.value.drops && (e.value.pitch?.isSome || atHand elements)) :=
  gatheredSince_concat _ elements e

lemma waiting_concat (elements : Elements) (e : Located Element) :
    waiting (elements ++ [e]) =
      (!e.value.settles && (e.value.pitch?.isSome || waiting elements)) :=
  gatheredSince_concat _ elements e

lemma heard_concat (q : Parameter) (before elements : Elements) (f : Located Element) :
    heard q before (elements ++ [f]) = (heard q before elements ||
      elements.all (·.value.parameter? ≠ some q) && f.value.parameter? ≠ some q &&
        places (before ++ elements) f) := by
  induction elements generalizing before with
  | nil => simp [heard]
  | cons e elements ih =>
    rw [List.cons_append, heard, ih, heard, List.all_cons, List.append_assoc]
    cases decide (e.value.parameter? ≠ some q) <;> simp [Bool.or_assoc]

end

/-- What holds of an element at a position, of the elements before it and of those after it. -/
def HoldsAt (P : Elements → Located Element → Elements → Prop) (elements : Elements)
    (position : Position) : Prop :=
  ∃ before e after, elements = before ++ e :: after ∧ e.position = position ∧ P before e after

section

variable {P Q : Elements → Located Element → Elements → Prop} {elements : Elements}
  {position : Position}

lemma holdsAt_nil : ¬ HoldsAt P [] position := by
  rintro ⟨before, e, after, h, -⟩
  exact List.append_ne_nil_of_right_ne_nil before (List.cons_ne_nil e after) h.symm

lemma holdsAt_concat (f : Located Element) :
    HoldsAt P (elements ++ [f]) position ↔
      HoldsAt (fun before e after => P before e (after ++ [f])) elements position ∨
        f.position = position ∧ P elements f [] := by
  constructor
  · rintro ⟨before, e, after, h, hposition, hP⟩
    rcases List.eq_nil_or_concat after with rfl | ⟨after, g, rfl⟩
    · obtain ⟨rfl, hlast⟩ := List.append_inj' h rfl
      obtain rfl := (List.cons.inj hlast).1
      exact .inr ⟨hposition, hP⟩
    · rw [List.concat_eq_append] at h hP
      rw [← List.cons_append, ← List.append_assoc] at h
      obtain ⟨hsplit, hlast⟩ := List.append_inj' h rfl
      obtain rfl := (List.cons.inj hlast).1
      exact .inl ⟨before, e, after, hsplit, hposition, hP⟩
  · rintro (⟨before, e, after, rfl, hposition, hP⟩ | ⟨hposition, hP⟩)
    · exact ⟨before, e, after ++ [f], by simp, hposition, hP⟩
    · exact ⟨elements, f, [], rfl, hposition, hP⟩

lemma holdsAt_congr (h : ∀ before e after, elements = before ++ e :: after →
    (P before e after ↔ Q before e after)) :
    HoldsAt P elements position ↔ HoldsAt Q elements position := by
  constructor
  · rintro ⟨before, e, after, hsplit, hposition, hP⟩
    exact ⟨before, e, after, hsplit, hposition, (h before e after hsplit).mp hP⟩
  · rintro ⟨before, e, after, hsplit, hposition, hQ⟩
    exact ⟨before, e, after, hsplit, hposition, (h before e after hsplit).mpr hQ⟩

lemma holdsAt_and_left (c : Prop) :
    HoldsAt (fun before e after => c ∧ P before e after) elements position ↔
      c ∧ HoldsAt P elements position := by
  constructor
  · rintro ⟨before, e, after, hsplit, hposition, hc, hP⟩
    exact ⟨hc, before, e, after, hsplit, hposition, hP⟩
  · rintro ⟨hc, before, e, after, hsplit, hposition, hP⟩
    exact ⟨before, e, after, hsplit, hposition, hc, hP⟩

lemma holdsAt_or :
    HoldsAt (fun before e after => P before e after ∨ Q before e after) elements position ↔
      HoldsAt P elements position ∨ HoldsAt Q elements position := by
  constructor
  · rintro ⟨before, e, after, hsplit, hposition, hP | hQ⟩
    · exact .inl ⟨before, e, after, hsplit, hposition, hP⟩
    · exact .inr ⟨before, e, after, hsplit, hposition, hQ⟩
  · rintro (⟨before, e, after, hsplit, hposition, hP⟩ | ⟨before, e, after, hsplit, hposition, hQ⟩)
    · exact ⟨before, e, after, hsplit, hposition, .inl hP⟩
    · exact ⟨before, e, after, hsplit, hposition, .inr hQ⟩

/-- Where positions tell elements apart, what holds at the position of one holds of it. -/
lemma holdsAt_iff (hnodup : (elements.map (·.position)).Nodup) {before after : Elements}
    {e : Located Element} (h : elements = before ++ e :: after) :
    HoldsAt P elements e.position ↔ P before e after := by
  constructor
  · rintro ⟨before', e', after', h', hposition, hP⟩
    have hmem : e ∈ elements := by simp [h]
    have hmem' : e' ∈ elements := by simp [h']
    obtain rfl : e' = e := List.inj_on_of_nodup_map hnodup hmem' hmem hposition
    have hone : (before ++ e' :: after).Nodup := h ▸ hnodup.of_map
    rw [List.nodup_middle, List.nodup_cons, List.mem_append, not_or] at hone
    obtain ⟨rfl, -, rfl⟩ :=
      (List.append_cons_inj_of_notMem hone.1.1 hone.1.2).mp (h.symm.trans h')
    exact hP
  · exact fun hP => ⟨before, e, after, h, rfl, hP⟩

end

/-- A change that is not heard before the same parameter changes again. -/
structure Superseded (q : Parameter) (before : Elements) (e : Located Element)
    (after : Elements) : Prop where
  changes : e.value.parameter? = some q
  unheard : heard q (before ++ [e]) after = false
  again : ∃ f ∈ after, f.value.parameter? = some q

/-- The last change of a parameter, if it is not heard so far. -/
structure Standing (q : Parameter) (before : Elements) (e : Located Element)
    (after : Elements) : Prop where
  changes : e.value.parameter? = some q
  unheard : heard q (before ++ [e]) after = false
  last : ∀ f ∈ after, f.value.parameter? ≠ some q

/-- A change that is not heard so far, with no pitches that wait before it and neither pitches nor
changes behind it. -/
structure Trailing (before : Elements) (e : Located Element) (after : Elements) : Prop where
  unheard : ∃ q, e.value.parameter? = some q ∧ heard q (before ++ [e]) after = false
  rests : waiting before = false
  last : ∀ f ∈ after, f.value.pitch? = none ∧ f.value.parameter? = none

section

variable {q : Parameter} {before after elements : Elements} {e f : Located Element}
  {position : Position}

lemma heard_concat_of_last (hlast : ∀ g ∈ after, g.value.parameter? ≠ some q) :
    heard q before (after ++ [f]) = (heard q before after ||
      f.value.parameter? ≠ some q && places (before ++ after) f) := by
  rw [heard_concat, List.all_eq_true.mpr (by simpa using hlast), Bool.true_and]

lemma heard_concat_of_again (hagain : ∃ g ∈ after, g.value.parameter? = some q) :
    heard q before (after ++ [f]) = heard q before after := by
  have hall : after.all (·.value.parameter? ≠ some q) = false := by simpa using hagain
  rw [heard_concat, hall, Bool.false_and, Bool.false_and, Bool.or_false]

lemma superseded_concat :
    Superseded q before e (after ++ [f]) ↔ Superseded q before e after ∨
      f.value.parameter? = some q ∧ Standing q before e after := by
  by_cases hagain : ∃ g ∈ after, g.value.parameter? = some q
  -- behind the next change of the parameter nothing matters any more
  · have hheard : heard q (before ++ [e]) (after ++ [f]) = heard q (before ++ [e]) after :=
      heard_concat_of_again hagain
    constructor
    · intro h
      exact .inl ⟨h.changes, hheard ▸ h.unheard, hagain⟩
    · rintro (h | ⟨-, h⟩)
      · obtain ⟨g, hg, hq⟩ := hagain
        exact ⟨h.changes, hheard.trans h.unheard, g, List.mem_append_left _ hg, hq⟩
      · obtain ⟨g, hg, hq⟩ := hagain
        exact absurd hq (h.last g hg)
  -- otherwise only the new element can be that change
  · have hlast : ∀ g ∈ after, g.value.parameter? ≠ some q := by simpa using hagain
    constructor
    · intro h
      obtain ⟨g, hg, hq⟩ := h.again
      rcases List.mem_append.mp hg with hg | hg
      · exact absurd hq (hlast g hg)
      · obtain rfl := List.mem_singleton.mp hg
        have hunheard := h.unheard
        rw [heard_concat_of_last hlast, Bool.or_eq_false_iff] at hunheard
        exact .inr ⟨hq, h.changes, hunheard.1, hlast⟩
    · rintro (h | ⟨hq, h⟩)
      · exact absurd h.again hagain
      · refine ⟨h.changes, ?_, f, by simp, hq⟩
        rw [heard_concat_of_last hlast, h.unheard, hq]
        simp

lemma standing_concat :
    Standing q before e (after ++ [f]) ↔ (f.value.parameter? ≠ some q ∧
      places (before ++ e :: after) f = false) ∧ Standing q before e after := by
  have hsplit : before ++ [e] ++ after = before ++ e :: after := by simp
  constructor
  · intro h
    obtain ⟨hlast, hf⟩ := List.forall_mem_append.mp h.last
    have hq : f.value.parameter? ≠ some q := hf f (List.mem_singleton_self f)
    have hunheard := h.unheard
    rw [heard_concat_of_last hlast, decide_eq_true hq, Bool.true_and, Bool.or_eq_false_iff,
      hsplit] at hunheard
    exact ⟨⟨hq, hunheard.2⟩, h.changes, hunheard.1, hlast⟩
  · rintro ⟨⟨hq, hplaces⟩, h⟩
    refine ⟨h.changes, ?_, List.forall_mem_append.mpr ⟨h.last, by simpa using hq⟩⟩
    rw [heard_concat_of_last h.last, h.unheard, hsplit, hplaces]
    simp

lemma Trailing.standing (h : Trailing before e after) : ∃ q, Standing q before e after := by
  obtain ⟨q, hq, hunheard⟩ := h.unheard
  refine ⟨q, hq, hunheard, ?_⟩
  intro f hf
  rw [(h.last f hf).2]
  exact (Option.some_ne_none q).symm

lemma trailing_concat :
    Trailing before e (after ++ [f]) ↔ (f.value.pitch? = none ∧ f.value.parameter? = none ∧
      places (before ++ e :: after) f = false) ∧ Trailing before e after := by
  constructor
  · intro h
    obtain ⟨hlast, hf⟩ := List.forall_mem_append.mp h.last
    obtain ⟨hpitch, hparameter⟩ := hf f (List.mem_singleton_self f)
    obtain ⟨q, hstanding⟩ := h.standing
    obtain ⟨⟨-, hplaces⟩, hbefore⟩ := standing_concat.mp hstanding
    exact ⟨⟨hpitch, hparameter, hplaces⟩, ⟨q, hbefore.changes, hbefore.unheard⟩, h.rests, hlast⟩
  · rintro ⟨⟨hpitch, hparameter, hplaces⟩, h⟩
    obtain ⟨q, hstanding⟩ := h.standing
    have hq : f.value.parameter? ≠ some q := by simp [hparameter]
    have hafter := standing_concat.mpr ⟨⟨hq, hplaces⟩, hstanding⟩
    refine ⟨⟨q, hafter.changes, hafter.unheard⟩, h.rests, ?_⟩
    exact List.forall_mem_append.mpr ⟨h.last, by simpa using ⟨hpitch, hparameter⟩⟩

lemma holdsAt_superseded_concat :
    HoldsAt (Superseded q) (elements ++ [f]) position ↔
      HoldsAt (Superseded q) elements position ∨
        f.value.parameter? = some q ∧ HoldsAt (Standing q) elements position := by
  have hnew : ¬ Superseded q elements f [] := by
    intro h
    obtain ⟨g, hg, -⟩ := h.again
    cases hg
  rw [holdsAt_concat, holdsAt_congr fun _ _ _ _ => superseded_concat, holdsAt_or,
    holdsAt_and_left]
  simp only [hnew, and_false, or_false]

lemma holdsAt_standing_concat :
    HoldsAt (Standing q) (elements ++ [f]) position ↔
      (f.value.parameter? ≠ some q ∧ places elements f = false) ∧
          HoldsAt (Standing q) elements position ∨
        f.position = position ∧ f.value.parameter? = some q := by
  have hnew : Standing q elements f [] ↔ f.value.parameter? = some q :=
    ⟨fun h => h.changes, fun h => ⟨h, rfl, List.forall_mem_nil _⟩⟩
  rw [holdsAt_concat, holdsAt_congr, holdsAt_and_left, hnew]
  rintro before e after rfl
  exact standing_concat

lemma holdsAt_trailing_concat :
    HoldsAt Trailing (elements ++ [f]) position ↔
      (f.value.pitch? = none ∧ f.value.parameter? = none ∧ places elements f = false) ∧
          HoldsAt Trailing elements position ∨
        f.position = position ∧ f.value.parameter?.isSome ∧ waiting elements = false := by
  have hnew : Trailing elements f [] ↔ f.value.parameter?.isSome ∧ waiting elements = false := by
    constructor
    · intro h
      obtain ⟨q, hq, -⟩ := h.unheard
      exact ⟨by simp [hq], h.rests⟩
    · rintro ⟨hsome, hrests⟩
      obtain ⟨q, hq⟩ := Option.isSome_iff_exists.mp hsome
      exact ⟨⟨q, hq, rfl⟩, hrests, List.forall_mem_nil _⟩
  rw [holdsAt_concat, holdsAt_congr, holdsAt_and_left, hnew]
  rintro before e after rfl
  exact trailing_concat

lemma Standing.not_superseded (h : Standing q before e after) (q' : Parameter) :
    ¬ Superseded q' before e after := by
  intro h'
  obtain rfl : q' = q := Option.some.inj (h'.changes.symm.trans h.changes)
  obtain ⟨f, hf, hq⟩ := h'.again
  exact h.last f hf hq

lemma not_superseded_of_standing (hnodup : (elements.map (·.position)).Nodup)
    (h : HoldsAt (Standing q) elements position) :
    ¬ ∃ q', HoldsAt (Superseded q') elements position := by
  obtain ⟨before, e, after, hsplit, rfl, hstanding⟩ := h
  rintro ⟨q', hq'⟩
  exact hstanding.not_superseded q' ((holdsAt_iff hnodup hsplit).mp hq')

end

end Barline.Score
