import Barline.Proofs.Text.Carrying
import Barline.Score.Reader

/-!
# Words in another place

Every word of a score is read in the same way wherever it stands and whatever follows it after a
blank, apart from the positions of its elements and its errors.
-/

namespace Barline.Score

open Number Scan Reader

variable {t : Setting}

lemma carries_endOfElement (continuations : List String) :
    Carries t (· = ·) (endOfElement continuations) (endOfElement continuations) := by
  intro c
  unfold endOfElement
  exact .branch (t.place_atSeparator c) (fun _ => .pure rfl le_rfl) fun _ => .expected _

lemma carries_integer (what : String) (c : Cursor) :
    CarriesAt t (c.rest.length - 1) (· = ·) (integer what) (integer what) c := by
  unfold integer
  refine .here ((carries_digits c).bind fun ds ds' c' hds hle => ?_)
  obtain ⟨rfl, rfl⟩ := hds
  split_ifs with hempty hbound
  · exact .expected _
  · have hpos : c.digits.length ≠ 0 := by simpa using hempty
    exact .pure rfl (by omega)
  · exact .refuse _ _

lemma carries_quotient (numerator denominator : Float) (position : Position) :
    Carries t (· = ·) (quotient numerator denominator position)
      (quotient numerator denominator (t.move position)) := by
  intro c
  unfold quotient
  split_ifs
  · exact .refuse _ _
  · exact .pure rfl le_rfl

lemma carries_mixedPart (position : Position) {c : Cursor} (hne : c.rest ≠ []) :
    CarriesAt t c.rest.length (· = ·) (mixedPart position) (mixedPart (t.move position)) c := by
  unfold mixedPart
  refine .get ((CarriesAt.advance hne).bind fun _ _ c' _ hle => ?_)
  refine ((carries_decimal c').mono hle).bind fun numerator _ c'' h hle' => ?_
  obtain rfl := h
  refine .branch (t.place_digitAfter c'' (by decide)) (fun hslash => ?_) fun _ => ?_
  · refine (CarriesAt.advance (rest_ne_nil_of_digitAfter hslash)).bind fun _ _ d _ hle'' => ?_
    refine (carries_decimal d).bind fun denominator _ d' h hle''' => ?_
    obtain rfl := h
    refine (carries_quotient _ _ _ d').bind fun x _ d'' h hle'''' => ?_
    exact .pure (by rw [h]) (by omega)
  · exact (CarriesAt.set le_rfl).bind fun _ _ d _ hd => .pure rfl hd

lemma carries_number (what : String) : Carries t (· = ·) (number what) (number what) := by
  intro c
  unfold number
  refine .here ((carries_decimal c).bind fun first _ c' h hle => ?_)
  obtain rfl := h
  split_ifs
  · exact .expected _
  refine .branch (t.place_digitAfter c' (by decide)) (fun hslash => ?_) fun _ => ?_
  · refine (CarriesAt.advance (rest_ne_nil_of_digitAfter hslash)).bind fun _ _ d _ hle' => ?_
    refine (carries_decimal d).bind fun denominator _ d' h hle'' => ?_
    obtain rfl := h
    exact (carries_quotient _ _ _ d').mono (by omega)
  refine .branch (t.place_digitAfter c' (by decide)) (fun hplus => ?_) fun _ => .pure rfl hle
  refine (carries_mixedPart _ (rest_ne_nil_of_digitAfter hplus)).bind fun part _ d h hle' => ?_
  obtain rfl := h
  cases part <;> exact .pure rfl (by omega)

lemma carries_barNumber (c : Cursor) :
    CarriesAt t (c.rest.length - 1) (· = ·) barNumber barNumber c := by
  unfold barNumber
  refine .here ((carries_integer _ c).bind fun bar _ c' h hle => ?_)
  obtain rfl := h
  split_ifs
  · exact .refuse _ _
  · exact .pure rfl hle

lemma carries_bars : Carries t (· = ·) bars bars := by
  intro c
  unfold bars
  refine .here ((carries_barNumber c).bind fun first _ c' h hle => ?_)
  obtain rfl := h
  refine (carries_eat (by decide) c').bind fun ranged _ c'' h hle' => ?_
  obtain rfl := h
  split_ifs
  · refine (carries_barNumber c'').bind fun last _ d h hle'' => ?_
    obtain rfl := h
    split_ifs
    · exact .refuse _ _
    · exact .pure rfl (by omega)
  · exact .pure rfl (by omega)

lemma carries_copyElement {c : Cursor} (hne : c.rest ≠ []) :
    CarriesAt t (c.rest.length - 1) (· = ·) copyElement copyElement c := by
  unfold copyElement
  refine (CarriesAt.advance hne).bind fun _ _ c' _ hle => ?_
  refine (carries_eatWord (by decide) c').bind fun cleared _ d h hle' => ?_
  obtain rfl := h
  split_ifs
  · exact (carries_endOfElement _ d).bind fun _ _ d' _ hle'' => .pure rfl (by omega)
  refine .look ?_
  rw [t.place_digitAt]
  split_ifs
  · exact .expected _
  refine (carries_bars d).bind fun destination _ d' h hle'' => ?_
  obtain rfl := h
  refine (carries_eat (by decide) d').bind fun sourced _ e h hle''' => ?_
  obtain rfl := h
  have hend (source : Source) (e' : Cursor) (he : e'.rest.length ≤ e.rest.length) :
      CarriesAt t (c.rest.length - 1) (· = ·)
        (do endOfElement ["'='", "'-'"]; return Element.copy destination source)
        (do endOfElement ["'='", "'-'"]; return Element.copy destination source) e' :=
    (carries_endOfElement _ e').bind fun _ _ e'' _ he' => .pure rfl (by omega)
  have hbars :
      CarriesAt t e.rest.length (· = ·) (Source.bars <$> bars) (Source.bars <$> bars) e := by
    rw [map_eq_pure_bind]
    exact (carries_bars e).bind fun _ _ _ h he => .pure (congrArg Source.bars h) he
  split_ifs
  · refine .branch (t.place_digitAt e) (fun _ => ?_) fun _ => .expected_bind _
    refine hbars.bind fun source _ e' h he => ?_
    obtain rfl := h
    exact hend source e' he
  · exact hend .previous e le_rfl

lemma carries_step : Carries t (· = ·) step step := by
  intro c
  unfold step
  refine .here ((carries_number _ c).bind fun x _ c' h hle => ?_)
  obtain rfl := h
  split_ifs
  · exact .refuse _ _
  · exact .pure rfl hle

lemma carries_beat : Carries t (· = ·) beat beat := by
  intro c
  unfold beat
  refine .here ((carries_number _ c).bind fun first _ c' h hle => ?_)
  obtain rfl := h
  split_ifs
  · exact .refuse _ _
  refine (carries_eat (by decide) c').bind fun series _ d h hle' => ?_
  obtain rfl := h
  split_ifs
  · refine .here ((carries_integer _ d).bind fun times _ d' h hle'' => ?_)
    obtain rfl := h
    split_ifs
    · exact .refuse _ _
    refine (carries_eat (by decide) d').bind fun stepped _ e h hle''' => ?_
    obtain rfl := h
    split_ifs
    · refine (carries_step e).bind fun x _ e' h he => ?_
      exact .pure (by rw [h]) (by omega)
    · exact .pure rfl (by omega)
  · exact .pure rfl (by omega)

lemma carries_positionBar {c : Cursor} (hne : c.rest ≠ []) :
    CarriesAt t (c.rest.length - 1) (· = ·) positionBar positionBar c := by
  unfold positionBar
  refine .branch (t.place_digitAt c) (fun _ => ?_) fun _ => ?_
  · refine (carries_barNumber c).bind fun bar _ c' h hle => ?_
    obtain rfl := h
    refine (carries_eat (by decide) c').bind fun closed _ d h hle' => ?_
    obtain rfl := h
    split_ifs
    · exact .pure rfl (by omega)
    · exact .expected _
  · exact (CarriesAt.advance hne).bind fun _ _ c' _ hle => .pure rfl hle

lemma carries_locatedBeat (bar : Option UInt32) :
    Carries t (fun a b => b = a.moved t.move) (locatedBeat bar) (locatedBeat bar) := by
  intro c
  unfold locatedBeat
  refine .here ((carries_beat c).bind fun beat _ c' h hle => ?_)
  obtain rfl := h
  exact .pure rfl hle

lemma carries_nextBeat (bar : Option UInt32) :
    Carries t (Option.Rel fun a b => b = a.moved t.move) (nextBeat bar) (nextBeat bar) := by
  intro c
  unfold nextBeat
  refine (carries_eat (by decide) c).bind fun more _ c' h hle => ?_
  obtain rfl := h
  split_ifs
  · exact (carries_locatedBeat bar c').bind fun _ _ d h hle' => .pure (.some h) (by omega)
  · exact .pure .none hle

lemma nextBeat_passes (bar : Option UInt32) (c : Cursor) (e : Located Element) (c' : Cursor)
    (h : nextBeat bar c = .ok (some e, c')) : c'.rest.length < c.rest.length := by
  unfold nextBeat at h
  rw [bind_apply] at h
  by_cases hpeek : c.peek = some ','
  · have hne := rest_ne_nil_of_peek hpeek
    have hbeat := carries_locatedBeat (t := .stay) bar c.advance
    rw [eat_of_peek hpeek] at h
    change (locatedBeat bar >>= fun e => Pure.pure (some e)) c.advance = _ at h
    rw [bind_apply] at h
    unfold CarriesAt at hbeat
    cases hlocated : locatedBeat bar c.advance with
    | error e =>
      rw [hlocated] at h
      cases h
    | ok r =>
      rw [hlocated] at h hbeat
      cases h
      have hpos := List.length_pos_iff.mpr hne
      have hle := hbeat.1
      rw [length_advance hne] at hle
      omega
  · rw [eat_of_peek_ne hpeek] at h
    cases h

lemma carries_positionElements {c : Cursor} (hne : c.rest ≠ []) :
    CarriesAt t (c.rest.length - 1) (List.Forall₂ fun a b => b = a.moved t.move) positionElements
      positionElements c := by
  unfold positionElements
  refine (carries_positionBar hne).bind fun bar _ c' h hle => ?_
  obtain rfl := h
  refine (carries_locatedBeat bar c').bind fun first _ d h hle' => ?_
  obtain rfl := h
  refine .look ?_
  refine (carries_many (carries_nextBeat bar) (nextBeat_passes bar) (Nat.lt_succ_self _)
    (Nat.lt_succ_self _)).bind fun others others' e h hle'' => ?_
  exact (carries_endOfElement _ e).bind fun _ _ e' _ he => .pure (.cons rfl h) (by omega)

lemma carries_probabilityElement (position : Position) {c : Cursor} (hne : c.rest ≠ []) :
    CarriesAt t (c.rest.length - 1) (· = ·) (probabilityElement position)
      (probabilityElement (t.move position)) c := by
  unfold probabilityElement
  refine (CarriesAt.advance hne).bind fun _ _ c' _ hle => ?_
  refine (carries_number _ c').bind fun value _ d h hle' => ?_
  obtain rfl := h
  split_ifs
  · exact (carries_endOfElement _ d).bind fun _ _ e _ he => .pure rfl (by omega)
  · exact .refuse _ _

lemma carries_velocityValue : Carries t (· = ·) velocityValue velocityValue := by
  intro c
  unfold velocityValue
  refine .here ((carries_integer _ c).bind fun value _ c' h hle => ?_)
  obtain rfl := h
  split_ifs
  · exact .pure rfl (by omega)
  · exact .refuse _ _

lemma carries_velocityElement (position : Position) {c : Cursor} (hne : c.rest ≠ []) :
    CarriesAt t (c.rest.length - 1) (· = ·) (velocityElement position)
      (velocityElement (t.move position)) c := by
  unfold velocityElement
  refine (CarriesAt.advance hne).bind fun _ _ c' _ hle => ?_
  refine (carries_velocityValue c').bind fun low _ d h hle' => ?_
  obtain rfl := h
  refine (carries_eat (by decide) d).bind fun ranged _ e h hle'' => ?_
  obtain rfl := h
  have hend (element : Element) (e' : Cursor) (he : e'.rest.length ≤ e.rest.length) :
      CarriesAt t (c.rest.length - 1) (· = ·)
        (do endOfElement ["'-'"]; return element) (do endOfElement ["'-'"]; return element) e' :=
    (carries_endOfElement _ e').bind fun _ _ e'' _ he' => .pure rfl (by omega)
  dsimp only
  split_ifs
  · refine (carries_velocityValue e).bind fun high _ e' h he => ?_
    obtain rfl := h
    split_ifs
    · exact .refuse_bind _ _
    · exact hend (.velocityRange low high) e' he
  · exact hend (.velocity low) e le_rfl

lemma carries_length (position : Position) :
    Carries t (· = ·) (length position) (length (t.move position)) := by
  intro c
  unfold length
  refine .get ((carries_digits c).bind fun whole _ c' h hle => ?_)
  obtain ⟨-, rfl⟩ := h
  refine .look ?_
  rw [t.place_peek_beq c' (by decide)]
  split_ifs with hbars hbound
  · simp only [Bool.and_eq_true, beq_iff_eq] at hbars
    have hcolon : c'.peek = some ':' := hbars.2
    refine (CarriesAt.advance (rest_ne_nil_of_peek hcolon)).bind fun _ _ d _ hle' => ?_
    refine (carries_number _ d).bind fun beats _ d' h hle'' => ?_
    exact .pure (by rw [h]) (by omega)
  · exact .refuse _ _
  · refine (CarriesAt.set le_rfl).bind fun _ _ d _ hle' => ?_
    refine (carries_number _ d).bind fun beats _ d' h hle'' => ?_
    exact .pure (by rw [h]) (by omega)

lemma carries_durationElement (position : Position) {c : Cursor} (hne : c.rest ≠ []) :
    CarriesAt t (c.rest.length - 1) (· = ·) (durationElement position)
      (durationElement (t.move position)) c := by
  unfold durationElement
  refine (CarriesAt.advance hne).bind fun _ _ c' _ hle => ?_
  refine (carries_length position c').bind fun length _ d h hle' => ?_
  obtain rfl := h
  split_ifs
  · exact (carries_endOfElement _ d).bind fun _ _ e _ he => .pure rfl (by omega)
  · exact .refuse _ _

lemma carries_pitchName (letter : Char) {c : Cursor} (hne : c.rest ≠ []) :
    CarriesAt t (c.rest.length - 1) (· = ·) (pitchName letter) (pitchName letter) c := by
  unfold pitchName
  refine (CarriesAt.advance hne).bind fun _ _ c' _ hle => ?_
  refine (carries_accidental c').bind fun accidental _ d h hle' => ?_
  obtain rfl := h
  refine (carries_eat (by decide) d).bind fun negative _ e h hle'' => ?_
  obtain rfl := h
  refine (carries_digits e).bind fun digits _ e' h he => ?_
  obtain ⟨-, rfl⟩ := h
  split_ifs
  · exact .expected _
  · exact .expected _
  · exact .pure rfl (by omega)

lemma carries_pitchElement (letter : Char) (position : Position) {c : Cursor} (hne : c.rest ≠ []) :
    CarriesAt t (c.rest.length - 1) (· = ·) (pitchElement letter position)
      (pitchElement letter (t.move position)) c := by
  unfold pitchElement
  refine (carries_pitchName letter hne).bind fun name _ c' h hle => ?_
  obtain rfl := h
  split_ifs
  · dsimp only
    split
    · exact (carries_endOfElement _ c').bind fun _ _ d _ hle' => .pure rfl (by omega)
    · exact .refuse _ _
  · exact .refuse _ _

/-- A word is read in the same way in another place, and it has a character at least. -/
theorem carries_word {c : Cursor} (hne : c.rest ≠ []) :
    CarriesAt t (c.rest.length - 1) (fun es fs => fs = es.map (·.moved t.move)) word word c := by
  unfold word
  refine .here (.look ?_)
  have hpeek : (t.place c).peek = c.peek := by
    obtain ⟨rest, p⟩ := c
    cases rest with
    | nil => exact absurd rfl hne
    | cons x rest => rfl
  rw [hpeek]
  have hplaces : CarriesAt t (c.rest.length - 1) (fun es fs => fs = es.map (·.moved t.move))
      positionElements positionElements c :=
    (carries_positionElements hne).imp fun _ _ => eq_map_of_forall₂
  have hone {x x' : Scan Element} (hx : CarriesAt t (c.rest.length - 1) (· = ·) x x' c) :
      CarriesAt t (c.rest.length - 1) (fun es fs => fs = es.map (·.moved t.move))
        (do return [⟨← x, c.position⟩] : Scan Elements)
        (do return [⟨← x', t.move c.position⟩] : Scan Elements) c :=
    hx.bind fun e _ c' h hle => .pure (by rw [h]; rfl) hle
  dsimp only
  split
  · exact hone (carries_copyElement hne)
  · exact hplaces
  · exact hone (carries_probabilityElement _ hne)
  · exact hone (carries_velocityElement _ hne)
  · exact hone (carries_durationElement _ hne)
  · split_ifs
    · exact hplaces
    · exact hone (carries_pitchElement _ _ hne)
    · exact .expected _
  · exact .expected _

end Barline.Score
