import Barline.Proofs.Binary64.Whole

/-!
# Beyond the finite numbers

What is no number stays none under arithmetic. Numbers that are not negative, infinity among them,
do not become negative by adding, multiplying and dividing.
-/

namespace Barline.Binary64

open Float.Model Float.Model.UnpackedFloat

section

variable {x : Float}

lemma unpack_of_isNaN (h : x.isNaN) : x.toModel.unpack = .notANumber := by
  rw [isNaN_eq] at h
  cases hu : x.toModel.unpack with
  | notANumber => rfl
  | _ => rw [hu] at h; cases h

lemma isNaN_pack : (Float.ofModel (.pack .notANumber)).isNaN = true := by
  rw [isNaN_eq]
  exact congrArg UnpackedFloat.isNaN unpack_pack_notANumber

lemma isNaN_add_left (h : x.isNaN) (y : Float) : (x + y).isNaN := by
  change (Float.ofModel (.pack (UnpackedFloat.add _ x.toModel.unpack y.toModel.unpack))).isNaN = _
  rw [unpack_of_isNaN h]
  exact isNaN_pack

lemma isNaN_add_right (h : x.isNaN) (y : Float) : (y + x).isNaN := by
  change (Float.ofModel (.pack (UnpackedFloat.add _ y.toModel.unpack x.toModel.unpack))).isNaN = _
  rw [unpack_of_isNaN h]
  cases y.toModel.unpack <;> exact isNaN_pack

lemma isNaN_sub_left (h : x.isNaN) (y : Float) : (x - y).isNaN := by
  change (Float.ofModel (.pack (UnpackedFloat.sub _ x.toModel.unpack y.toModel.unpack))).isNaN = _
  rw [unpack_of_isNaN h]
  exact isNaN_pack

lemma isNaN_mul_left (h : x.isNaN) (y : Float) : (x * y).isNaN := by
  change (Float.ofModel (.pack (UnpackedFloat.mul _ x.toModel.unpack y.toModel.unpack))).isNaN = _
  rw [unpack_of_isNaN h]
  exact isNaN_pack

lemma isNaN_mul_right (h : x.isNaN) (y : Float) : (y * x).isNaN := by
  change (Float.ofModel (.pack (UnpackedFloat.mul _ y.toModel.unpack x.toModel.unpack))).isNaN = _
  rw [unpack_of_isNaN h]
  cases y.toModel.unpack <;> exact isNaN_pack

lemma isNaN_div_left (h : x.isNaN) (y : Float) : (x / y).isNaN := by
  change (Float.ofModel (.pack (UnpackedFloat.div _ x.toModel.unpack y.toModel.unpack))).isNaN = _
  rw [unpack_of_isNaN h]
  exact isNaN_pack

lemma isNaN_div_right (h : x.isNaN) (y : Float) : (y / x).isNaN := by
  change (Float.ofModel (.pack (UnpackedFloat.div _ y.toModel.unpack x.toModel.unpack))).isNaN = _
  rw [unpack_of_isNaN h]
  cases y.toModel.unpack <;> exact isNaN_pack

lemma not_lt_of_isNaN (h : x.isNaN) (y : Float) : ¬ x < y := by
  change ¬ (decide ((x.toModel.unpack.compare y.toModel.unpack == some .lt) = true)) = true
  rw [unpack_of_isNaN h]
  simp [UnpackedFloat.compare]

lemma not_le_of_isNaN (h : x.isNaN) (y : Float) : ¬ x ≤ y := by
  change ¬ (decide ((x.toModel.unpack.compare y.toModel.unpack).any (·.isLE) = true)) = true
  rw [unpack_of_isNaN h]
  simp [UnpackedFloat.compare]

lemma beq_eq_false_of_isNaN (h : x.isNaN) (y : Float) : (x == y) = false := by
  change (x.toModel.unpack.compare y.toModel.unpack == some .eq) = false
  rw [unpack_of_isNaN h]
  simp [UnpackedFloat.compare]

end

lemma value_infinity : value (1.0 / 0.0) = reach := by
  have h : value (1.0 / 0.0) = factor .positive * reach := rfl
  rw [h, factor, one_mul]

lemma value_neg_infinity : value (-1.0 / 0.0) = -reach := by
  have h : value (-1.0 / 0.0) = factor .negative * reach := rfl
  rw [h, factor, neg_one_mul]

/-- Not negative, if a number at all. -/
def NonNeg (x : Float) : Prop := x.isNaN = false → 0 ≤ value x

section

variable {x y : Float}

lemma nonNeg_of_isNaN (h : x.isNaN) : NonNeg x := by
  intro hn
  rw [h] at hn
  cases hn

lemma nonNeg_infinity : NonNeg (1.0 / 0.0) := fun _ => value_infinity ▸ reach_pos.le

lemma NonNeg.cases (h : NonNeg x) : x.isNaN ∨ x.isFinite ∧ 0 ≤ value x ∨ x = 1.0 / 0.0 := by
  by_cases hn : x.isNaN
  · exact .inl hn
  · rw [Bool.not_eq_true] at hn
    have h0 := h hn
    by_cases hfinite : x.isFinite
    · exact .inr (.inl ⟨hfinite, h0⟩)
    · rw [Bool.not_eq_true] at hfinite
      rcases eq_of_not_isFinite hfinite with rfl | rfl | rfl
      · exact .inr (.inr rfl)
      · rw [value_neg_infinity] at h0
        linarith [reach_pos]
      · cases hn

lemma infinity_add (hy : y.isFinite) : 1.0 / 0.0 + y = 1.0 / 0.0 := by
  change Float.ofModel (.pack (UnpackedFloat.add _ (.infinity .positive) y.toModel.unpack)) = _
  have hc := canonical_unpack hy
  cases hu : y.toModel.unpack with
  | notANumber => rw [hu] at hc; cases hc
  | infinity s => rw [hu] at hc; cases hc
  | zero s => rfl
  | finite s m e h => rfl

lemma add_infinity (hx : x.isFinite) : x + 1.0 / 0.0 = 1.0 / 0.0 := by
  change Float.ofModel (.pack (UnpackedFloat.add _ x.toModel.unpack (.infinity .positive))) = _
  have hc := canonical_unpack hx
  cases hu : x.toModel.unpack with
  | notANumber => rw [hu] at hc; cases hc
  | infinity s => rw [hu] at hc; cases hc
  | zero s => rfl
  | finite s m e h => rfl

/-- A finite number that is not negative is a zero or has a positive mantissa. -/
lemma unpack_of_nonneg (hy : y.isFinite) (h0 : 0 ≤ value y) :
    (∃ s, y.toModel.unpack = .zero s ∧ value y = 0) ∨
      ∃ m e hm, y.toModel.unpack = .finite .positive m e hm ∧ 0 < value y := by
  have hc := canonical_unpack hy
  have hp := packable_unpack y.toModel
  unfold value at *
  cases hu : y.toModel.unpack with
  | notANumber => rw [hu] at hc; cases hc
  | infinity s => rw [hu] at hc; cases hc
  | zero s => exact .inl ⟨s, rfl, rfl⟩
  | finite s m e hm =>
    rw [hu] at hp h0
    have hpos := hp.1.value_pos
    cases s with
    | negative =>
      simp only [unpackedValue, factor] at h0
      linarith
    | positive => exact .inr ⟨m, e, hm, rfl, by simpa [unpackedValue, factor] using hpos⟩

lemma infinity_div (hy : y.isFinite) (h0 : 0 < value y) : 1.0 / 0.0 / y = 1.0 / 0.0 := by
  change Float.ofModel (.pack (UnpackedFloat.div _ (.infinity .positive) y.toModel.unpack)) = _
  obtain ⟨s, -, hzero⟩ | ⟨m, e, hm, hu, -⟩ := unpack_of_nonneg hy h0.le
  · rw [hzero] at h0
    exact absurd h0 (lt_irrefl 0)
  · rw [hu]
    rfl

lemma NonNeg.of_rounds {q : ℚ} {r : Float} (h : Rounds q r) (h0 : 0 ≤ q) : NonNeg r :=
  fun _ => h.nonneg h0

theorem NonNeg.add (hx : NonNeg x) (hy : NonNeg y) : NonNeg (x + y) := by
  rcases hx.cases with hx | ⟨hx, hx0⟩ | rfl
  · exact nonNeg_of_isNaN (isNaN_add_left hx y)
  · rcases hy.cases with hy | ⟨hy, hy0⟩ | rfl
    · exact nonNeg_of_isNaN (isNaN_add_right hy x)
    · exact .of_rounds (rounds_add hx hy) (add_nonneg hx0 hy0)
    · rw [add_infinity hx]
      exact nonNeg_infinity
  · rcases hy.cases with hy | ⟨hy, hy0⟩ | rfl
    · exact nonNeg_of_isNaN (isNaN_add_right hy _)
    · rw [infinity_add hy]
      exact nonNeg_infinity
    · exact nonNeg_infinity

lemma NonNeg.le_add (hx : NonNeg x) (hy : NonNeg y) (h : (x + y).isNaN = false) :
    value x ≤ value (x + y) := by
  rcases hx.cases with hx | ⟨hx, -⟩ | rfl
  · rw [isNaN_add_left hx y] at h
    cases h
  · rcases hy.cases with hy | ⟨hy, hy0⟩ | rfl
    · rw [isNaN_add_right hy x] at h
      cases h
    · exact (rounds_add hx hy).value_le x (le_add_of_nonneg_right hy0)
    · rw [add_infinity hx, value_infinity]
      exact (abs_lt.mp ((isFinite_iff x).mp hx).2).2.le
  · rcases hy.cases with hy | ⟨hy, -⟩ | rfl
    · rw [isNaN_add_right hy _] at h
      cases h
    · rw [infinity_add hy]
    · exact le_rfl

lemma NonNeg.le_add_right (hx : NonNeg x) (hy : NonNeg y) (h : (x + y).isNaN = false) :
    value y ≤ value (x + y) := by
  rcases hx.cases with hx | ⟨hx, hx0⟩ | rfl
  · rw [isNaN_add_left hx y] at h
    cases h
  · rcases hy.cases with hy | ⟨hy, -⟩ | rfl
    · rw [isNaN_add_right hy x] at h
      cases h
    · exact (rounds_add hx hy).value_le y (le_add_of_nonneg_left hx0)
    · rw [add_infinity hx]
  · rcases hy.cases with hy | ⟨hy, -⟩ | rfl
    · rw [isNaN_add_right hy _] at h
      cases h
    · rw [infinity_add hy, value_infinity]
      exact (abs_lt.mp ((isFinite_iff y).mp hy).2).2.le
    · exact le_rfl

lemma nonNeg_pack_zero (s : Sign) : NonNeg (.ofModel (.pack (.zero s))) := by
  intro _
  unfold value
  rw [show (Float.ofModel (.pack (.zero s))).toModel.unpack = .zero s from unpack_pack_zero s]
  exact le_rfl

theorem NonNeg.mul (hx : NonNeg x) (hy : NonNeg y) : NonNeg (x * y) := by
  rcases hx.cases with hx | ⟨hx, hx0⟩ | rfl
  · exact nonNeg_of_isNaN (isNaN_mul_left hx y)
  · rcases hy.cases with hy | ⟨hy, hy0⟩ | rfl
    · exact nonNeg_of_isNaN (isNaN_mul_right hy x)
    · exact .of_rounds (rounds_mul hx hy) (mul_nonneg hx0 hy0)
    · change NonNeg (.ofModel (.pack (UnpackedFloat.mul _ x.toModel.unpack (.infinity .positive))))
      obtain ⟨s, hu, -⟩ | ⟨m, e, hm, hu, -⟩ := unpack_of_nonneg hx hx0 <;> rw [hu]
      · exact nonNeg_of_isNaN isNaN_pack
      · exact nonNeg_infinity
  · rcases hy.cases with hy | ⟨hy, hy0⟩ | rfl
    · exact nonNeg_of_isNaN (isNaN_mul_right hy _)
    · change NonNeg (.ofModel (.pack (UnpackedFloat.mul _ (.infinity .positive) y.toModel.unpack)))
      obtain ⟨s, hu, -⟩ | ⟨m, e, hm, hu, -⟩ := unpack_of_nonneg hy hy0 <;> rw [hu]
      · exact nonNeg_of_isNaN isNaN_pack
      · exact nonNeg_infinity
    · exact nonNeg_infinity

/-- Dividing by a zero could make a negative number, since zeros have signs. -/
theorem NonNeg.div (hx : NonNeg x) (hy : NonNeg y) (hne : (y == 0.0) = false) :
    NonNeg (x / y) := by
  rcases hy.cases with hy | ⟨hy, hy0⟩ | rfl
  · exact nonNeg_of_isNaN (isNaN_div_right hy x)
  · have hpos : 0 < value y := by
      refine hy0.lt_of_ne' fun hzero => ?_
      have heq : (y == 0.0) = true := (beq_iff (isNaN_of_isFinite hy) rfl).mpr hzero
      rw [heq] at hne
      cases hne
    rcases hx.cases with hx | ⟨hx, hx0⟩ | rfl
    · exact nonNeg_of_isNaN (isNaN_div_left hx y)
    · exact .of_rounds (rounds_div hx hy hpos.ne') (div_nonneg hx0 hpos.le)
    · rw [infinity_div hy hpos]
      exact nonNeg_infinity
  · rcases hx.cases with hx | ⟨hx, hx0⟩ | rfl
    · exact nonNeg_of_isNaN (isNaN_div_left hx _)
    · change NonNeg (.ofModel (.pack (UnpackedFloat.div _ x.toModel.unpack (.infinity .positive))))
      obtain ⟨s, hu, -⟩ | ⟨m, e, hm, hu, -⟩ := unpack_of_nonneg hx hx0 <;> rw [hu]
      · exact nonNeg_pack_zero _
      · exact nonNeg_pack_zero _
    · exact nonNeg_of_isNaN rfl

end

end Barline.Binary64
