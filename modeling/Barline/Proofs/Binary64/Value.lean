import Barline.Proofs.Binary64.Bits

/-!
# The value of a number

Every number stands for a rational; an infinity is given the first power of two that is out of
reach. Comparisons of numbers are comparisons of their values.
-/

namespace Barline.Binary64

open Float.Model Float.Model.UnpackedFloat

/-- A sign as a factor. -/
def factor : Sign → ℚ
  | .negative => -1
  | .positive => 1

/-- The first power of two that is out of reach. -/
def reach : ℚ := 2 ^ (1024 : ℤ)

lemma reach_pos : 0 < reach := by
  unfold reach
  positivity

/-- The value of an unpacked number. An infinity counts as the first power of two that is out of
reach, and what is no number as zero. -/
def unpackedValue : UnpackedFloat → ℚ
  | .notANumber => 0
  | .infinity s => factor s * reach
  | .zero _ => 0
  | .finite s m e _ => factor s * (m * 2 ^ e)

/-- The value of a number. -/
def value (x : Float) : ℚ := unpackedValue x.toModel.unpack

/-- A normal number has its leading bit between two powers of two. -/
lemma Normal.value_lt {m : ℕ} {e : ℤ} (h : Normal m e) : (m : ℚ) * 2 ^ e < 2 ^ (e + 53) := by
  rw [add_comm, zpow_add₀ two_ne_zero]
  have : (m : ℚ) < 2 ^ (53 : ℤ) := by exact_mod_cast h.lt
  gcongr

lemma Normal.value_ge {m : ℕ} {e : ℤ} (h : 2 ^ 52 ≤ m) : (2 : ℚ) ^ (e + 52) ≤ (m : ℚ) * 2 ^ e := by
  rw [add_comm, zpow_add₀ two_ne_zero]
  have : (2 : ℚ) ^ (52 : ℤ) ≤ m := by exact_mod_cast h
  gcongr

lemma Normal.value_lt_of_exponent_lt {m n : ℕ} {e f : ℤ} (hm : Normal m e) (hn : Normal n f)
    (hef : e < f) : (m : ℚ) * 2 ^ e < n * 2 ^ f := by
  have hfull : 2 ^ 52 ≤ n := hn.full.resolve_right (by have := hm.ge; omega)
  calc (m : ℚ) * 2 ^ e < 2 ^ (e + 53) := hm.value_lt
    _ ≤ 2 ^ (f + 52) := zpow_le_zpow_right₀ one_le_two (by omega)
    _ ≤ n * 2 ^ f := Normal.value_ge hfull

/-- Exponents first, then mantissas: this is the order of the values. -/
lemma Normal.compare_value {m n : ℕ} {e f : ℤ} (hm : Normal m e) (hn : Normal n f) :
    (compare e f).then (compare m n) = compare ((m : ℚ) * 2 ^ e) (n * 2 ^ f) := by
  rcases lt_trichotomy e f with h | h | h
  · rw [compare_lt_iff_lt.mpr h, compare_lt_iff_lt.mpr (hm.value_lt_of_exponent_lt hn h)]
    rfl
  · subst h
    have hp : (0 : ℚ) < 2 ^ e := by positivity
    rw [compare_eq_iff_eq.mpr rfl]
    change compare m n = _
    rcases lt_trichotomy m n with h | h | h
    · rw [compare_lt_iff_lt.mpr h, compare_lt_iff_lt.mpr (by gcongr)]
    · rw [h, compare_eq_iff_eq.mpr rfl, compare_eq_iff_eq.mpr rfl]
    · rw [compare_gt_iff_gt.mpr h, compare_gt_iff_gt.mpr (by gcongr)]
  · rw [compare_gt_iff_gt.mpr h, compare_gt_iff_gt.mpr (hn.value_lt_of_exponent_lt hm h)]
    rfl

/-- A form that bits can unpack to. -/
def Packable : UnpackedFloat → Prop
  | .finite _ m e _ => Normal m e ∧ e ≤ 971
  | _ => True

lemma packable_unpack (x : Float.Model) : Packable x.unpack := by
  cases hu : x.unpack with
  | finite s m e h => exact normal_of_unpack hu
  | _ => trivial

lemma Normal.value_lt_reach {m : ℕ} {e : ℤ} (h : Normal m e) (he : e ≤ 971) :
    (m : ℚ) * 2 ^ e < reach :=
  h.value_lt.trans_le (zpow_le_zpow_right₀ one_le_two (by omega))

lemma Normal.value_pos {m : ℕ} {e : ℤ} (h : Normal m e) : (0 : ℚ) < m * 2 ^ e := by
  have : (0 : ℚ) < m := by exact_mod_cast h.pos
  positivity

lemma compare_neg_neg (x y : ℚ) : compare (-x) (-y) = (compare x y).swap := by
  rcases lt_trichotomy x y with h | h | h
  · rw [compare_lt_iff_lt.mpr h, compare_gt_iff_gt.mpr (by linarith)]; rfl
  · rw [h, compare_eq_iff_eq.mpr rfl, compare_eq_iff_eq.mpr rfl]; rfl
  · rw [compare_gt_iff_gt.mpr h, compare_lt_iff_lt.mpr (by linarith)]; rfl

/-- Numbers compare as their values do. -/
theorem compare_unpacked {x y : UnpackedFloat} (hx : Packable x) (hy : Packable y)
    (hxn : x.isNaN = false) (hyn : y.isNaN = false) :
    x.compare y = some (compare (unpackedValue x) (unpackedValue y)) := by
  have hr := reach_pos
  have lt {a b : ℚ} (h : a < b) : some Ordering.lt = some (compare a b) := by
    rw [compare_lt_iff_lt.mpr h]
  have gt {a b : ℚ} (h : b < a) : some Ordering.gt = some (compare a b) := by
    rw [compare_gt_iff_gt.mpr h]
  have eq {a b : ℚ} (h : a = b) : some Ordering.eq = some (compare a b) := by
    rw [compare_eq_iff_eq.mpr h]
  cases x with
  | notANumber => cases hxn
  | infinity s =>
    cases y with
    | notANumber => cases hyn
    | infinity t =>
      cases s <;> cases t <;> simp only [unpackedValue, factor]
      · exact eq rfl
      · exact lt (by linarith)
      · exact gt (by linarith)
      · exact eq rfl
    | zero t =>
      cases s <;> simp only [unpackedValue, factor]
      · exact lt (by linarith)
      · exact gt (by linarith)
    | finite t n f hn =>
      have hb := hy.1.value_lt_reach hy.2
      have hb0 := hy.1.value_pos
      cases s <;> cases t <;> simp only [unpackedValue, factor]
      · exact lt (by linarith)
      · exact lt (by linarith)
      · exact gt (by linarith)
      · exact gt (by linarith)
  | zero s =>
    cases y with
    | notANumber => cases hyn
    | infinity t =>
      cases t <;> simp only [unpackedValue, factor]
      · exact gt (by linarith)
      · exact lt (by linarith)
    | zero t => exact eq rfl
    | finite t n f hn =>
      have hb0 := hy.1.value_pos
      cases t <;> simp only [unpackedValue, factor]
      · exact gt (by linarith)
      · exact lt (by linarith)
  | finite s m e hm =>
    have ha := hx.1.value_lt_reach hx.2
    have ha0 := hx.1.value_pos
    cases y with
    | notANumber => cases hyn
    | infinity t =>
      cases s <;> cases t <;> simp only [unpackedValue, factor]
      · exact gt (by linarith)
      · exact lt (by linarith)
      · exact gt (by linarith)
      · exact lt (by linarith)
    | zero t =>
      cases s <;> simp only [unpackedValue, factor]
      · exact lt (by linarith)
      · exact gt (by linarith)
    | finite t n f hn =>
      -- only here do exponents and mantissas decide, and with two minus signs the other way round
      have hb0 := hy.1.value_pos
      cases s <;> cases t <;> simp only [unpackedValue, factor, UnpackedFloat.compare]
      · rw [hx.1.compare_value hy.1, neg_one_mul, neg_one_mul, compare_neg_neg]
      · exact lt (by linarith)
      · exact gt (by linarith)
      · rw [hx.1.compare_value hy.1, one_mul, one_mul]

lemma isNaN_eq (x : Float) : x.isNaN = x.toModel.unpack.isNaN := rfl

/-- Numbers are ordered as their values are. -/
theorem lt_iff {x y : Float} (hx : x.isNaN = false) (hy : y.isNaN = false) :
    x < y ↔ value x < value y := by
  change (decide ((x.toModel.unpack.compare y.toModel.unpack == some .lt) = true)) = true ↔ _
  rw [compare_unpacked (packable_unpack _) (packable_unpack _) hx hy]
  simp [value, compare_lt_iff_lt]

theorem le_iff {x y : Float} (hx : x.isNaN = false) (hy : y.isNaN = false) :
    x ≤ y ↔ value x ≤ value y := by
  change (decide ((x.toModel.unpack.compare y.toModel.unpack).any (·.isLE) = true)) = true ↔ _
  rw [compare_unpacked (packable_unpack _) (packable_unpack _) hx hy]
  simp [value, Ordering.isLE_iff_ne_gt, compare_gt_iff_gt]

theorem beq_iff {x y : Float} (hx : x.isNaN = false) (hy : y.isNaN = false) :
    (x == y) = true ↔ value x = value y := by
  change (x.toModel.unpack.compare y.toModel.unpack == some .eq) = true ↔ _
  rw [compare_unpacked (packable_unpack _) (packable_unpack _) hx hy]
  simp [value]

end Barline.Binary64
