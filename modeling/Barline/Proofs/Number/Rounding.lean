import Barline.Number.Rounding
import Barline.Proofs.Binary64.Whole

/-!
# Whole parts, rounding and limits

What the operations of `Barline.Number.Rounding` come to as operations on values.
-/

namespace Barline.Number

open Binary64

@[simp] lemma value_zero : value 0.0 = 0 := rfl

@[simp] lemma value_one : value 1.0 = 1 := by
  have h : value 1.0 = factor .positive * ((2 ^ 52 : ℕ) * 2 ^ (-52 : ℤ)) := rfl
  norm_num [h, factor]

lemma value_half : value 0.5 = 1 / 2 := by
  have h : value 0.5 = factor .positive * ((2 ^ 52 : ℕ) * 2 ^ (-53 : ℤ)) := rfl
  norm_num [h, factor]

lemma value_largest32 : value 4294967295.0 = 4294967295 := by
  have h : value 4294967295.0 =
      factor .positive * ((4294967295 * 2 ^ 21 : ℕ) * 2 ^ (-21 : ℤ)) := rfl
  norm_num [h, factor]

lemma value_wholeFrom : value wholeFrom = 2 ^ 52 := by
  have h : value wholeFrom = factor .positive * ((2 ^ 52 : ℕ) * 2 ^ (0 : ℤ)) := rfl
  norm_num [h, factor]

lemma unpackedValue_nonpos {n : ℕ} {u : Float.Model.UnpackedFloat} (h : Unpacks n u)
    (hn : ¬ n < 2 ^ 63) : unpackedValue u ≤ 0 := by
  have hs : factor (signOf n) = -1 := by rw [signOf, if_neg hn]; rfl
  cases h <;> simp only [unpackedValue, hs, le_refl, neg_one_mul, neg_nonpos, reach_pos.le] <;>
    positivity

lemma isNegative_iff (x : Float) : isNegative x ↔ ¬ x.toModel.toBits.toNat < 2 ^ 63 := by
  change decide (9223372036854775808 ≤ x.toModel.toBits) = true ↔ _
  rw [decide_eq_true_iff, UInt64.le_iff_toNat_le, not_lt]
  rfl

lemma value_nonpos_of_isNegative {x : Float} (h : isNegative x) : value x ≤ 0 :=
  unpackedValue_nonpos (unpacks_unpack _) ((isNegative_iff x).mp h)

lemma abs_lt_wholeFrom {x : Float} (hx : x.isNaN = false) :
    x.abs < wholeFrom ↔ |value x| < 2 ^ 52 := by
  rw [lt_iff ((isNaN_abs x).trans hx) rfl, value_abs, value_wholeFrom]

lemma value_size {x : Float} (h : |value x| < 2 ^ 52) :
    value x.abs.toUInt64.toFloat = ⌊|value x|⌋₊ := by
  have hnat : x.abs.toUInt64.toNat = ⌊|value x|⌋₊ := by
    rw [toNat_toUInt64 (by simp) (by rw [value_abs]; exact h.trans (by norm_num)), value_abs]
  have hlt : ⌊|value x|⌋₊ < 2 ^ 52 := by
    rw [Nat.floor_lt (abs_nonneg _)]
    exact_mod_cast h
  rw [value_toFloat64 (by rw [hnat]; exact hlt.trans (by norm_num)), hnat]

lemma isNaN_toFloat (n : UInt64) : n.toFloat.isNaN = false := (rounds_ofNat n.toNat).isNaN_eq

lemma isNaN_truncate {x : Float} (hx : x.isNaN = false) : (truncate x).isNaN = false := by
  unfold truncate
  dsimp only
  split_ifs
  · rw [isNaN_neg, isNaN_toFloat]
  · exact isNaN_toFloat _
  · exact hx

theorem isFinite_truncate {x : Float} (hx : x.isFinite) : (truncate x).isFinite := by
  have hn := isNaN_of_isFinite hx
  rw [isFinite_iff]
  refine ⟨isNaN_truncate hn, ?_⟩
  by_cases h : |value x| < 2 ^ 52
  · have hfloor : |value x.abs.toUInt64.toFloat| < reach := by
      rw [value_size h, Nat.abs_cast]
      refine ((Nat.floor_le (abs_nonneg _)).trans_lt h).trans (lt_reach (by norm_num))
    unfold truncate
    dsimp only
    rw [if_pos ((abs_lt_wholeFrom hn).mpr h)]
    split_ifs
    · rwa [value_neg, abs_neg]
    · exact hfloor
  · unfold truncate
    rw [if_neg (by rwa [abs_lt_wholeFrom hn])]
    exact ((isFinite_iff x).mp hx).2

theorem value_truncate {x : Float} (hx : x.isNaN = false) (h0 : 0 ≤ value x)
    (h : value x < 2 ^ 52) : value (truncate x) = ⌊value x⌋₊ := by
  have habs : |value x| < 2 ^ 52 := by rwa [abs_of_nonneg h0]
  unfold truncate
  dsimp only
  rw [if_pos ((abs_lt_wholeFrom hx).mpr habs)]
  split_ifs with hneg
  · have hzero : value x = 0 := le_antisymm (value_nonpos_of_isNegative hneg) h0
    rw [value_neg, value_size habs, hzero]
    simp
  · rw [value_size habs, abs_of_nonneg h0]

lemma truncate_of_le {x : Float} (hx : x.isNaN = false) (h : 2 ^ 52 ≤ value x) :
    truncate x = x := by
  unfold truncate
  rw [if_neg]
  rw [abs_lt_wholeFrom hx, not_lt]
  exact h.trans (le_abs_self _)

lemma exists_nat_of_exponent_nonneg {q : ℚ} {n e : ℤ} (hq : q = n * 2 ^ e) (he : 0 ≤ e)
    (h0 : 0 ≤ q) : ∃ m : ℕ, q = m := by
  obtain ⟨k, rfl⟩ := Int.eq_ofNat_of_zero_le he
  have hint : q = ((n * 2 ^ k : ℤ) : ℚ) := by
    rw [hq]
    push_cast
    rw [zpow_natCast]
  obtain ⟨m, hm⟩ := Int.eq_ofNat_of_zero_le (a := n * 2 ^ k) (by rw [hint] at h0; exact_mod_cast h0)
  exact ⟨m, by rw [hint, hm]; rfl⟩

/-- Taking the whole part away is exact. -/
lemma onGrid_sub_floor (x : Float) (h0 : 0 ≤ value x) : OnGrid (value x - ⌊value x⌋₊) := by
  obtain ⟨⟨n, e, hn, he, hv⟩, -⟩ := onGrid_value x
  have hfloor := Nat.floor_le h0
  have hp : (0 : ℚ) < 2 ^ e := by positivity
  by_cases h : 0 ≤ e
  · obtain ⟨m, hm⟩ := exists_nat_of_exponent_nonneg hv h h0
    refine ⟨0, 0, by norm_num, by norm_num, ?_⟩
    rw [hm, Nat.floor_natCast]
    simp
  · obtain ⟨k, hk⟩ : ∃ k : ℕ, (k : ℤ) = -e := ⟨(-e).toNat, by omega⟩
    have hpow : (2 : ℚ) ^ k * 2 ^ e = 1 := by
      rw [← zpow_natCast, ← zpow_add₀ two_ne_zero, hk, neg_add_cancel, zpow_zero]
    have hval : value x - ⌊value x⌋₊ = ((n - ⌊value x⌋₊ * 2 ^ k : ℤ) : ℚ) * 2 ^ e := by
      push_cast
      rw [sub_mul, mul_assoc, hpow, mul_one, ← hv]
    refine ⟨n - ⌊value x⌋₊ * 2 ^ k, e, ?_, he, hval⟩
    have hge : 0 ≤ n - (⌊value x⌋₊ : ℤ) * 2 ^ k := by
      have h : 0 ≤ ((n - ⌊value x⌋₊ * 2 ^ k : ℤ) : ℚ) * 2 ^ e := by rw [← hval]; linarith
      exact_mod_cast nonneg_of_mul_nonneg_left h hp
    have hle : 0 ≤ (⌊value x⌋₊ : ℤ) * 2 ^ k := by positivity
    rw [abs_of_nonneg hge]
    rw [abs_lt] at hn
    omega

lemma floor_eq_of_le {x : Float} (h : 2 ^ 52 ≤ value x) : (⌊value x⌋₊ : ℚ) = value x := by
  obtain ⟨⟨n, e, hn, he, hv⟩, -⟩ := onGrid_value x
  have he0 : 0 ≤ e := by
    by_contra hneg
    have h1 : (n : ℚ) < 2 ^ 53 := by exact_mod_cast (abs_lt.mp hn).2
    have h2 : (2 : ℚ) ^ e ≤ 2 ^ (-1 : ℤ) := zpow_le_zpow_right₀ one_le_two (by omega)
    have h3 : (0 : ℚ) < 2 ^ e := by positivity
    have h4 : (n : ℚ) * 2 ^ e < 2 ^ 53 * 2 ^ e := by gcongr
    have h5 : (2 : ℚ) ^ 53 * 2 ^ e ≤ 2 ^ 53 * 2 ^ (-1 : ℤ) := by gcongr
    norm_num at h h5
    linarith
  obtain ⟨m, hm⟩ := exists_nat_of_exponent_nonneg hv he0 (le_trans (by norm_num) h)
  rw [hm, Nat.floor_natCast]

lemma value_truncate_eq {x : Float} (hx : x.isNaN = false) (h0 : 0 ≤ value x) :
    value (truncate x) = ⌊value x⌋₊ := by
  rcases lt_or_ge (value x) (2 ^ 52) with h | h
  · exact value_truncate hx h0 h
  · rw [truncate_of_le hx h, floor_eq_of_le h]

theorem floor_eq_truncate {x : Float} (hx : x.isNaN = false) (h0 : 0 ≤ value x) :
    floor x = truncate x := by
  unfold floor
  dsimp only
  rw [if_neg]
  rw [lt_iff hx (isNaN_truncate hx), value_truncate_eq hx h0, not_lt]
  exact Nat.floor_le h0

lemma value_sub_truncate {x : Float} (hx : x.isFinite) (h0 : 0 ≤ value x) :
    (x - truncate x).isNaN = false ∧ value (x - truncate x) = value x - ⌊value x⌋₊ := by
  have hn := isNaN_of_isFinite hx
  have hr := rounds_sub hx (isFinite_truncate hx)
  refine ⟨hr.isNaN_eq, ?_⟩
  rw [value_truncate_eq hn h0] at hr
  refine hr.value_eq (onGrid_sub_floor x h0) ?_
  have h1 := Nat.floor_le h0
  have h2 := Nat.lt_floor_add_one (value x)
  rw [abs_of_nonneg (by linarith)]
  exact (lt_reach (by linarith [show (1 : ℚ) < 2 ^ 64 by norm_num])).le

lemma isNaN_round {x : Float} (hx : x.isFinite) : (round x).isNaN = false := by
  have ht := isFinite_truncate hx
  unfold round
  dsimp only
  split_ifs
  · exact isNaN_of_isFinite ht
  · exact (rounds_sub ht rfl).isNaN_eq
  · exact (rounds_add ht rfl).isNaN_eq

/-- A number that is not negative is rounded to the nearest whole number, and a half goes up. -/
theorem value_round {x : Float} (hx : x.isFinite) (h0 : 0 ≤ value x) :
    value (round x) = ⌊value x + 1 / 2⌋₊ := by
  have hn := isNaN_of_isFinite hx
  have h1 := Nat.floor_le h0
  have h2 := Nat.lt_floor_add_one (value x)
  obtain ⟨hsubn, hsub⟩ := value_sub_truncate hx h0
  have hhalf : (x - truncate x).abs < 0.5 ↔ value x - ⌊value x⌋₊ < 1 / 2 := by
    rw [lt_iff ((isNaN_abs _).trans hsubn) rfl, value_abs, hsub, value_half,
      abs_of_nonneg (by linarith)]
  have hneg : ¬ x < 0.0 := by
    rw [lt_iff hn rfl, value_zero, not_lt]
    exact h0
  unfold round
  dsimp only
  -- below `2 ^ 52` the whole part and its successor are exact, from there on there is no fraction
  rcases lt_or_ge (value x) (2 ^ 52) with h | h
  · have hvalue := value_truncate hn h0 h
    split_ifs with hb
    · rw [hhalf] at hb
      rw [hvalue, eq_comm, Nat.cast_inj, Nat.floor_eq_iff (by linarith)]
      exact ⟨by linarith, by linarith⟩
    · rw [hhalf, not_lt] at hb
      have hr := rounds_add (isFinite_truncate hx) (rfl : (1.0 : Float).isFinite)
      have hlt : ⌊value x⌋₊ < 2 ^ 52 := by rw [Nat.floor_lt h0]; exact_mod_cast h
      have hcast : value (truncate x) + value 1.0 = ((⌊value x⌋₊ + 1 : ℕ) : ℤ) := by
        rw [hvalue, value_one]
        push_cast
        rfl
      rw [hcast] at hr
      have hsum : value (truncate x + 1.0) = ((⌊value x⌋₊ + 1 : ℕ) : ℤ) := by
        refine hr.value_eq (OnGrid.ofInt ?_) ?_
        · rw [Nat.abs_cast]
          exact_mod_cast (by omega : ⌊value x⌋₊ + 1 < 2 ^ 53)
        · have : ((⌊value x⌋₊ + 1 : ℕ) : ℚ) < 2 ^ 64 := by
            exact_mod_cast (by omega : ⌊value x⌋₊ + 1 < 2 ^ 64)
          rw [Int.cast_natCast, Nat.abs_cast]
          exact (lt_reach this).le
      rw [hsum, Int.cast_natCast, eq_comm, Nat.cast_inj, Nat.floor_eq_iff (by linarith)]
      push_cast
      exact ⟨by linarith, by linarith⟩
  · have hwhole := floor_eq_of_le h
    rw [if_pos (hhalf.mpr (by rw [hwhole]; norm_num)), truncate_of_le hn h, ← hwhole,
      eq_comm, Nat.cast_inj, Nat.floor_eq_iff (by positivity)]
    exact ⟨by linarith, by linarith⟩

lemma isFinite_round {x : Float} (hx : x.isFinite) (h0 : 0 ≤ value x) : (round x).isFinite := by
  rw [isFinite_iff]
  refine ⟨isNaN_round hx, ?_⟩
  rw [value_round hx h0, Nat.abs_cast]
  rcases lt_or_ge (value x) (2 ^ 52) with h | h
  · have hfloor := Nat.floor_le (by linarith : 0 ≤ value x + 1 / 2)
    exact lt_reach (hfloor.trans_lt (by norm_num at h ⊢; linarith))
  · have hwhole := floor_eq_of_le h
    have hround : (⌊value x + 1 / 2⌋₊ : ℚ) = value x := by
      rw [← hwhole, Nat.cast_inj, Nat.floor_eq_iff (by positivity)]
      exact ⟨by linarith, by linarith⟩
    rw [hround]
    exact (abs_lt.mp ((isFinite_iff x).mp hx).2).2

lemma isNaN_clamp {low high x : Float} (hl : low.isNaN = false) (hh : high.isNaN = false)
    (hx : x.isNaN = false) : (clamp low high x).isNaN = false := by
  unfold clamp
  split_ifs <;> assumption

theorem value_clamp {low high x : Float} (hl : low.isNaN = false) (hh : high.isNaN = false)
    (hx : x.isNaN = false) (h : value low ≤ value high) :
    value (clamp low high x) = max (value low) (min (value high) (value x)) := by
  unfold clamp
  simp only [lt_iff hx hl, lt_iff hh hx]
  split_ifs with h1 h2
  · rw [max_eq_left (min_le_of_right_le h1.le)]
  · rw [min_eq_left h2.le, max_eq_right h]
  · rw [min_eq_right (by linarith), max_eq_right (by linarith)]

theorem value_larger (x : Float) {y : Float} (hy : y.isNaN = false) :
    (larger x y).isNaN = false ∧ value y ≤ value (larger x y) := by
  unfold larger
  split_ifs with hx hy' hlt
  · exact ⟨hy, le_rfl⟩
  · rw [hy] at hy'
    cases hy'
  · exact ⟨hy, le_rfl⟩
  · rw [Bool.not_eq_true] at hx
    rw [lt_iff hx hy, not_lt] at hlt
    exact ⟨hx, hlt⟩

lemma larger_of_isNaN {x y : Float} (hx : x.isNaN = false) (hy : y.isNaN = true) :
    larger x y = x := by
  unfold larger
  rw [if_neg (by rw [hx]; exact Bool.false_ne_true), if_pos hy]

lemma larger_eq {x y : Float} (hx : x.isNaN = false) (hy : y.isNaN = false) :
    larger x y = if value x < value y then y else x := by
  unfold larger
  rw [if_neg (by rw [hx]; exact Bool.false_ne_true), if_neg (by rw [hy]; exact Bool.false_ne_true)]
  simp only [lt_iff hx hy]

lemma larger_left {x : Float} (hx : x.isNaN = false) (y : Float) :
    (larger x y).isNaN = false ∧ value x ≤ value (larger x y) := by
  by_cases hy : y.isNaN = true
  · rw [larger_of_isNaN hx hy]
    exact ⟨hx, le_rfl⟩
  · rw [Bool.not_eq_true] at hy
    rw [larger_eq hx hy]
    split_ifs with h
    · exact ⟨hy, h.le⟩
    · exact ⟨hx, le_rfl⟩

/-- From two numbers on top of one that is not negative, the larger is taken whichever comes
first. -/
lemma larger_right_comm {x : Float} (hx : x.isNaN = false) (h0 : 0 ≤ value x) (y z : Float) :
    larger (larger x y) z = larger (larger x z) y := by
  by_cases hy : y.isNaN = true
  · rw [larger_of_isNaN hx hy, larger_of_isNaN (larger_left hx z).1 hy]
  by_cases hz : z.isNaN = true
  · rw [larger_of_isNaN hx hz, larger_of_isNaN (larger_left hx y).1 hz]
  rw [Bool.not_eq_true] at hy hz
  rw [larger_eq hx hy, larger_eq hx hz]
  split_ifs with hxy hxz hxz
  · rw [larger_eq hy hz, larger_eq hz hy]
    rcases lt_trichotomy (value y) (value z) with h | h | h
    · rw [if_pos h, if_neg h.not_gt]
    · rw [eq_of_value_eq hy hz (h0.trans_lt hxy) h]
    · rw [if_neg h.not_gt, if_pos h]
  · rw [larger_eq hy hz, larger_eq hx hy, if_pos hxy, if_neg (by linarith)]
  · rw [larger_eq hx hz, larger_eq hz hy, if_pos hxz, if_neg (by linarith)]
  · rw [larger_eq hx hz, larger_eq hx hy, if_neg hxz, if_neg hxy]

/-- The largest of a list of numbers and one that is not negative does not hang on their order. -/
theorem foldl_larger_perm {xs ys : List Float} (h : xs.Perm ys) {x : Float}
    (hx : x.isNaN = false) (h0 : 0 ≤ value x) : xs.foldl larger x = ys.foldl larger x := by
  induction h generalizing x with
  | nil => rfl
  | cons y _ ih => exact ih (larger_left hx y).1 (h0.trans (larger_left hx y).2)
  | swap y z xs =>
    rw [List.foldl_cons, List.foldl_cons, List.foldl_cons, List.foldl_cons,
      larger_right_comm hx h0]
  | trans _ _ ih ih' => exact (ih hx h0).trans (ih' hx h0)

/-- A number that is zero without a sign or above zero. -/
def Unsigned (x : Float) : Prop := x.isNaN = false ∧ (x = 0.0 ∨ 0 < value x)

section

variable {x y : Float}

lemma Unsigned.value_nonneg (h : Unsigned x) : 0 ≤ value x := by
  rcases h.2 with rfl | hpos
  · exact value_zero.ge
  · exact hpos.le

lemma Unsigned.larger (h : Unsigned x) (y : Float) : Unsigned (larger x y) := by
  by_cases hy : y.isNaN = true
  · rwa [larger_of_isNaN h.1 hy]
  · rw [Bool.not_eq_true] at hy
    rw [larger_eq h.1 hy]
    split_ifs with hlt
    · exact ⟨hy, .inr (h.value_nonneg.trans_lt hlt)⟩
    · exact h

lemma Unsigned.foldl (h : Unsigned x) (ys : List Float) : Unsigned (ys.foldl Number.larger x) := by
  induction ys generalizing x with
  | nil => exact h
  | cons y ys ih => exact ih (h.larger y)

lemma Unsigned.eq_of_beq (hx : Unsigned x) (hy : Unsigned y) (h : x == y) : x = y := by
  have hvalue := (beq_iff hx.1 hy.1).mp h
  rcases hx.2 with rfl | hpos
  · rcases hy.2 with rfl | hpos
    · rfl
    · exact absurd (hvalue.trans_gt hpos) (lt_irrefl _)
  · exact eq_of_value_eq hx.1 hy.1 hpos hvalue

end

end Barline.Number
