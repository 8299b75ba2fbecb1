import Barline.Proofs.Meter.Filing

/-!
# Places in time

Notes are placed at or after the first bar line. Copies move them by the distance of two bars, and
what they are moved to is a place in time again, after the first bar line with one exception. The
change from beats to quarter notes keeps them on their side of it.
-/

namespace Barline.Meter

open Binary64 Number

section

variable {n a b : UInt32} {y : Float}

/-- Where notes lie, in beats. Those that were moved to the first bar may lie before it, by half a
bar at most, but by enough that a change of units does not round it away. -/
structure Lies (n : UInt32) (y : Float) : Prop where
  isFinite : y.isFinite
  ge : -(n.toNat / 2) ≤ value y
  le : value y ≤ 2 ^ 65
  apart : 0 ≤ value y ∨ value y ≤ -2 ^ (-53 : ℤ)

lemma barStart_bounds {bar : UInt32} (h : bar ≠ 0) (n : UInt32) :
    (barStart bar n.toFloat).isFinite ∧ 0 ≤ value (barStart bar n.toFloat) ∧
      value (barStart bar n.toFloat) ≤ 2 ^ 64 := by
  have hr := rounds_barStart h n
  have hindex : bar.toNat - 1 < 2 ^ 32 := by have := bar.toNat_lt; omega
  obtain ⟨hfinite, hle⟩ := hr.abs_le_pow (k := 64) (by norm_num) (by
    rw [abs_of_nonneg (by positivity)]
    exact_mod_cast (Nat.mul_lt_mul'' hindex n.toNat_lt).le)
  exact ⟨hfinite, hr.nonneg (by positivity), (abs_le.mp hle).2⟩

lemma value_barStart_one (n : UInt32) : value (barStart 1 n.toFloat) = 0 := by
  have hr := rounds_barStart (by decide : (1 : UInt32) ≠ 0) n
  have hzero : (((1 : UInt32).toNat - 1 : ℕ) * n.toNat : ℚ) = ((0 : ℤ) : ℚ) := by simp
  rw [hzero] at hr
  simpa using hr.value_eq (OnGrid.ofInt (by norm_num)) (by simpa using reach_pos.le)

/-- How far a copy moves the notes of a bar. -/
def shift (source destination : UInt32) (perBar : Float) : Float :=
  barStart destination perBar - barStart source perBar

lemma rounds_shift (ha : a ≠ 0) (hb : b ≠ 0) (n : UInt32) :
    Rounds (value (barStart b n.toFloat) - value (barStart a n.toFloat)) (shift a b n.toFloat) ∧
      (shift a b n.toFloat).isFinite ∧ value (shift a b n.toFloat) ≤ 2 ^ 64 := by
  obtain ⟨hA, hA0, hA64⟩ := barStart_bounds ha n
  obtain ⟨hB, hB0, hB64⟩ := barStart_bounds hb n
  have hr := rounds_sub hB hA
  obtain ⟨hfinite, hle⟩ := hr.abs_le_pow (k := 64) (by norm_num)
    (abs_le.mpr ⟨by linarith, by linarith⟩)
  exact ⟨hr, hfinite, (abs_le.mp hle).2⟩

lemma barStart_gap (ha : a ≠ 0) (hab : a < b) (n : UInt32) :
    value (barStart a n.toFloat) + 3 * n.toNat / 4 ≤ value (barStart b n.toFloat) := by
  have hb : b ≠ 0 := by rintro rfl; simp at hab
  have hA := abs_le.mp (barStart_near ha n)
  have hB := abs_le.mp (barStart_near hb n)
  have hindex : (((a.toNat - 1 : ℕ) : ℚ) + 1) * n.toNat ≤ (b.toNat - 1 : ℕ) * n.toNat := by
    have hnat : a.toNat - 1 + 1 ≤ b.toNat - 1 := by
      have := toNat_pos ha
      rw [UInt32.lt_iff_toNat_lt] at hab
      omega
    gcongr
    exact_mod_cast hnat
  linarith

lemma Lies.moved_later (h : Lies n y) (hn : n ≠ 0) (ha : (barBeat y n.toFloat).1 = a)
    (hab : a < b) : Lies n (y + shift a b n.toFloat) ∧ 0 ≤ value (y + shift a b n.toFloat) := by
  have hne : a ≠ 0 := ha ▸ barBeat_ne_zero y n.toFloat
  have hb : b ≠ 0 := by rintro rfl; simp at hab
  obtain ⟨hshift, hfinite, hle⟩ := rounds_shift hne hb n
  have hge : 3 * n.toNat / 4 ≤ value (shift a b n.toFloat) := by
    have hlt := n.toNat_lt
    obtain ⟨hgrid, hreach⟩ := onGrid_eighth (n := 6 * n.toNat) (by rw [abs_lt]; omega)
    push_cast at hgrid hreach
    linarith [hshift.le_of_le _ hgrid hreach (by linarith [barStart_gap hne hab n])]
  have hy := lt_of_barBeat_lt hn h.isFinite h.le (by
    have := b.toNat_lt
    rw [UInt32.lt_iff_toNat_lt] at hab
    rw [ha]
    omega)
  have hr := rounds_add h.isFinite hfinite
  have hpos := one_le_toNat hn
  have h0 : 0 ≤ value y + value (shift a b n.toFloat) := by linarith [h.ge]
  obtain ⟨hfinite', hle'⟩ := hr.abs_le_pow (k := 65) (by norm_num) (by
    rw [abs_of_nonneg h0]
    linarith)
  have h0' := hr.nonneg h0
  exact ⟨⟨hfinite', by linarith, (abs_le.mp hle').2, .inl h0'⟩, h0'⟩

/-- To an earlier bar notes move back, and if it is not the first one, then no further than they
have gone. -/
lemma Lies.moved_earlier (h : Lies n y) (hn : n ≠ 0) (ha : (barBeat y n.toFloat).1 = a)
    (hab : b < a) (hb : 2 ≤ b.toNat) :
    Lies n (y + shift a b n.toFloat) ∧ 0 ≤ value (y + shift a b n.toFloat) := by
  have hab' : b.toNat < a.toNat := UInt32.lt_iff_toNat_lt.mp hab
  have hne : a ≠ 0 := ha ▸ barBeat_ne_zero y n.toFloat
  have hne' : b ≠ 0 := by rintro rfl; simp at hb
  have hline := barStart_le hn h.isFinite h.le (by rw [ha]; omega)
  rw [ha] at hline
  obtain ⟨hshift, hfinite, -⟩ := rounds_shift hne hne' n
  have hgap := barStart_gap hne' hab n
  have hpos := one_le_toNat hn
  have hback := hshift.nonpos (by linarith)
  have hge : -value y ≤ value (shift a b n.toFloat) := by
    obtain ⟨hgrid, hreach⟩ := onGrid_value y
    exact hshift.le_of_le _ hgrid.neg (by rwa [abs_neg]) (by linarith [le_barStart hb n])
  have hr := rounds_add h.isFinite hfinite
  have h0 : 0 ≤ value y + value (shift a b n.toFloat) := by linarith
  have h0' := hr.nonneg h0
  have hle := (hr.le_value y (by linarith)).trans h.le
  obtain ⟨hfinite', -⟩ := hr.abs_le_pow (k := 65) (by norm_num)
    (abs_le.mpr ⟨by linarith, by linarith [h.le]⟩)
  exact ⟨⟨hfinite', by linarith, hle, .inl h0'⟩, h0'⟩

/-- To the first bar notes move back by the beginning of their bar, so those that lie before it end
up below zero. -/
lemma Lies.moved_first (h : Lies n y) (hn : n ≠ 0) (ha : (barBeat y n.toFloat).1 = a)
    (hab : 2 ≤ a.toNat) : Lies n (y + shift a 1 n.toFloat) ∧
      (0 ≤ value (y + shift a 1 n.toFloat) ↔ value (barStart a n.toFloat) ≤ value y) := by
  have hne : a ≠ 0 := ha ▸ barBeat_ne_zero y n.toFloat
  have hline := barStart_le hn h.isFinite h.le (by rw [ha]; omega)
  rw [ha] at hline
  obtain ⟨hshift, hfinite, -⟩ := rounds_shift hne (by decide : (1 : UInt32) ≠ 0) n
  have hsource := le_barStart hab n
  have hpos := one_le_toNat hn
  have hlt := n.toNat_lt
  have hexact : value (shift a 1 n.toFloat) = -value (barStart a n.toFloat) := by
    obtain ⟨hgrid, hreach⟩ := onGrid_value (barStart a n.toFloat)
    rw [value_barStart_one, zero_sub] at hshift
    exact hshift.value_eq hgrid.neg (by rwa [abs_neg])
  have hr := rounds_add h.isFinite hfinite
  rw [hexact, ← sub_eq_add_neg] at hr
  have hge : -(n.toNat / 2) ≤ value (y + shift a 1 n.toFloat) := by
    obtain ⟨hgrid, hreach⟩ := onGrid_eighth (n := -(4 * n.toNat)) (by rw [abs_lt]; omega)
    push_cast at hgrid hreach
    linarith [hr.le_of_le _ hgrid hreach (by linarith)]
  have hle := (hr.le_value y (by linarith)).trans h.le
  have hshort : (n.toNat : ℚ) < 2 ^ 32 := by exact_mod_cast hlt
  obtain ⟨hfinite', -⟩ := hr.abs_le_pow (k := 65) (by norm_num)
    (abs_le.mpr ⟨by linarith only [hshort, hline], by linarith [h.le]⟩)
  rcases le_or_gt (value (barStart a n.toFloat)) (value y) with hafter | hbefore
  · have h0 := hr.nonneg (by linarith)
    exact ⟨⟨hfinite', hge, hle, .inl h0⟩, iff_of_true h0 hafter⟩
  · have hulp := add_ulp_le (by linarith) hbefore
    have hneg : value (y + shift a 1 n.toFloat) ≤ -2 ^ (-53 : ℤ) :=
      hr.le_neg_zpow (by norm_num) (by norm_num) (by linarith)
    refine ⟨⟨hfinite', hge, hle, .inr hneg⟩, iff_of_false ?_ hbefore.not_ge⟩
    exact (hneg.trans_lt (by norm_num)).not_ge

/-- **Copies stay in time.** A copy moves notes to where notes lie, and before the first bar line
only if they lie before their own bar and it moves them to the first. -/
theorem Lies.moved (h : Lies n y) (hn : n ≠ 0) (ha : (barBeat y n.toFloat).1 = a) (hb : b ≠ 0)
    (hne : a ≠ b) : Lies n (y + shift a b n.toFloat) ∧
      (0 ≤ value (y + shift a b n.toFloat) ↔
        (b = 1 → value (barStart a n.toFloat) ≤ value y)) := by
  have hb0 := toNat_pos hb
  have hab : a.toNat ≠ b.toNat := fun h => hne (UInt32.toNat_inj.mp h)
  have hone : b = 1 ↔ b.toNat = 1 := UInt32.toNat_inj.symm
  rcases Nat.lt_or_gt_of_ne hab with hlater | hearlier
  · obtain ⟨hlies, h0⟩ := h.moved_later hn ha (UInt32.lt_iff_toNat_lt.mpr hlater)
    have ha0 : 0 < a.toNat := toNat_pos (ha ▸ barBeat_ne_zero y n.toFloat)
    exact ⟨hlies, iff_of_true h0 fun h1 => absurd (hone.mp h1) (by omega)⟩
  · by_cases h1 : b = 1
    · subst h1
      obtain ⟨hlies, h0⟩ := h.moved_first hn ha (by omega)
      exact ⟨hlies, h0.trans (by simp)⟩
    · obtain ⟨hlies, h0⟩ := h.moved_earlier hn ha (UInt32.lt_iff_toNat_lt.mpr hearlier)
        (by rw [hone] at h1; omega)
      exact ⟨hlies, iff_of_true h0 fun h1' => absurd h1' h1⟩

lemma isNaN_beatsAt {beat : Float} (h : beat.isNaN) (bar : UInt32) (perBar : Float) :
    (beatsAt bar beat perBar).isNaN :=
  isNaN_add_right (isNaN_sub_left h 1.0) _

lemma nonNeg_beatsAt {bar : UInt32} (hbar : bar ≠ 0) (n : UInt32) {beat : Float}
    (hbeat : ¬ beat < 1.0) (hnumber : beat.isNaN = false) :
    (beatsAt bar beat n.toFloat).isNaN = false ∧ NonNeg (beatsAt bar beat n.toFloat) := by
  obtain ⟨hfinite, h0, -⟩ := barStart_bounds hbar n
  rw [lt_iff hnumber rfl, value_one, not_lt] at hbeat
  have hnonneg : NonNeg beat := fun _ => zero_le_one.trans hbeat
  obtain hnan | ⟨hb, -⟩ | rfl := hnonneg.cases
  · rw [hnan] at hnumber
    cases hnumber
  · have hsub := rounds_sub hb (rfl : (1.0 : Float).isFinite)
    rw [value_one] at hsub
    have hrest : 0 ≤ value beat - 1 := by linarith
    have hr := rounds_add hfinite (hsub.isFinite_of_le hrest hb (by linarith))
    exact ⟨hr.isNaN_eq, .of_rounds hr (add_nonneg h0 (hsub.nonneg hrest))⟩
  · have hrest : (1.0 / 0.0 : Float) - 1.0 = 1.0 / 0.0 := rfl
    unfold beatsAt
    rw [hrest, add_infinity hfinite]
    exact ⟨rfl, nonNeg_infinity⟩

/-- A note is placed at or after the first bar line, unless its beat is no number. -/
theorem lies_beatsAt {bar : UInt32} (hn : n ≠ 0) (hbar : bar ≠ 0) {beat : Float}
    (hbeat : ¬ beat < 1.0) (hnumber : beat.isNaN = false)
    (hrange : inRange (beatsAt bar beat n.toFloat) n.toFloat) :
    Lies n (beatsAt bar beat n.toFloat) ∧ 0 ≤ value (beatsAt bar beat n.toFloat) := by
  obtain ⟨hstart, hnonneg⟩ := nonNeg_beatsAt hbar n hbeat hnumber
  obtain ⟨hfinite, h0, hlt⟩ := isFinite_of_inRange hn hnonneg hstart hrange
  have hpos := one_le_toNat hn
  exact ⟨⟨hfinite, by linarith, by linarith, .inl h0⟩, h0⟩

lemma value_four : value 4.0 = 4 := by
  have h : value 4.0 = factor .positive * ((2 ^ 52 : ℕ) * 2 ^ (-50 : ℤ)) := rfl
  norm_num [h, factor]

/-- A beat is neither much shorter nor much longer than a quarter note. -/
lemma quartersPerBeat_bounds (s : Signature) : s.quartersPerBeat.isFinite ∧
    2 ^ (-30 : ℤ) ≤ value s.quartersPerBeat ∧ value s.quartersPerBeat ≤ 4 := by
  have hd := one_le_toNat (UInt32.ne_of_lt s.denominator_pos).symm
  have hlt : (s.denominator.toNat : ℚ) < 2 ^ 32 := by exact_mod_cast s.denominator.toNat_lt
  have hr := rounds_div (rfl : (4.0 : Float).isFinite) (isFinite_toFloat32 s.denominator)
    (by rw [value_toFloat32]; linarith)
  rw [value_toFloat32, value_four] at hr
  have hlow : (2 : ℚ) ^ (-30 : ℤ) ≤ value (4.0 / s.denominator.toFloat) := by
    refine hr.zpow_le (by norm_num) (by norm_num) ?_
    rw [le_div_iff₀ (by linarith)]
    norm_num
    linarith
  have hle : 4 / (s.denominator.toNat : ℚ) ≤ value 4.0 := by
    rw [value_four]
    exact div_le_self (by norm_num) hd
  exact ⟨hr.isFinite_of_le (by positivity) rfl hle, hlow, (hr.le_value 4.0 hle).trans_eq value_four⟩

/-- In quarter notes places stay finite, and on their side of the first bar line. -/
theorem Lies.toQuarters (h : Lies n y) (s : Signature) :
    (s.toQuarters y).isFinite ∧ (0.0 ≤ s.toQuarters y ↔ 0 ≤ value y) := by
  obtain ⟨hfinite, hlow, hhigh⟩ := quartersPerBeat_bounds s
  have hr := rounds_mul h.isFinite hfinite
  have hlt : (n.toNat : ℚ) < 2 ^ 32 := by exact_mod_cast n.toNat_lt
  have hunit : (0 : ℚ) < value s.quartersPerBeat := lt_of_lt_of_le (by positivity) hlow
  obtain ⟨hfinite', -⟩ := hr.abs_le_pow (k := 67) (by norm_num) (by
    have hy : |value y| ≤ 2 ^ 65 := abs_le.mpr ⟨by linarith only [hlt, h.ge], h.le⟩
    rw [abs_mul, abs_of_pos hunit]
    calc |value y| * value s.quartersPerBeat ≤ 2 ^ 65 * 4 := by gcongr
      _ = 2 ^ 67 := by norm_num)
  refine ⟨hfinite', ?_⟩
  have hnumber : (s.toQuarters y).isNaN = false := hr.isNaN_eq
  rw [le_iff rfl hnumber, value_zero]
  rcases h.apart with h0 | hneg
  · exact iff_of_true (hr.nonneg (mul_nonneg h0 hunit.le)) h0
  · have hy0 : value y < 0 := hneg.trans_lt (by norm_num)
    have hproduct : value y * value s.quartersPerBeat ≤ -2 ^ (-83 : ℤ) := by
      have hle := mul_le_mul_of_nonneg_right hneg hunit.le
      norm_num at hle hlow ⊢
      linarith
    have hbelow := hr.le_neg_zpow (by norm_num) (by norm_num) hproduct
    exact iff_of_false (hbelow.trans_lt (by norm_num)).not_ge hy0.not_ge

end

end Barline.Meter
