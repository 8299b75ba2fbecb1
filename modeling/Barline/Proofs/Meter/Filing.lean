import Barline.Meter
import Barline.Proofs.Binary64.Infinite
import Barline.Proofs.Binary64.Sizes
import Barline.Proofs.Number.Rounding

/-!
# Bars and beats

The products and quotients that lead from bars to beats and back are rounded, but never by so much
as to leave the bar.
-/

namespace Barline.Meter

open Binary64 Number

section

variable {n : UInt32}

lemma toNat_pos (hn : n ≠ 0) : 0 < n.toNat :=
  Nat.pos_of_ne_zero fun h0 => hn (UInt32.toNat_inj.mp h0)

lemma one_le_toNat (hn : n ≠ 0) : (1 : ℚ) ≤ n.toNat := by exact_mod_cast toNat_pos hn

lemma value_barIndex {bar : UInt32} (h : bar ≠ 0) :
    (bar.toFloat - 1.0).isFinite ∧ value (bar.toFloat - 1.0) = (bar.toNat - 1 : ℕ) := by
  have hpos : 1 ≤ bar.toNat := toNat_pos h
  have hlt := bar.toNat_lt
  have hr := rounds_sub (isFinite_toFloat32 bar) (rfl : (1.0 : Float).isFinite)
  have hcast : value bar.toFloat - value 1.0 = ((bar.toNat - 1 : ℕ) : ℤ) := by
    rw [value_toFloat32, value_one, Int.cast_natCast, Nat.cast_sub hpos, Nat.cast_one]
  rw [hcast] at hr
  have hle : |(((bar.toNat - 1 : ℕ) : ℤ) : ℚ)| ≤ 2 ^ 32 := by
    rw [Int.cast_natCast, Nat.abs_cast]
    exact_mod_cast (by omega : bar.toNat - 1 ≤ 2 ^ 32)
  refine ⟨(hr.abs_le_pow (by norm_num) hle).1, ?_⟩
  rw [hr.value_eq (OnGrid.ofInt ?_) (hle.trans ((by norm_num : (2 : ℚ) ^ 32 ≤ 2 ^ 64).trans
    pow_le_reach)), Int.cast_natCast]
  rw [Nat.abs_cast]
  exact_mod_cast (by omega : bar.toNat - 1 < 2 ^ 53)

/-- A bar begins where its index and the length of bars put it, but for rounding. -/
lemma rounds_barStart {bar : UInt32} (h : bar ≠ 0) (n : UInt32) :
    Rounds ((bar.toNat - 1 : ℕ) * n.toNat) (barStart bar n.toFloat) := by
  obtain ⟨hfinite, hvalue⟩ := value_barIndex h
  have hr := rounds_mul hfinite (isFinite_toFloat32 n)
  rwa [hvalue, value_toFloat32] at hr

lemma barStart_near {bar : UInt32} (h : bar ≠ 0) (n : UInt32) :
    |value (barStart bar n.toFloat) - (bar.toNat - 1 : ℕ) * n.toNat| ≤ n.toNat / 8 :=
  (rounds_barStart h n).near_mul (by have := bar.toNat_lt; omega) n.toNat_lt

/-- The bars after the first begin no earlier than a bar has gone by. -/
lemma le_barStart {bar : UInt32} (h : 2 ≤ bar.toNat) (n : UInt32) :
    n.toNat ≤ value (barStart bar n.toFloat) := by
  have hne : bar ≠ 0 := by
    rintro rfl
    simp at h
  have hr := rounds_barStart hne n
  rw [← value_toFloat32]
  refine hr.value_le _ ?_
  rw [value_toFloat32]
  exact le_mul_of_one_le_left (Nat.cast_nonneg _) (by exact_mod_cast (by omega : 1 ≤ bar.toNat - 1))

lemma toNat_following (index : UInt32) :
    (barBeat.following index).toNat = min (index.toNat + 1) (2 ^ 32 - 1) := by
  have hlt := index.toNat_lt
  unfold barBeat.following
  split_ifs with h
  · subst h
    rfl
  · have hne : index.toNat ≠ 2 ^ 32 - 1 := fun heq => h (UInt32.toNat_inj.mp heq)
    rw [UInt32.toNat_add, Nat.mod_eq_of_lt (by simpa using by omega)]
    simp only [UInt32.toNat_one]
    omega

lemma barBeat_ne_zero (beats perBar : Float) : (barBeat beats perBar).1 ≠ 0 := by
  have hfollowing (index : UInt32) : barBeat.following index ≠ 0 := by
    intro hzero
    have hnat := toNat_following index
    rw [hzero, UInt32.toNat_zero] at hnat
    omega
  unfold barBeat
  dsimp only
  split_ifs <;> exact hfollowing _

variable {y : Float}

lemma rounds_quotient (hn : n ≠ 0) (hy : y.isFinite) (h0 : 0 ≤ value y) :
    Rounds (value y / n.toNat) (y / n.toFloat) ∧ (y / n.toFloat).isFinite ∧
      0 ≤ value (y / n.toFloat) := by
  have hpos := one_le_toNat hn
  have hr := rounds_div hy (isFinite_toFloat32 n) (by rw [value_toFloat32]; linarith)
  rw [value_toFloat32] at hr
  have hquotient : 0 ≤ value y / n.toNat := by positivity
  exact ⟨hr, hr.isFinite_of_le hquotient hy (div_le_self h0 hpos), hr.nonneg hquotient⟩

lemma toNat_next {index : Float} {i : ℕ} (hindex : index.isFinite) (hvalue : value index = i)
    (hi : (i : ℚ) ≤ 2 ^ 65) : (index + 1.0).toUInt32.toNat = min (i + 1) (2 ^ 32 - 1) := by
  have hr := rounds_add hindex (rfl : (1.0 : Float).isFinite)
  have hcast : value index + value 1.0 = ((i + 1 : ℕ) : ℤ) := by
    rw [hvalue, value_one]
    push_cast
    rfl
  rw [hcast] at hr
  have hle : |(((i + 1 : ℕ) : ℤ) : ℚ)| ≤ 2 ^ 66 := by
    rw [Int.cast_natCast, Nat.abs_cast]
    push_cast
    linarith
  obtain ⟨hfinite, -⟩ := hr.abs_le_pow (by norm_num) hle
  have hreach := (abs_lt.mp ((isFinite_iff _).mp hfinite).2).2
  rcases lt_or_ge (i + 1) (2 ^ 53) with hsmall | hlarge
  · have hsum := hr.value_eq (OnGrid.ofInt (by rw [Nat.abs_cast]; exact_mod_cast hsmall))
      (hle.trans (pow_lt_reach (by norm_num)).le)
    rw [Int.cast_natCast] at hsum
    rw [toNat_toUInt32_min ((Nat.cast_nonneg _).trans_eq hsum.symm) hreach, hsum,
      Nat.floor_natCast]
  · have hbig : (2 : ℚ) ^ 53 ≤ value (index + 1.0) := by
      refine hr.pow_le (by norm_num) ?_
      rw [Int.cast_natCast]
      exact_mod_cast hlarge
    have hfloor : 2 ^ 53 ≤ ⌊value (index + 1.0)⌋₊ := Nat.le_floor (by exact_mod_cast hbig)
    rw [toNat_toUInt32_min (le_trans (by positivity) hbig) hreach]
    omega

/-- The bar of a beat is the one its quotient says, or the next one if the beat is a hair short of
its beginning. -/
lemma barBeat_cases (hn : n ≠ 0) (hy : y.isFinite) (h0 : 0 ≤ value y) (hle : value y ≤ 2 ^ 65) :
    let index := floor (y / n.toFloat)
    index.isFinite ∧ value index = ⌊value (y / n.toFloat)⌋₊ ∧
      ((barBeat y n.toFloat).1.toNat = min (⌊value (y / n.toFloat)⌋₊ + 1) (2 ^ 32 - 1) ∨
        (barBeat y n.toFloat).1.toNat = min (⌊value (y / n.toFloat)⌋₊ + 2) (2 ^ 32 - 1) ∧
          n.toFloat - (y - index * n.toFloat) < 1e-9) := by
  obtain ⟨hr, hq, hq0⟩ := rounds_quotient hn hy h0
  have hsame : larger y 0.0 = y := by
    rw [larger_eq (isNaN_of_isFinite hy) rfl, value_zero, if_neg h0.not_gt]
  have hindex : floor (y / n.toFloat) = truncate (y / n.toFloat) :=
    floor_eq_truncate (isNaN_of_isFinite hq) hq0
  have hfinite := isFinite_truncate hq
  have hvalue := value_truncate_eq (isNaN_of_isFinite hq) hq0
  rw [← hindex] at hfinite hvalue
  intro index
  refine ⟨hfinite, hvalue, ?_⟩
  have hi : (⌊value (y / n.toFloat)⌋₊ : ℚ) ≤ 2 ^ 65 :=
    (Nat.floor_le hq0).trans ((hr.le_value y (div_le_self h0 (one_le_toNat hn))).trans hle)
  have hnonneg : 0 ≤ value index := (Nat.cast_nonneg _).trans_eq hvalue.symm
  have hreach := (abs_lt.mp ((isFinite_iff index).mp hfinite).2).2
  unfold barBeat
  rw [hsame]
  dsimp only
  split_ifs with hsnap
  · right
    refine ⟨?_, hsnap⟩
    rw [toNat_following, toNat_next hfinite hvalue hi]
    omega
  · left
    rw [toNat_following, toNat_toUInt32_min hnonneg hreach, hvalue, Nat.floor_natCast]
    omega

/-- A quotient tells the number of bars up to less than half a bar. -/
lemma le_of_quotient (hn : n ≠ 0) (hy : y.isFinite) (h0 : 0 ≤ value y) {k : ℕ} (hk : k < 2 ^ 32)
    (hle : (k : ℚ) ≤ value (y / n.toFloat)) : k * n.toNat - 3 * n.toNat / 8 ≤ value y := by
  obtain ⟨hr, -, -⟩ := rounds_quotient hn hy h0
  have hpos : (0 : ℚ) < n.toNat := zero_lt_one.trans_le (one_le_toNat hn)
  by_contra hlt
  obtain ⟨hgrid, hreach⟩ := onGrid_eighth (n := 8 * k - 3) (by rw [abs_lt]; omega)
  push_cast at hgrid hreach
  have hquotient : value y / n.toNat ≤ (8 * k - 3) / 8 := by
    rw [div_le_iff₀ hpos]
    linarith
  linarith [hr.ge_of_ge _ hgrid hreach hquotient]

lemma value_tolerance : value 1e-9 < 1 / 8 := by
  have heighth : value 0.125 = factor .positive * ((2 ^ 52 : ℕ) * 2 ^ (-55 : ℤ)) := rfl
  have hlt : value 1e-9 < value 0.125 := (lt_iff rfl rfl).mp (by decide)
  rw [heighth] at hlt
  norm_num [factor] at hlt
  exact hlt

lemma le_of_snap (hn : n ≠ 0) (hy : y.isFinite) (h0 : 0 ≤ value y) (hle : value y ≤ 2 ^ 65)
    {index : Float} (hindex : index.isFinite) {i : ℕ} (hvalue : value index = i) (hi : i < 2 ^ 32)
    (hsnap : n.toFloat - (y - index * n.toFloat) < 1e-9) :
    (i + 1) * n.toNat - n.toNat / 4 ≤ value y := by
  have hN := isFinite_toFloat32 n
  have hlt := n.toNat_lt
  have hline := rounds_mul hindex hN
  rw [hvalue, value_toFloat32] at hline
  have hnear := abs_le.mp (hline.near_mul hi hlt)
  obtain ⟨hfinite, hsize⟩ := hline.abs_le_pow (k := 65) (by norm_num) (by
    rw [abs_of_nonneg (by positivity)]
    exact_mod_cast (Nat.mul_lt_mul'' hi hlt).le.trans (by norm_num))
  have hwithin := rounds_sub hy hfinite
  rw [abs_le] at hsize
  obtain ⟨hfinite', -⟩ := hwithin.abs_le_pow (k := 66) (by norm_num)
    (abs_le.mpr ⟨by linarith, by linarith⟩)
  have hleft := rounds_sub hN hfinite'
  rw [lt_iff hleft.isNaN_eq rfl] at hsnap
  -- each of the two differences is within an eighth of a beat, or a number of eighths would lie
  -- between it and its rounding
  have hshort : (n.toNat : ℚ) - 1 / 8 < value (y - index * n.toFloat) := by
    by_contra hge
    obtain ⟨hgrid, hreach⟩ := onGrid_eighth (n := 1) (by norm_num)
    push_cast at hgrid hreach
    have := hleft.le_of_le _ hgrid hreach (by rw [value_toFloat32]; linarith)
    linarith [value_tolerance]
  have hlong : (n.toNat : ℚ) - 1 / 8 < value y - value (index * n.toFloat) := by
    by_contra hge
    obtain ⟨hgrid, hreach⟩ := onGrid_eighth (n := 8 * n.toNat - 1) (by rw [abs_lt]; omega)
    push_cast at hgrid hreach
    linarith [hwithin.ge_of_ge _ hgrid hreach (by linarith)]
  linarith [one_le_toNat hn]

lemma barBeat_of_neg (hy : y.isFinite) (hneg : value y < 0) (perBar : Float) :
    barBeat y perBar = barBeat 0.0 perBar := by
  have hlarger : larger y 0.0 = larger 0.0 0.0 := by
    rw [larger_eq (isNaN_of_isFinite hy) rfl, value_zero, if_pos hneg]
    rfl
  unfold barBeat
  rw [hlarger]

lemma barStart_le_of_nonneg (hn : n ≠ 0) (hy : y.isFinite) (h0 : 0 ≤ value y)
    (hle : value y ≤ 2 ^ 65) :
    value (barStart (barBeat y n.toFloat).1 n.toFloat) - n.toNat / 2 ≤ value y := by
  obtain ⟨a, ha⟩ : ∃ a, a = (barBeat y n.toFloat).1 := ⟨_, rfl⟩
  have hne : a ≠ 0 := ha ▸ barBeat_ne_zero y n.toFloat
  have hlt := a.toNat_lt
  have hnear := abs_le.mp (barStart_near hne n)
  obtain ⟨hfinite, hvalue, hcases⟩ := barBeat_cases hn hy h0 hle
  obtain ⟨-, -, hq0⟩ := rounds_quotient hn hy h0
  obtain ⟨i, hi⟩ : ∃ i, i = ⌊value (y / n.toFloat)⌋₊ := ⟨_, rfl⟩
  have hile : (i : ℚ) ≤ value (y / n.toFloat) := hi ▸ Nat.floor_le hq0
  rw [← ha, ← hi] at hcases
  rw [← hi] at hvalue
  rw [← ha]
  by_cases hsmall : a.toNat - 1 ≤ i
  · have hle' : ((a.toNat - 1 : ℕ) : ℚ) ≤ i := by exact_mod_cast hsmall
    linarith [le_of_quotient hn hy h0 (by omega) (hle'.trans hile)]
  · -- only a beat that snaps is filed behind its quotient
    obtain hcase | ⟨hcase, hsnap⟩ := hcases
    · omega
    · have hnext : a.toNat - 1 = i + 1 := by omega
      have hbar := le_of_snap hn hy h0 hle hfinite hvalue (by omega) hsnap
      rw [hnext] at hnear
      push_cast at hnear
      linarith

/-- A beat is filed in the first bar or in one that begins half a bar after it at most. -/
theorem barStart_le (hn : n ≠ 0) (hy : y.isFinite) (hle : value y ≤ 2 ^ 65)
    (hbar : 2 ≤ (barBeat y n.toFloat).1.toNat) :
    value (barStart (barBeat y n.toFloat).1 n.toFloat) - n.toNat / 2 ≤ value y := by
  rcases lt_or_ge (value y) 0 with hneg | h0
  · have hpos := one_le_toNat hn
    rw [barBeat_of_neg hy hneg] at hbar
    have hzero := barStart_le_of_nonneg (y := 0.0) hn rfl le_rfl (by rw [value_zero]; norm_num)
    have hline := le_barStart hbar n
    rw [value_zero] at hzero
    linarith
  · exact barStart_le_of_nonneg hn hy h0 hle

lemma lt_of_quotient_lt (hn : n ≠ 0) (hy : y.isFinite) (h0 : 0 ≤ value y)
    (h : value (y / n.toFloat) < 2 ^ 32) : value y < 2 ^ 64 := by
  obtain ⟨hr, -, -⟩ := rounds_quotient hn hy h0
  have hlt : (n.toNat : ℚ) < 2 ^ 32 := by exact_mod_cast n.toNat_lt
  have hpos := one_le_toNat hn
  by_contra hge
  have hquotient : (2 : ℚ) ^ 32 ≤ value y / n.toNat := by
    rw [le_div_iff₀ (by linarith)]
    nlinarith
  linarith [hr.pow_le (by norm_num) hquotient]

lemma lt_of_barBeat_lt (hn : n ≠ 0) (hy : y.isFinite) (hle : value y ≤ 2 ^ 65)
    (hbar : (barBeat y n.toFloat).1.toNat < 2 ^ 32 - 1) : value y < 2 ^ 64 := by
  rcases lt_or_ge (value y) 0 with hneg | h0
  · exact hneg.trans (by norm_num)
  · obtain ⟨-, -, hcases⟩ := barBeat_cases hn hy h0 hle
    refine lt_of_quotient_lt hn hy h0 ?_
    have hfloor : ⌊value (y / n.toFloat)⌋₊ < 2 ^ 32 := by omega
    exact_mod_cast (Nat.floor_lt (rounds_quotient hn hy h0).2.2).mp hfloor

/-- A place that has a bar number is finite, unless it is no number at all. -/
theorem isFinite_of_inRange (hn : n ≠ 0) (hy : NonNeg y) (hnumber : y.isNaN = false)
    (h : inRange y n.toFloat) : y.isFinite ∧ 0 ≤ value y ∧ value y < 2 ^ 64 := by
  have hpos := one_le_toNat hn
  obtain hnan | ⟨hfinite, h0⟩ | rfl := hy.cases
  · rw [hnan] at hnumber
    cases hnumber
  · obtain ⟨-, hq, hq0⟩ := rounds_quotient hn hfinite h0
    have hfloor : floor (larger y 0.0 / n.toFloat) < 4294967295.0 := of_decide_eq_true h
    rw [larger_eq hnumber rfl, value_zero, if_neg h0.not_gt,
      floor_eq_truncate (isNaN_of_isFinite hq) hq0,
      lt_iff (isNaN_truncate (isNaN_of_isFinite hq)) rfl,
      value_truncate_eq (isNaN_of_isFinite hq) hq0, value_largest32] at hfloor
    have hlt : ⌊value (y / n.toFloat)⌋₊ < 4294967295 := by exact_mod_cast hfloor
    refine ⟨hfinite, h0, lt_of_quotient_lt hn hfinite h0 ?_⟩
    have hlt' := (Nat.floor_lt hq0).mp hlt
    exact hlt'.trans (by norm_num)
  · have hfloor : floor (larger (1.0 / 0.0) 0.0 / n.toFloat) < 4294967295.0 := of_decide_eq_true h
    have hlarger : larger (1.0 / 0.0) 0.0 = 1.0 / 0.0 := rfl
    rw [hlarger, infinity_div (isFinite_toFloat32 n) (by rw [value_toFloat32]; linarith)] at hfloor
    exact absurd hfloor (by decide)

end

end Barline.Meter
