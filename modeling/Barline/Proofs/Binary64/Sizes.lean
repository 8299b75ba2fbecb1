import Barline.Proofs.Binary64.Whole

/-!
# How large roundings are

Powers of two bound roundings as they bound the exact results, and where numbers are not too large
their rounding errors are small beside them.
-/

namespace Barline.Binary64

lemma onGrid_zpow {k : ℤ} (hk : -1074 ≤ k) (hk' : k ≤ 1024) :
    OnGrid (2 ^ k) ∧ |(2 : ℚ) ^ k| ≤ reach := by
  refine ⟨⟨1, k, by norm_num, hk, by simp⟩, ?_⟩
  rw [abs_of_pos (by positivity)]
  exact zpow_le_zpow_right₀ one_le_two hk'

lemma pow_lt_reach {k : ℕ} (hk : k < 1024) : (2 : ℚ) ^ k < reach := by
  rw [← zpow_natCast]
  exact zpow_lt_zpow_right₀ one_lt_two (by exact_mod_cast hk)

namespace Rounds

variable {q : ℚ} {r : Float}

lemma zpow_le (h : Rounds q r) {k : ℤ} (hk : -1074 ≤ k) (hk' : k ≤ 1024) (hq : 2 ^ k ≤ q) :
    2 ^ k ≤ value r :=
  h.le_of_le _ (onGrid_zpow hk hk').1 (onGrid_zpow hk hk').2 hq

lemma le_zpow (h : Rounds q r) {k : ℤ} (hk : -1074 ≤ k) (hk' : k ≤ 1024) (hq : q ≤ 2 ^ k) :
    value r ≤ 2 ^ k :=
  h.ge_of_ge _ (onGrid_zpow hk hk').1 (onGrid_zpow hk hk').2 hq

lemma neg_zpow_le (h : Rounds q r) {k : ℤ} (hk : -1074 ≤ k) (hk' : k ≤ 1024) (hq : -2 ^ k ≤ q) :
    -2 ^ k ≤ value r := by
  obtain ⟨hgrid, hreach⟩ := onGrid_zpow hk hk'
  exact h.le_of_le _ hgrid.neg (by rwa [abs_neg]) hq

lemma le_neg_zpow (h : Rounds q r) {k : ℤ} (hk : -1074 ≤ k) (hk' : k ≤ 1024) (hq : q ≤ -2 ^ k) :
    value r ≤ -2 ^ k := by
  obtain ⟨hgrid, hreach⟩ := onGrid_zpow hk hk'
  exact h.ge_of_ge _ hgrid.neg (by rwa [abs_neg]) hq

lemma pow_le (h : Rounds q r) {k : ℕ} (hk : k ≤ 1024) (hq : 2 ^ k ≤ q) : 2 ^ k ≤ value r := by
  rw [← zpow_natCast] at hq ⊢
  exact h.zpow_le (by omega) (by omega) hq

lemma abs_le_pow (h : Rounds q r) {k : ℕ} (hk : k < 1024) (hq : |q| ≤ 2 ^ k) :
    r.isFinite ∧ |value r| ≤ 2 ^ k := by
  have hlt := pow_lt_reach hk
  rw [← zpow_natCast] at hlt hq ⊢
  rw [abs_le] at hq
  have hle : |value r| ≤ 2 ^ (k : ℤ) := abs_le.mpr
    ⟨h.neg_zpow_le (by omega) (by omega) hq.1, h.le_zpow (by omega) (by omega) hq.2⟩
  exact ⟨(isFinite_iff r).mpr ⟨h.isNaN_eq, hle.trans_lt hlt⟩, hle⟩

lemma isFinite_of_le (h : Rounds q r) (h0 : 0 ≤ q) {x : Float} (hx : x.isFinite)
    (hq : q ≤ value x) : r.isFinite := by
  refine (isFinite_iff r).mpr ⟨h.isNaN_eq, ?_⟩
  rw [abs_of_nonneg (h.nonneg h0)]
  exact (h.le_value x hq).trans_lt (abs_lt.mp ((isFinite_iff x).mp hx).2).2

end Rounds

lemma onGrid_eighth {n : ℤ} (h : |n| < 2 ^ 53) : OnGrid (n / 8) ∧ |(n / 8 : ℚ)| ≤ reach := by
  refine ⟨⟨n, -3, h, by norm_num, by norm_num [div_eq_mul_inv]⟩, ?_⟩
  have hlt : |(n : ℚ)| < 2 ^ 53 := by exact_mod_cast h
  rw [abs_div]
  have := pow_le_reach
  norm_num at *
  linarith

/-- Rounding a product of 32-bit numbers changes it by an eighth of the second at most. -/
lemma Rounds.near_mul {k n : ℕ} {r : Float} (hk : k < 2 ^ 32) (hn : n < 2 ^ 32)
    (h : Rounds (k * n) r) : |value r - k * n| ≤ n / 8 := by
  obtain ⟨m, hm⟩ : ∃ m, m = k * n := ⟨_, rfl⟩
  have hcast : (k : ℚ) * n = m := by rw [hm]; push_cast; rfl
  rw [hcast] at h ⊢
  have hlarge : m ≤ (2 ^ 32 - 1) * (2 ^ 32 - 1) := hm ▸ Nat.mul_le_mul (by omega) (by omega)
  have hreach {q : ℚ} (h0 : 0 ≤ q) (hq : q ≤ 2 ^ 64) : |q| ≤ reach := by
    rw [abs_of_nonneg h0]
    exact hq.trans pow_le_reach
  rcases lt_or_ge m (2 ^ 53) with hsmall | hbig
  · have hint : ((m : ℤ) : ℚ) = m := Int.cast_natCast m
    have hexact : value r = m := by
      rw [← hint] at h ⊢
      refine h.value_eq (OnGrid.ofInt (by rw [Nat.abs_cast]; exact_mod_cast hsmall)) ?_
      rw [hint]
      exact hreach (by positivity) (by exact_mod_cast (by omega : m ≤ 2 ^ 64))
    rw [hexact, sub_self, abs_zero]
    positivity
  · -- the numbers of this size are the multiples of 2048, which is little beside the factors
    have hwide : 2 ^ 21 ≤ n := by
      by_contra hnarrow
      have : k * n < 2 ^ 32 * 2 ^ 21 := Nat.mul_lt_mul'' hk (by omega)
      omega
    obtain ⟨j, hdiv⟩ : ∃ j, j = m / 2048 := ⟨_, rfl⟩
    have hj : j + 1 < 2 ^ 53 := by omega
    have hlow : j * 2048 ≤ m := by omega
    have hhigh : m ≤ j * 2048 + 2048 := hdiv ▸ (Nat.lt_div_mul_add (by norm_num)).le
    have hgrid {i : ℕ} (hi : i < 2 ^ 53) : OnGrid (i * 2048) ∧ |(i * 2048 : ℚ)| ≤ reach := by
      have hlt : (i : ℚ) ≤ 2 ^ 53 := by exact_mod_cast hi.le
      exact ⟨⟨i, 11, by rw [Nat.abs_cast]; exact_mod_cast hi, by norm_num, by norm_num⟩,
        hreach (by positivity) (by linarith)⟩
    have hlow' : (j * 2048 : ℚ) ≤ m := by exact_mod_cast hlow
    have hhigh' : (m : ℚ) ≤ (j + 1 : ℕ) * 2048 := by
      rw [Nat.cast_succ, add_one_mul]
      exact_mod_cast hhigh
    have h1 := h.le_of_le _ (hgrid (by omega)).1 (hgrid (by omega)).2 hlow'
    have h2 := h.ge_of_ge _ (hgrid hj).1 (hgrid hj).2 hhigh'
    have h3 : ((2 ^ 21 : ℕ) : ℚ) ≤ n := by exact_mod_cast hwide
    push_cast at *
    rw [abs_le]
    constructor <;> linarith

/-- Numbers from a half on are multiples of `2 ^ -53`, so that is how far they are apart. -/
lemma add_ulp_le {x y : Float} (hx : 1 / 2 ≤ value x) (hlt : value x < value y) :
    value x + 2 ^ (-53 : ℤ) ≤ value y := by
  have hmul {z : Float} (hz : 1 / 2 ≤ value z) : ∃ m : ℤ, value z = m * 2 ^ (-53 : ℤ) :=
    (onGrid_value z).1.eq_mul_of_ge (M := 2 ^ 52) (.inl le_rfl) (le_trans (by norm_num) hz)
  obtain ⟨j, hj⟩ := hmul hx
  obtain ⟨k, hk⟩ := hmul (hx.trans hlt.le)
  have hpos : (0 : ℚ) < 2 ^ (-53 : ℤ) := by positivity
  rw [hj, hk] at hlt
  rw [hj, hk]
  have hjk : j + 1 ≤ k := by exact_mod_cast lt_of_mul_lt_mul_right hlt hpos.le
  have hjk' : (j : ℚ) + 1 ≤ k := by exact_mod_cast hjk
  nlinarith

end Barline.Binary64
