import Barline.Proofs.Binary64.Rounding

/-!
# Arithmetic

Sums, differences, products and quotients of finite numbers are the roundings of the exact ones.
-/

namespace Barline.Binary64

open Float.Model Float.Model.UnpackedFloat

lemma between_exact (m : ℕ) : Between (.ofMantissaAndAccuracy m .exact) m :=
  ⟨le_rfl, by simp [ExtendedMantissa.ofMantissaAndAccuracy],
    by simp [ExtendedMantissa.ofMantissaAndAccuracy]⟩

/-- A result is nearby the exact value, and can be packed. -/
def Near (q : ℚ) (u : UnpackedFloat) : Prop := Canonical u ∧ Nearby q (unpackedValue u)

lemma Canonical.near {u : UnpackedFloat} (h : Canonical u) : Near (unpackedValue u) u :=
  ⟨h, .refl _⟩

lemma near_zero (s : Sign) : Near 0 (.zero s) := ⟨trivial, .refl _⟩

lemma near_roundWithAccuracy_exact (s : Sign) {m : ℕ} {e : ℤ} (hm : 0 < m)
    (he : e ≤ max (m.log2 + e - 52) (-1074)) :
    Near (factor s * (m * 2 ^ e)) (roundWithAccuracy Format.binary64 s m e .exact) :=
  roundWithAccuracy_nearby s (between_exact m) le_rfl (by linarith) he (by omega)

lemma shiftLeft_mul_zpow (m k : ℕ) (e : ℤ) :
    ((m <<< k : ℕ) : ℚ) * 2 ^ (e - k) = m * 2 ^ e := by
  rw [Nat.shiftLeft_eq, zpow_sub₀ two_ne_zero, zpow_natCast]
  push_cast
  field_simp

lemma log2_shiftLeft {m : ℕ} (hm : 0 < m) (k : ℕ) : (m <<< k).log2 = m.log2 + k := by
  rw [Nat.log2_eq_iff (Nat.shiftLeft_pos_iff.mpr hm).ne', Nat.shiftLeft_eq]
  constructor
  · rw [pow_add]
    exact Nat.mul_le_mul_right _ (Nat.log2_self_le hm.ne')
  · rw [show m.log2 + k + 1 = m.log2 + 1 + k by omega, pow_add]
    exact Nat.mul_lt_mul_of_pos_right Nat.lt_log2_self (by positivity)

lemma near_round (s : Sign) {m : ℕ} (hm : 0 < m) (e : ℤ) :
    Near (factor s * (m * 2 ^ e)) (UnpackedFloat.round Format.binary64 s m e) := by
  unfold UnpackedFloat.round decreaseExponent
  rw [targetExponent_eq]
  dsimp only
  obtain ⟨k, hk⟩ : ∃ k, k = (e - max (m.log2 + e - 52) (-1074)).toNat := ⟨_, rfl⟩
  rw [← hk, ← shiftLeft_mul_zpow m k e]
  refine near_roundWithAccuracy_exact s (Nat.shiftLeft_pos_iff.mpr hm) ?_
  rw [log2_shiftLeft hm]
  omega

lemma near_normalize (m : ℤ) (e : ℤ) (s : Sign) :
    Near (m * 2 ^ e) (UnpackedFloat.normalize Format.binary64 m e s) := by
  unfold UnpackedFloat.normalize
  rcases lt_trichotomy m 0 with h | rfl | h
  · rw [compare_lt_iff_lt.mpr h]
    have := near_round .negative (m := (-m).toNat) (by omega) e
    have hcast : (((-m).toNat : ℕ) : ℚ) = -m := by
      exact_mod_cast Int.toNat_of_nonneg (by omega : 0 ≤ -m)
    rw [hcast] at this
    simpa [factor] using this
  · rw [compare_eq_iff_eq.mpr rfl]
    simpa using near_zero s
  · rw [compare_gt_iff_gt.mpr h]
    have := near_round .positive (m := m.toNat) (by omega) e
    have hcast : ((m.toNat : ℕ) : ℚ) = m := by exact_mod_cast Int.toNat_of_nonneg h.le
    rw [hcast] at this
    simpa [factor] using this

lemma decreaseExponent_value (s : Sign) (m : ℕ) {e t : ℤ} (ht : t ≤ e) :
    ((s.apply (decreaseExponent m e t).1 : ℤ) : ℚ) * 2 ^ t = factor s * (m * 2 ^ e) := by
  have h := shiftLeft_mul_zpow m (e - t).toNat e
  rw [Int.toNat_of_nonneg (by omega), sub_sub_cancel] at h
  unfold decreaseExponent
  dsimp only
  rw [← h]
  cases s <;> simp only [Sign.apply, factor, Int.cast_neg, Int.cast_natCast] <;> ring

theorem near_add {x y : UnpackedFloat} (hx : Canonical x) (hy : Canonical y) :
    Near (unpackedValue x + unpackedValue y) (UnpackedFloat.add Format.binary64 x y) := by
  cases x with
  | notANumber => cases hx
  | infinity s => cases hx
  | zero s =>
    cases y with
    | notANumber => cases hy
    | infinity t => cases hy
    | zero t =>
      simp only [UnpackedFloat.add, unpackedValue, add_zero]
      split_ifs <;> exact near_zero _
    | finite t n f hn => simpa [UnpackedFloat.add, unpackedValue] using hy.near
  | finite s m e hm =>
    cases y with
    | notANumber => cases hy
    | infinity t => cases hy
    | zero t => simpa [UnpackedFloat.add, unpackedValue] using hx.near
    | finite t n f hn =>
      have h := near_normalize (s.apply (decreaseExponent m e (min e f)).1 +
        t.apply (decreaseExponent n f (min e f)).1) (min e f) .positive
      push_cast at h
      rwa [add_mul, decreaseExponent_value s m (min_le_left e f),
        decreaseExponent_value t n (min_le_right e f)] at h

lemma Canonical.neg {x : UnpackedFloat} (hx : Canonical x) :
    Canonical x.neg ∧ unpackedValue x.neg = -unpackedValue x := by
  cases x with
  | notANumber => cases hx
  | infinity s => cases hx
  | zero s => exact ⟨trivial, by simp [UnpackedFloat.neg, unpackedValue]⟩
  | finite s m e h => exact ⟨hx, by cases s <;> simp [UnpackedFloat.neg, unpackedValue, factor]⟩

lemma sub_eq_add (x y : UnpackedFloat) :
    UnpackedFloat.sub Format.binary64 x y = UnpackedFloat.add Format.binary64 x y.neg := by
  cases x with
  | finite s m e hm =>
    cases y with
    | finite t n f hn => cases t <;> simp only [UnpackedFloat.sub, UnpackedFloat.add,
      UnpackedFloat.neg, Sign.apply, sub_eq_add_neg, neg_neg]
    | _ => rfl
  | _ => cases y <;> rfl

theorem near_sub {x y : UnpackedFloat} (hx : Canonical x) (hy : Canonical y) :
    Near (unpackedValue x - unpackedValue y) (UnpackedFloat.sub Format.binary64 x y) := by
  rw [sub_eq_add, sub_eq_add_neg, ← hy.neg.2]
  exact near_add hx hy.neg.1

lemma factor_mul (s t : Sign) : factor (s * t) = factor s * factor t := by
  cases s <;> cases t <;> simp [factor]

lemma factor_div (s t : Sign) : factor (s / t) = factor s / factor t := by
  cases s <;> cases t <;> norm_num [factor] <;> rfl

/-- The mantissas of a product have bits enough together. -/
lemma Normal.mul_exponent_le {m n : ℕ} {e f : ℤ} (hm : Normal m e) (hn : Normal n f) :
    e + f ≤ max ((m * n).log2 + (e + f) - 52) (-1074) := by
  have hpos : 0 < m * n := Nat.mul_pos hm.pos hn.pos
  by_cases h : 2 ^ 52 ≤ m * n
  · have := (Nat.le_log2 hpos.ne').mpr h
    omega
  · have h1 : ¬ 2 ^ 52 ≤ m := fun hc => h (hc.trans (Nat.le_mul_of_pos_right m hn.pos))
    have h2 : ¬ 2 ^ 52 ≤ n := fun hc => h (hc.trans (Nat.le_mul_of_pos_left n hm.pos))
    have := hm.full.resolve_left h1
    have := hn.full.resolve_left h2
    omega

theorem near_mul {x y : UnpackedFloat} (hx : Canonical x) (hy : Canonical y) :
    Near (unpackedValue x * unpackedValue y) (UnpackedFloat.mul Format.binary64 x y) := by
  cases x with
  | notANumber => cases hx
  | infinity s => cases hx
  | zero s =>
    cases y with
    | notANumber => cases hy
    | infinity t => cases hy
    | _ => simpa [UnpackedFloat.mul, unpackedValue] using near_zero _
  | finite s m e hm =>
    cases y with
    | notANumber => cases hy
    | infinity t => cases hy
    | zero t => simpa [UnpackedFloat.mul, unpackedValue] using near_zero _
    | finite t n f hn =>
      have h := near_roundWithAccuracy_exact (s * t) (Nat.mul_pos hm hn) (hx.mul_exponent_le hy)
      rw [factor_mul, zpow_add₀ two_ne_zero] at h
      push_cast at h
      have heq : unpackedValue (.finite s m e hm) * unpackedValue (.finite t n f hn) =
          factor s * factor t * (m * n * (2 ^ e * 2 ^ f)) := by
        simp only [unpackedValue]
        ring
      rw [heq]
      exact h

/-- The whole part of a quotient and what is left over tell where the quotient lies. -/
lemma between_fraction (m : ℕ) {n : ℕ} (hn : 0 < n) :
    Between (.ofMantissaAndAccuracy (m / n) (accuracyOfFraction (m % n) n)) (m / n : ℚ) ∧
      ((m / n : ℕ) : ℚ) ≤ m / n ∧ (m / n : ℚ) < (m / n : ℕ) + 1 := by
  have hn' : (0 : ℚ) < n := by exact_mod_cast hn
  have hx : (m / n : ℚ) = (m / n : ℕ) + (m % n : ℕ) / n := by
    rw [div_eq_iff hn'.ne', add_mul, div_mul_cancel₀ _ hn'.ne', mul_comm]
    exact_mod_cast (Nat.div_add_mod m n).symm
  have hr0 : (0 : ℚ) ≤ (m % n : ℕ) / n := by positivity
  have hr1 : ((m % n : ℕ) : ℚ) / n < 1 := by
    rw [div_lt_one hn']
    exact_mod_cast Nat.mod_lt m hn
  have hle : ((m / n : ℕ) : ℚ) ≤ m / n := by rw [hx]; linarith
  have hlt : (m / n : ℚ) < (m / n : ℕ) + 1 := by rw [hx]; linarith
  refine ⟨?_, hle, hlt⟩
  unfold accuracyOfFraction
  by_cases hr : m % n = 0
  · rw [if_pos hr]
    have hx0 : (m / n : ℚ) = (m / n : ℕ) := by rw [hx, hr]; simp
    rw [hx0]
    exact between_exact _
  · rw [if_neg hr]
    have hne : (m / n : ℚ) ≠ (m / n : ℕ) := by
      rw [hx]
      have : ((m % n : ℕ) : ℚ) / n ≠ 0 := div_ne_zero (by exact_mod_cast hr) hn'.ne'
      simpa using this
    cases compare (2 * (m % n)) n <;> exact ⟨hle, hlt, by
      simpa [ExtendedMantissa.ofMantissaAndAccuracy] using hne⟩

lemma pow_le_shiftLeft_div {m n j k : ℕ} (hm : 0 < m) (hn : 0 < n)
    (h : n.log2 + 1 + j ≤ m.log2 + k) : 2 ^ j ≤ (m <<< k) / n := by
  rw [Nat.le_div_iff_mul_le hn, Nat.shiftLeft_eq]
  have h1 : n ≤ 2 ^ (n.log2 + 1) := Nat.lt_log2_self.le
  have h2 : 2 ^ m.log2 ≤ m := Nat.log2_self_le hm.ne'
  calc 2 ^ j * n ≤ 2 ^ j * 2 ^ (n.log2 + 1) := Nat.mul_le_mul_left _ h1
    _ = 2 ^ (n.log2 + 1 + j) := by rw [← pow_add, add_comm]
    _ ≤ 2 ^ (m.log2 + k) := Nat.pow_le_pow_right two_pos h
    _ = 2 ^ m.log2 * 2 ^ k := pow_add ..
    _ ≤ m * 2 ^ k := Nat.mul_le_mul_right _ h2

lemma near_divCore (s : Sign) {m n : ℕ} (e f : ℤ) (hm : 0 < m) (hn : 0 < n) :
    Near (factor s * (m * 2 ^ e / (n * 2 ^ f)))
      (roundWithAccuracy Format.binary64 s (divCore Format.binary64 m e n f).1
        (divCore Format.binary64 m e n f).2.1 (divCore Format.binary64 m e n f).2.2) := by
  obtain ⟨g, hg⟩ : ∃ g, g = min (e - f) (max (m.log2 + e - (n.log2 + f) - 53) (-1074)) := ⟨_, rfl⟩
  obtain ⟨k, hk⟩ : ∃ k : ℕ, k = (e - f - g).toNat := ⟨_, rfl⟩
  have hcore : divCore Format.binary64 m e n f =
      ((m <<< k) / n, g, accuracyOfFraction ((m <<< k) % n) n) := by
    have ht : Format.binary64.targetExponent (totalExponent m e - totalExponent n f) =
        max (m.log2 + e - (n.log2 + f) - 53) (-1074) := by
      simp only [Format.targetExponent, totalExponent, Format.mantissaBits, Format.minExponent]
      norm_num
      omega
    unfold divCore
    rw [ht, ← hg]
    dsimp only
    rw [← hk]
  rw [hcore]
  have hn' : (0 : ℚ) < n := by exact_mod_cast hn
  have hval : (m : ℚ) * 2 ^ e / (n * 2 ^ f) = ((m <<< k : ℕ) : ℚ) / n * 2 ^ g := by
    rw [show e = g + k + f by omega, zpow_add₀ two_ne_zero, zpow_add₀ two_ne_zero,
      Nat.shiftLeft_eq, zpow_natCast]
    push_cast
    field_simp
  have hbits : g ≤ -1074 ∨ 2 ^ 52 ≤ (m <<< k) / n := by
    by_cases hmin : g ≤ -1074
    · exact .inl hmin
    · right
      exact pow_le_shiftLeft_div hm hn (by omega)
  -- the quotient is long enough to be rounded once, so its remainder is all that has to be known
  obtain ⟨hB, hle, hlt⟩ := between_fraction (m <<< k) hn
  obtain ⟨q, hq⟩ : ∃ q, q = (m <<< k) / n := ⟨_, rfl⟩
  rw [← hq] at hB hle hlt hbits
  have hexp : g ≤ max (q.log2 + g - 52) (-1074) := by
    rcases hbits with h | h
    · omega
    · have := (Nat.le_log2 (lt_of_lt_of_le (by norm_num) h).ne').mpr h
      omega
  have hzero (h0 : q = 0) : g ≤ -1022 := by
    rcases hbits with h | h <;> omega
  rw [hval, ← hq]
  exact roundWithAccuracy_nearby s hB hle hlt hexp hzero

theorem near_div {x y : UnpackedFloat} (hx : Canonical x) (hy : Canonical y)
    (hy0 : unpackedValue y ≠ 0) :
    Near (unpackedValue x / unpackedValue y) (UnpackedFloat.div Format.binary64 x y) := by
  cases y with
  | notANumber => cases hy
  | infinity t => cases hy
  | zero t => exact (hy0 rfl).elim
  | finite t n f hn =>
    cases x with
    | notANumber => cases hx
    | infinity s => cases hx
    | zero s => simpa [UnpackedFloat.div, unpackedValue] using near_zero _
    | finite s m e hm =>
      have h := near_divCore (s / t) e f hm hn
      rw [factor_div] at h
      have heq : unpackedValue (.finite s m e hm) / unpackedValue (.finite t n f hn) =
          factor s / factor t * (m * 2 ^ e / (n * 2 ^ f)) := by
        simp only [unpackedValue]
        rw [mul_div_mul_comm]
      rw [heq]
      exact h

lemma canonical_unpack {x : Float} (hx : x.isFinite = true) : Canonical x.toModel.unpack := by
  change x.toModel.unpack.isFinite = true at hx
  have hp := packable_unpack x.toModel
  cases hu : x.toModel.unpack with
  | notANumber => rw [hu] at hx; cases hx
  | infinity s => rw [hu] at hx; cases hx
  | zero s => trivial
  | finite s m e h => rw [hu] at hp; exact hp.1

lemma Near.rounds {q : ℚ} {u : UnpackedFloat} (h : Near q u) : Rounds q (.ofModel (.pack u)) :=
  h.1.rounds_pack h.2

/-- The four operations on finite numbers are roundings of the exact results. -/
theorem rounds_add {x y : Float} (hx : x.isFinite = true) (hy : y.isFinite = true) :
    Rounds (value x + value y) (x + y) :=
  (near_add (canonical_unpack hx) (canonical_unpack hy)).rounds

theorem rounds_sub {x y : Float} (hx : x.isFinite = true) (hy : y.isFinite = true) :
    Rounds (value x - value y) (x - y) :=
  (near_sub (canonical_unpack hx) (canonical_unpack hy)).rounds

theorem rounds_mul {x y : Float} (hx : x.isFinite = true) (hy : y.isFinite = true) :
    Rounds (value x * value y) (x * y) :=
  (near_mul (canonical_unpack hx) (canonical_unpack hy)).rounds

theorem rounds_div {x y : Float} (hx : x.isFinite = true) (hy : y.isFinite = true)
    (hy0 : value y ≠ 0) : Rounds (value x / value y) (x / y) :=
  (near_div (canonical_unpack hx) (canonical_unpack hy) hy0).rounds

end Barline.Binary64
