import Barline.Proofs.Binary64.Value

/-!
# Rounding

A mantissa with two bits for what was cut off is rounded to a number that has no other between
itself and the exact value.
-/

namespace Barline.Binary64

open Float.Model Float.Model.UnpackedFloat

/-- What an extended mantissa tells of the number of units `x` it stands for. -/
structure Between (em : ExtendedMantissa) (x : ℚ) : Prop where
  le : em.mantissa ≤ x
  lt : x < em.mantissa + 1
  exact_iff : (em.roundBit = false ∧ em.stickyBit = false) ↔ x = em.mantissa

lemma Between.shiftRightOne {em : ExtendedMantissa} {x : ℚ} (h : Between em x) :
    Between em.shiftRightOne (x / 2) := by
  obtain ⟨hle, hlt, hex⟩ := h
  have hdiv : (em.mantissa : ℚ) = 2 * (em.mantissa / 2 : ℕ) + (em.mantissa % 2 : ℕ) := by
    exact_mod_cast (Nat.div_add_mod em.mantissa 2).symm
  have hmod : ((em.mantissa % 2 : ℕ) : ℚ) ≤ 1 := by
    exact_mod_cast Nat.le_of_lt_succ (Nat.mod_lt _ two_pos)
  have hmod0 : (0 : ℚ) ≤ (em.mantissa % 2 : ℕ) := by positivity
  refine ⟨?_, ?_, ?_⟩ <;> simp only [ExtendedMantissa.shiftRightOne]
  · linarith
  · rcases Nat.mod_two_eq_zero_or_one em.mantissa with h | h <;> rw [h] at hdiv <;>
      push_cast at hdiv <;> linarith
  · rw [Bool.or_eq_false_iff, hex, bne_eq_false_iff_eq]
    constructor
    · rintro ⟨hm, hx⟩
      rw [hm] at hdiv
      push_cast at hdiv
      linarith
    · intro hx
      have hm : ((em.mantissa % 2 : ℕ) : ℚ) = 0 := by linarith
      exact ⟨by exact_mod_cast hm, by linarith⟩

lemma Between.shiftRight {em : ExtendedMantissa} {x : ℚ} (h : Between em x) (k : ℕ) :
    Between (em >>> k) (x / 2 ^ k) := by
  change Between (k.repeat ExtendedMantissa.shiftRightOne em) _
  induction k with
  | zero => simpa [Nat.repeat] using h
  | succ k ih =>
    have := ih.shiftRightOne
    rwa [div_div, ← pow_succ] at this

/-- The rounded mantissa is the mantissa or, above it, the next one. -/
lemma Between.rounded {em : ExtendedMantissa} {x : ℚ} (h : Between em x) :
    em.roundedMantissa = em.mantissa ∨
      em.roundedMantissa = em.mantissa + 1 ∧ em.mantissa < x := by
  obtain ⟨m, r, s⟩ := em
  have hlt (hne : ¬ (r = false ∧ s = false)) : (m : ℚ) < x :=
    lt_of_le_of_ne h.le fun hx => hne (h.exact_iff.mpr hx.symm)
  cases r <;> cases s <;> simp only [ExtendedMantissa.roundedMantissa, ExtendedMantissa.accuracy,
    Accuracy.roundToNearestEven]
  · exact .inl trivial
  · exact .inl trivial
  · rcases Nat.mod_two_eq_zero_or_one m with hm | hm <;> rw [hm]
    · exact .inl rfl
    · exact .inr ⟨rfl, hlt (by simp)⟩
  · exact .inr ⟨trivial, hlt (by simp)⟩

lemma targetExponent_eq (m : ℕ) (e : ℤ) :
    Format.binary64.targetExponent (totalExponent m e) = max (m.log2 + e - 52) (-1074) := by
  simp only [Format.targetExponent, totalExponent, Format.mantissaBits, Format.minExponent]
  norm_num
  omega

/-- The values of the format, with exponents as large as they like. -/
def OnGrid (v : ℚ) : Prop := ∃ (n : ℤ) (f : ℤ), |n| < 2 ^ 53 ∧ -1074 ≤ f ∧ v = n * 2 ^ f

/-- No value of the format lies between `q` and `w`. -/
structure Nearby (q w : ℚ) : Prop where
  le_of_le : ∀ v, OnGrid v → v ≤ q → v ≤ w
  ge_of_ge : ∀ v, OnGrid v → q ≤ v → w ≤ v

lemma OnGrid.neg {v : ℚ} (h : OnGrid v) : OnGrid (-v) := by
  obtain ⟨n, f, hn, hf, rfl⟩ := h
  exact ⟨-n, f, by rwa [abs_neg], hf, by push_cast; ring⟩

lemma Nearby.neg {q w : ℚ} (h : Nearby q w) : Nearby (-q) (-w) where
  le_of_le v hv hvq := by have := h.ge_of_ge (-v) hv.neg (by linarith); linarith
  ge_of_ge v hv hvq := by have := h.le_of_le (-v) hv.neg (by linarith); linarith

lemma Nearby.signed (s : Sign) {q w : ℚ} (h : Nearby q w) :
    Nearby (factor s * q) (factor s * w) := by
  cases s with
  | negative => simpa [factor] using h.neg
  | positive => simpa [factor] using h

/-- Below the unit `2 ^ t` of a normal mantissa the format has no values. -/
lemma OnGrid.eq_mul_of_ge {v : ℚ} (hv : OnGrid v) {M : ℕ} {t : ℤ} (hM : 2 ^ 52 ≤ M ∨ t = -1074)
    (hge : M * 2 ^ t ≤ v) : ∃ n : ℤ, v = n * 2 ^ t := by
  obtain ⟨n, f, hn, hf, rfl⟩ := hv
  have hp : (0 : ℚ) < 2 ^ f := by positivity
  by_cases hft : t ≤ f
  · refine ⟨n * 2 ^ (f - t).toNat, ?_⟩
    have : (2 : ℚ) ^ f = 2 ^ (f - t).toNat * 2 ^ t := by
      rw [← zpow_natCast, ← zpow_add₀ two_ne_zero, Int.toNat_of_nonneg (by omega)]
      congr 1
      omega
    push_cast
    rw [this, mul_assoc]
  · exfalso
    have hM' : 2 ^ 52 ≤ M := hM.resolve_right (by omega)
    have h1 : (n : ℚ) < 2 ^ (53 : ℤ) := by exact_mod_cast (abs_lt.mp hn).2
    have h2 : (n : ℚ) * 2 ^ f < M * 2 ^ t := by
      calc (n : ℚ) * 2 ^ f < 2 ^ (53 : ℤ) * 2 ^ f := by gcongr
        _ = 2 ^ (f + 53) := by rw [← zpow_add₀ two_ne_zero, add_comm]
        _ ≤ 2 ^ (t + 52) := zpow_le_zpow_right₀ one_le_two (by omega)
        _ ≤ M * 2 ^ t := by
          rw [add_comm, zpow_add₀ two_ne_zero]
          have : (2 : ℚ) ^ (52 : ℤ) ≤ M := by exact_mod_cast hM'
          gcongr
    linarith

/-- Whole units below and above `x` bound what the rounded mantissa can be. -/
lemma Between.nearby {em : ExtendedMantissa} {x : ℚ} (h : Between em x) {t : ℤ}
    (hfull : 2 ^ 52 ≤ em.mantissa ∨ t = -1074) :
    Nearby (x * 2 ^ t) (em.roundedMantissa * 2 ^ t) := by
  have hp : (0 : ℚ) < 2 ^ t := by positivity
  have hle : em.mantissa * (2 : ℚ) ^ t ≤ x * 2 ^ t := by have := h.le; gcongr
  have hlt : x * (2 : ℚ) ^ t < (em.mantissa + 1) * 2 ^ t := by have := h.lt; gcongr
  rcases h.rounded with hr | ⟨hr, hgt⟩ <;> rw [hr]
  · refine ⟨fun v hv hvq => ?_, fun v hv hvq => hle.trans hvq⟩
    by_contra hc
    push Not at hc
    obtain ⟨n, rfl⟩ := hv.eq_mul_of_ge hfull hc.le
    have h1 : (em.mantissa : ℤ) < n := by exact_mod_cast lt_of_mul_lt_mul_right hc hp.le
    have h2 : n < (em.mantissa : ℤ) + 1 := by
      exact_mod_cast lt_of_mul_lt_mul_right (hvq.trans_lt hlt) hp.le
    omega
  · push_cast
    refine ⟨fun v hv hvq => (hvq.trans_lt hlt).le, fun v hv hvq => ?_⟩
    have hgt' : em.mantissa * (2 : ℚ) ^ t < x * 2 ^ t := by gcongr
    obtain ⟨n, rfl⟩ := hv.eq_mul_of_ge hfull (hle.trans hvq)
    have h1 : (em.mantissa : ℤ) < n := by
      exact_mod_cast lt_of_mul_lt_mul_right (hgt'.trans_le hvq) hp.le
    have h2 : ((em.mantissa : ℚ) + 1) ≤ n := by exact_mod_cast h1
    gcongr

lemma shiftToTargetExponent_eq {m : ℕ} {e : ℤ} (acc : Accuracy) {k : ℕ}
    (hk : (max (m.log2 + e - 52) (-1074) - e).toNat = k) :
    shiftToTargetExponent Format.binary64 m e acc =
      (ExtendedMantissa.ofMantissaAndAccuracy m acc >>> k, e + k) := by
  rw [← targetExponent_eq] at hk
  subst hk
  rfl

lemma shiftToTargetExponent_of_lt {m : ℕ} {e : ℤ} (hm : m < 2 ^ 53) (he : -1074 ≤ e) :
    shiftToTargetExponent Format.binary64 m e .exact = (⟨m, false, false⟩, e) := by
  have hlog : m.log2 < 53 := by
    rcases Nat.eq_zero_or_pos m with rfl | hpos
    · decide
    · exact (Nat.log2_lt hpos.ne').mpr hm
  rw [shiftToTargetExponent_eq .exact (k := 0) (by omega), Nat.cast_zero, add_zero]
  rfl

/-- A mantissa that rounding made one bit too long is halved. -/
lemma shiftToTargetExponent_pow {e : ℤ} (he : -1074 ≤ e) :
    shiftToTargetExponent Format.binary64 (2 ^ 53) e .exact = (⟨2 ^ 52, false, false⟩, e + 1) := by
  rw [shiftToTargetExponent_eq .exact (k := 1) (by rw [Nat.log2_two_pow]; omega)]
  rfl

/-- A form that packing keeps, or takes for an infinity. -/
def Canonical : UnpackedFloat → Prop
  | .finite _ m e _ => Normal m e
  | .zero _ => True
  | _ => False

/-- The mantissa that is kept has at most 53 bits, and all of them unless the exponent is the
least. -/
lemma Between.mantissa_bounds {em : ExtendedMantissa} {x : ℚ} {m : ℕ} {e t : ℤ} {k : ℕ}
    (h : Between em (x / 2 ^ k)) (hle : m ≤ x) (hlt : x < m + 1) (hk : t = e + k)
    (ht : t = max (m.log2 + e - 52) (-1074)) (hm : m = 0 → t = -1074) :
    em.mantissa < 2 ^ 53 ∧ (2 ^ 52 ≤ em.mantissa ∨ t = -1074) := by
  have hp : (0 : ℚ) < 2 ^ k := by positivity
  constructor
  · have h1 : x < 2 ^ (m.log2 + 1) := by
      have : (m : ℚ) + 1 ≤ 2 ^ (m.log2 + 1) := by exact_mod_cast Nat.lt_log2_self
      linarith
    have h2 : (2 : ℚ) ^ (m.log2 + 1) ≤ 2 ^ (53 + k) := pow_le_pow_right₀ one_le_two (by omega)
    have h3 : x / 2 ^ k < 2 ^ 53 := by
      rw [div_lt_iff₀ hp, ← pow_add]
      linarith
    exact_mod_cast h.le.trans_lt h3
  · by_cases hmin : t = -1074
    · exact .inr hmin
    · left
      have hm0 : m ≠ 0 := fun h0 => hmin (hm h0)
      have h1 : (2 : ℚ) ^ m.log2 ≤ m := by exact_mod_cast Nat.log2_self_le hm0
      have h2 : (2 : ℚ) ^ 52 ≤ x / 2 ^ k := by
        rw [le_div_iff₀ hp, ← pow_add, show 52 + k = m.log2 by omega]
        linarith
      have h3 : (2 : ℚ) ^ 52 < em.mantissa + 1 := h2.trans_lt h.lt
      have h4 : 2 ^ 52 < em.mantissa + 1 := by exact_mod_cast h3
      omega

/-- Rounding a mantissa of enough bits. -/
theorem roundWithAccuracy_nearby (s : Sign) {m : ℕ} {e : ℤ} {acc : Accuracy} {x : ℚ}
    (hx : Between (.ofMantissaAndAccuracy m acc) x) (hle : m ≤ x) (hlt : x < m + 1)
    (he : e ≤ max (m.log2 + e - 52) (-1074)) (hm : m = 0 → e ≤ -1022) :
    Canonical (roundWithAccuracy Format.binary64 s m e acc) ∧
      Nearby (factor s * (x * 2 ^ e))
        (unpackedValue (roundWithAccuracy Format.binary64 s m e acc)) := by
  obtain ⟨t, ht⟩ : ∃ t, t = max (m.log2 + e - 52) (-1074) := ⟨_, rfl⟩
  obtain ⟨k, hk⟩ : ∃ k : ℕ, t = e + k := ⟨(t - e).toNat, by omega⟩
  obtain ⟨em, hem⟩ : ∃ em, em = ExtendedMantissa.ofMantissaAndAccuracy m acc >>> k := ⟨_, rfl⟩
  have hshift : shiftToTargetExponent Format.binary64 m e acc = (em, t) := by
    rw [shiftToTargetExponent_eq acc (k := k) (by omega), ← hk, hem]
  have hB : Between em (x / 2 ^ k) := hem ▸ hx.shiftRight k
  have hmt : m = 0 → t = -1074 := by
    intro h0
    subst h0
    have := hm rfl
    simp at ht
    omega
  obtain ⟨hMlt, hMfull⟩ := hB.mantissa_bounds hle hlt hk ht hmt
  have hval : x * 2 ^ e = x / 2 ^ k * 2 ^ t := by
    rw [hk, zpow_add₀ two_ne_zero, zpow_natCast]
    field_simp
  have hN := (hB.nearby hMfull).signed s
  rw [← hval] at hN
  have hR : em.roundedMantissa ≤ 2 ^ 53 := by rcases hB.rounded with h | ⟨h, -⟩ <;> omega
  have hRfull : 2 ^ 52 ≤ em.roundedMantissa ∨ t = -1074 := by
    rcases hB.rounded with h | ⟨h, -⟩ <;> omega
  unfold roundWithAccuracy
  rw [hshift]
  dsimp only
  -- rounding up may make the mantissa one bit too long, which a second shift takes back
  rcases hR.lt_or_eq with hRlt | hReq
  · rw [shiftToTargetExponent_of_lt hRlt (by omega)]
    dsimp only
    split_ifs with h0
    · rw [h0] at hN
      exact ⟨trivial, by simpa [unpackedValue] using hN⟩
    · exact ⟨⟨Nat.pos_of_ne_zero h0, hRlt, by omega, hRfull⟩, hN⟩
  · rw [hReq, shiftToTargetExponent_pow (by omega)]
    have h0 : ¬ ((2 : ℕ) ^ 52 = 0) := by norm_num
    simp only [dif_neg h0]
    refine ⟨⟨by norm_num, by norm_num, by omega, .inl le_rfl⟩, ?_⟩
    have : ((2 ^ 52 : ℕ) : ℚ) * 2 ^ (t + 1) = (2 ^ 53 : ℕ) * 2 ^ t := by
      rw [zpow_add₀ two_ne_zero]
      push_cast
      ring
    simp only [unpackedValue]
    rw [this, ← hReq]
    exact hN

/-- Nothing that a number can be lies between `q` and `r`. -/
structure Rounds (q : ℚ) (r : Float) : Prop where
  isNaN_eq : r.isNaN = false
  le_of_le : ∀ v, OnGrid v → |v| ≤ reach → v ≤ q → v ≤ value r
  ge_of_ge : ∀ v, OnGrid v → |v| ≤ reach → q ≤ v → value r ≤ v

lemma Normal.onGrid {m : ℕ} {e : ℤ} (h : Normal m e) (s : Sign) :
    OnGrid (factor s * (m * 2 ^ e)) := by
  have hm : |(m : ℤ)| < 2 ^ 53 := by
    rw [Nat.abs_cast]
    exact_mod_cast h.lt
  cases s
  · exact ⟨-m, e, by rwa [abs_neg], h.ge, by simp [factor]⟩
  · exact ⟨m, e, hm, h.ge, by simp [factor]⟩

lemma onGrid_value (x : Float) : OnGrid (value x) ∧ |value x| ≤ reach := by
  have hr := reach_pos
  have hzero : OnGrid 0 := ⟨0, 0, by norm_num, by norm_num, by simp⟩
  have hone : OnGrid reach := ⟨1, 1024, by norm_num, by norm_num, by simp [reach]⟩
  unfold value
  have hp := packable_unpack x.toModel
  cases hu : x.toModel.unpack with
  | notANumber => exact ⟨hzero, by simpa [unpackedValue] using hr.le⟩
  | zero s => exact ⟨hzero, by simpa [unpackedValue] using hr.le⟩
  | infinity s =>
    cases s
    · exact ⟨by simpa [unpackedValue, factor] using hone.neg,
        by simp [unpackedValue, factor, abs_of_pos hr]⟩
    · exact ⟨by simpa [unpackedValue, factor] using hone,
        by simp [unpackedValue, factor, abs_of_pos hr]⟩
  | finite s m e h =>
    rw [hu] at hp
    have hlt := hp.1.value_lt_reach hp.2
    have hpos := hp.1.value_pos
    refine ⟨hp.1.onGrid s, ?_⟩
    cases s <;> simp only [unpackedValue, factor] <;> rw [abs_le] <;> constructor <;> linarith

lemma Canonical.value_pack {u : UnpackedFloat} (hc : Canonical u) :
    (Float.ofModel (.pack u)).isNaN = false ∧
      value (.ofModel (.pack u)) = max (-reach) (min reach (unpackedValue u)) := by
  have hr := reach_pos
  have hclamp {v : ℚ} (h : |v| ≤ reach) : v = max (-reach) (min reach v) := by
    rw [abs_le] at h
    rw [min_eq_right h.2, max_eq_right h.1]
  rw [isNaN_eq]
  unfold value
  cases u with
  | notANumber => cases hc
  | infinity s => cases hc
  | zero s =>
    rw [unpack_pack_zero]
    exact ⟨rfl, hclamp (by simpa [unpackedValue] using hr.le)⟩
  | finite s m e h =>
    by_cases he : e ≤ 971
    · rw [unpack_pack_finite s h hc he]
      have hlt := hc.value_lt_reach he
      have hpos := hc.value_pos
      refine ⟨rfl, hclamp ?_⟩
      cases s <;> simp only [unpackedValue, factor] <;> rw [abs_le] <;> constructor <;> linarith
    · rw [pack_out_of_reach s h (by omega), unpack_pack_infinity]
      have hge : reach ≤ m * 2 ^ e := by
        have hfull := hc.full.resolve_right (by omega)
        exact (zpow_le_zpow_right₀ one_le_two (by omega)).trans (Normal.value_ge (e := e) hfull)
      refine ⟨rfl, ?_⟩
      cases s <;> simp only [unpackedValue, factor]
      · rw [min_eq_right (by linarith), max_eq_left (by linarith)]
        ring
      · rw [min_eq_left (by linarith), max_eq_right (by linarith)]
        ring

/-- Packing what is nearby on the grid gives a rounding. -/
theorem Canonical.rounds_pack {u : UnpackedFloat} {q : ℚ} (hc : Canonical u)
    (h : Nearby q (unpackedValue u)) : Rounds q (.ofModel (.pack u)) := by
  obtain ⟨hn, hv⟩ := hc.value_pack
  refine ⟨hn, fun v hg hb hq => ?_, fun v hg hb hq => ?_⟩ <;> rw [hv] <;> rw [abs_le] at hb
  · exact le_max_of_le_right (le_min hb.2 (h.le_of_le _ hg hq))
  · exact max_le hb.1 (min_le_of_right_le (h.ge_of_ge _ hg hq))

namespace Rounds

variable {q : ℚ} {r : Float}

lemma value_eq (h : Rounds q r) (hg : OnGrid q) (hb : |q| ≤ reach) : value r = q :=
  le_antisymm (h.ge_of_ge q hg hb le_rfl) (h.le_of_le q hg hb le_rfl)

lemma value_le (h : Rounds q r) (x : Float) (hx : value x ≤ q) : value x ≤ value r :=
  h.le_of_le _ (onGrid_value x).1 (onGrid_value x).2 hx

lemma le_value (h : Rounds q r) (x : Float) (hx : q ≤ value x) : value r ≤ value x :=
  h.ge_of_ge _ (onGrid_value x).1 (onGrid_value x).2 hx

lemma nonneg (h : Rounds q r) (hq : 0 ≤ q) : 0 ≤ value r := h.value_le 0.0 hq

lemma nonpos (h : Rounds q r) (hq : q ≤ 0) : value r ≤ 0 := h.le_value 0.0 hq

end Rounds

lemma Nearby.refl (q : ℚ) : Nearby q q := ⟨fun _ _ h => h, fun _ _ h => h⟩

lemma OnGrid.ofInt {n : ℤ} (h : |n| < 2 ^ 53) : OnGrid n := ⟨n, 0, h, by norm_num, by simp⟩

lemma pow_le_reach : (2 : ℚ) ^ 64 ≤ reach := by
  rw [reach, ← zpow_natCast]
  exact zpow_le_zpow_right₀ one_le_two (by norm_num)

end Barline.Binary64
