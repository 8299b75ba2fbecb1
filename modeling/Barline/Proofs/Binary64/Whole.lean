import Barline.Proofs.Binary64.Arithmetic

/-!
# Signs and whole numbers

The conversions between binary64 numbers and machine integers are exact where the integers are
small, and drop the fraction on the way back.
-/

namespace Barline.Binary64

open Float.Model Float.Model.UnpackedFloat

lemma unpack_pack_of_packable {u : UnpackedFloat} (h : Packable u) :
    (Float.Model.pack u).unpack = u := by
  cases u with
  | notANumber => exact unpack_pack_notANumber
  | infinity s => exact unpack_pack_infinity s
  | zero s => exact unpack_pack_zero s
  | finite s m e hm => exact unpack_pack_finite s hm h.1 h.2

lemma packable_neg {u : UnpackedFloat} (h : Packable u) : Packable u.neg := by
  cases u <;> exact h

lemma packable_abs {u : UnpackedFloat} (h : Packable u) : Packable u.abs := by
  cases u <;> exact h

lemma unpackedValue_neg (u : UnpackedFloat) : unpackedValue u.neg = -unpackedValue u := by
  cases u with
  | notANumber => simp [UnpackedFloat.neg, unpackedValue]
  | zero s => simp [UnpackedFloat.neg, unpackedValue]
  | infinity s => cases s <;> simp [UnpackedFloat.neg, unpackedValue, factor]
  | finite s m e h => cases s <;> simp [UnpackedFloat.neg, unpackedValue, factor]

lemma unpackedValue_abs (u : UnpackedFloat) : unpackedValue u.abs = |unpackedValue u| := by
  have hr := reach_pos.le
  cases u with
  | notANumber => simp [UnpackedFloat.abs, unpackedValue]
  | zero s => simp [UnpackedFloat.abs, unpackedValue]
  | infinity s => cases s <;> simp [UnpackedFloat.abs, unpackedValue, factor, abs_of_nonneg hr]
  | finite s m e h =>
    have hp : (0 : ℚ) ≤ m * 2 ^ e := by positivity
    cases s <;> simp [UnpackedFloat.abs, unpackedValue, factor]

lemma unpack_neg (x : Float) : (-x).toModel.unpack = x.toModel.unpack.neg :=
  unpack_pack_of_packable (packable_neg (packable_unpack _))

lemma unpack_abs (x : Float) : x.abs.toModel.unpack = x.toModel.unpack.abs :=
  unpack_pack_of_packable (packable_abs (packable_unpack _))

@[simp] theorem value_neg (x : Float) : value (-x) = -value x := by
  rw [value, unpack_neg, unpackedValue_neg, value]

@[simp] theorem value_abs (x : Float) : value x.abs = |value x| := by
  rw [value, unpack_abs, unpackedValue_abs, value]

@[simp] lemma isNaN_neg (x : Float) : (-x).isNaN = x.isNaN := by
  rw [isNaN_eq, isNaN_eq, unpack_neg]
  cases x.toModel.unpack <;> rfl

@[simp] lemma isNaN_abs (x : Float) : x.abs.isNaN = x.isNaN := by
  rw [isNaN_eq, isNaN_eq, unpack_abs]
  cases x.toModel.unpack <;> rfl

/-- Finite numbers are those within reach. -/
theorem isFinite_iff (x : Float) : x.isFinite ↔ x.isNaN = false ∧ |value x| < reach := by
  have hr := reach_pos
  have hp := packable_unpack x.toModel
  change x.toModel.unpack.isFinite = true ↔ x.toModel.unpack.isNaN = false ∧
    |unpackedValue x.toModel.unpack| < reach
  cases hu : x.toModel.unpack with
  | notANumber => simp [UnpackedFloat.isFinite, UnpackedFloat.isNaN]
  | zero s => simp [UnpackedFloat.isFinite, UnpackedFloat.isNaN, unpackedValue, hr]
  | infinity s =>
    cases s <;> simp [UnpackedFloat.isFinite, unpackedValue, factor, abs_of_pos hr]
  | finite s m e h =>
    rw [hu] at hp
    have hlt := hp.1.value_lt_reach hp.2
    have hpos := hp.1.value_pos
    simp only [UnpackedFloat.isFinite, UnpackedFloat.isNaN, true_and, unpackedValue, true_iff]
    cases s <;> simp only [factor] <;> rw [abs_lt] <;> constructor <;> linarith

lemma isNaN_of_isFinite {x : Float} (h : x.isFinite) : x.isNaN = false := ((isFinite_iff x).mp h).1

lemma eq_of_unpack {x y : Float} (h : x.toModel.unpack = y.toModel.unpack) : x = y :=
  Float.toBits_inj.mp (UInt64.toBitVec_inj.mp
    ((unpack_inj_of_valid x.toModel.valid y.toModel.valid).mp h))

lemma Normal.eq_of_value_eq {m n : ℕ} {e f : ℤ} (hm : Normal m e) (hn : Normal n f)
    (h : (m : ℚ) * 2 ^ e = n * 2 ^ f) : m = n ∧ e = f := by
  have hcompare := hm.compare_value hn
  rw [h, compare_eq_iff_eq.mpr rfl, Ordering.then_eq_eq] at hcompare
  exact ⟨compare_eq_iff_eq.mp hcompare.2, compare_eq_iff_eq.mp hcompare.1⟩

/-- A number above zero is told by its value. -/
theorem eq_of_value_eq {x y : Float} (hx : x.isNaN = false) (hy : y.isNaN = false)
    (hpos : 0 < value x) (h : value x = value y) : x = y := by
  have hpos' : 0 < value y := h ▸ hpos
  have hpx := packable_unpack x.toModel
  have hpy := packable_unpack y.toModel
  refine eq_of_unpack ?_
  rw [isNaN_eq] at hx hy
  unfold value at h hpos hpos'
  have hr := reach_pos
  -- what is above zero has a positive sign, so it is an infinity or a mantissa with an exponent
  have hform {u : UnpackedFloat} (hu : u.isNaN = false) (hpu : Packable u)
      (h0 : 0 < unpackedValue u) : u = .infinity .positive ∨
        ∃ m e hm, u = .finite .positive m e hm ∧ Normal m e ∧ e ≤ 971 := by
    cases u with
    | notANumber => cases hu
    | zero s => exact absurd h0 (lt_irrefl 0)
    | infinity s =>
      cases s with
      | positive => exact .inl rfl
      | negative =>
        simp only [unpackedValue, factor] at h0
        linarith
    | finite s m e hm =>
      cases s with
      | positive => exact .inr ⟨m, e, hm, rfl, hpu⟩
      | negative =>
        have := hpu.1.value_pos
        simp only [unpackedValue, factor] at h0
        linarith
  obtain hux | ⟨m, e, hm, hux, hnormal, he⟩ := hform hx hpx hpos <;>
    obtain huy | ⟨n, f, hn, huy, hnormal', hf⟩ := hform hy hpy hpos' <;>
    rw [hux, huy] at h <;> rw [hux, huy]
  · have := hnormal'.value_lt_reach hf
    simp only [unpackedValue, factor, one_mul] at h
    linarith
  · have := hnormal.value_lt_reach he
    simp only [unpackedValue, factor, one_mul] at h
    linarith
  · simp only [unpackedValue, factor, one_mul] at h
    obtain ⟨rfl, rfl⟩ := hnormal.eq_of_value_eq hnormal' h
    rfl

/-- Apart from the finite numbers there are two infinities and one that is no number. -/
theorem eq_of_not_isFinite {x : Float} (h : x.isFinite = false) :
    x = 1.0 / 0.0 ∨ x = -1.0 / 0.0 ∨ x = 0.0 / 0.0 := by
  change x.toModel.unpack.isFinite = false at h
  cases hv : x.toModel.unpack with
  | zero s => rw [hv] at h; cases h
  | finite s m e hm => rw [hv] at h; cases h
  | infinity s =>
    cases s with
    | positive => exact .inl (eq_of_unpack hv)
    | negative => exact .inr (.inl (eq_of_unpack hv))
  | notANumber => exact .inr (.inr (eq_of_unpack hv))

lemma roundToInt_eq_floor {m : ℕ} (e : ℤ) :
    (roundToInt .positive m e).toNat = ⌊(m : ℚ) * 2 ^ e⌋₊ := by
  obtain ⟨k, hk⟩ : ∃ k, k = (0 - (e - e.toNat)).toNat := ⟨_, rfl⟩
  have hround : (roundToInt .positive m e).toNat =
      (ExtendedMantissa.ofMantissaAndAccuracy (m <<< e.toNat) .exact >>> k).mantissa := by
    subst hk
    simp only [roundToInt, decreaseExponent, shiftToExponent, Sign.apply, Int.toNat_natCast,
      sub_zero]
  have hval : (m : ℚ) * 2 ^ e = ((m <<< e.toNat : ℕ) : ℚ) / 2 ^ k := by
    have h := shiftLeft_mul_zpow m e.toNat e
    rw [← h, show e - (e.toNat : ℤ) = -k by omega, zpow_neg, zpow_natCast, div_eq_mul_inv]
  have hB := (between_exact (m <<< e.toNat)).shiftRight k
  rw [hround, hval, eq_comm, Nat.floor_eq_iff (by positivity)]
  exact ⟨hB.le, hB.lt⟩

lemma toInt_eq_floor {u : UnpackedFloat} {a b : ℤ} (h0 : 0 ≤ unpackedValue u)
    (h : unpackedValue u < reach) : (u.toInt a b).toNat = ⌊unpackedValue u⌋₊ := by
  have hr := reach_pos
  cases u with
  | notANumber => simp [UnpackedFloat.toInt, unpackedValue]
  | zero s => simp [UnpackedFloat.toInt, unpackedValue]
  | infinity s =>
    cases s <;> simp only [unpackedValue, factor] at h0 h
    · linarith
    · linarith
  | finite s m e hm =>
    cases s with
    | negative =>
      have : (0 : ℚ) < m * 2 ^ e := by
        have : (0 : ℚ) < m := by exact_mod_cast hm
        positivity
      simp only [unpackedValue, factor] at h0
      linarith
    | positive =>
      simp only [UnpackedFloat.toInt, unpackedValue, factor, one_mul]
      exact roundToInt_eq_floor e

lemma lt_reach {q : ℚ} (h : q < 2 ^ 64) : q < reach := h.trans_le pow_le_reach

theorem toNat_toUInt64 {x : Float} (h0 : 0 ≤ value x) (h : value x < 2 ^ 64) :
    x.toUInt64.toNat = ⌊value x⌋₊ := by
  change (UInt64.ofNatClamp (x.toModel.unpack.toInt 0 _).toNat).toNat = _
  have hfloor : ⌊value x⌋₊ < UInt64.size := by
    rw [Nat.floor_lt h0]
    exact h.trans_eq (by norm_num [UInt64.size])
  rw [toInt_eq_floor h0 (lt_reach h)]
  change (UInt64.ofNatClamp ⌊value x⌋₊).toNat = _
  rw [UInt64.ofNatClamp_eq_ofNat _ hfloor, UInt64.toNat_ofNat', Nat.mod_eq_of_lt hfloor]

lemma toNat_toUInt32_min {x : Float} (h0 : 0 ≤ value x) (h : value x < reach) :
    x.toUInt32.toNat = min ⌊value x⌋₊ (2 ^ 32 - 1) := by
  change (UInt32.ofNatClamp (x.toModel.unpack.toInt 0 _).toNat).toNat = _
  rw [toInt_eq_floor h0 h]
  change (UInt32.ofNatClamp ⌊value x⌋₊).toNat = _
  have hsize : UInt32.size = 2 ^ 32 := rfl
  rcases lt_or_ge ⌊value x⌋₊ UInt32.size with hlt | hge
  · rw [UInt32.toNat_ofNatClamp_of_lt hlt, min_eq_left (by omega)]
  · rw [UInt32.toNat_ofNatClamp_of_le hge, min_eq_right (by omega), hsize]

theorem toNat_toUInt32 {x : Float} (h0 : 0 ≤ value x) (h : value x < 2 ^ 32) :
    x.toUInt32.toNat = ⌊value x⌋₊ := by
  have hfloor : ⌊value x⌋₊ < 2 ^ 32 := by
    rw [Nat.floor_lt h0]
    exact_mod_cast h
  rw [toNat_toUInt32_min h0 (lt_reach (h.trans (by norm_num))), min_eq_left (by omega)]

theorem toNat_toUInt8 {x : Float} (h0 : 0 ≤ value x) (h : value x < 2 ^ 8) :
    x.toUInt8.toNat = ⌊value x⌋₊ := by
  change (UInt8.ofNatClamp (x.toModel.unpack.toInt 0 _).toNat).toNat = _
  have hfloor : ⌊value x⌋₊ < UInt8.size := by
    rw [Nat.floor_lt h0]
    exact h.trans_eq (by norm_num [UInt8.size])
  rw [toInt_eq_floor h0 (lt_reach (h.trans (by norm_num)))]
  change (UInt8.ofNatClamp ⌊value x⌋₊).toNat = _
  rw [UInt8.ofNatClamp_eq_ofNat _ hfloor, UInt8.toNat_ofNat', Nat.mod_eq_of_lt hfloor]

lemma rounds_ofNat (n : ℕ) :
    Rounds n (.ofModel (.pack (UnpackedFloat.ofNat Format.binary64 n))) := by
  have h := near_normalize n 0 .positive
  rw [zpow_zero, mul_one] at h
  exact h.rounds

lemma value_ofNat {n : ℕ} (h : n < 2 ^ 53) :
    value (.ofModel (.pack (UnpackedFloat.ofNat Format.binary64 n))) = n := by
  refine (rounds_ofNat n).value_eq ?_ ?_
  · exact OnGrid.ofInt (by rw [Nat.abs_cast]; exact_mod_cast h)
  · have h64 : (n : ℚ) ≤ 2 ^ 64 := by exact_mod_cast h.le.trans (by norm_num)
    rw [Nat.abs_cast]
    exact h64.trans pow_le_reach

theorem value_toFloat64 {n : UInt64} (h : n.toNat < 2 ^ 53) : value n.toFloat = n.toNat :=
  value_ofNat h

theorem value_toFloat32 (n : UInt32) : value n.toFloat = n.toNat :=
  value_ofNat (n.toNat_lt.trans (by norm_num))

lemma isNaN_toFloat32 (n : UInt32) : n.toFloat.isNaN = false := (rounds_ofNat n.toNat).isNaN_eq

lemma isFinite_toFloat32 (n : UInt32) : n.toFloat.isFinite := by
  have hlt : (n.toNat : ℚ) < 2 ^ 32 := by exact_mod_cast n.toNat_lt
  rw [isFinite_iff, value_toFloat32, Nat.abs_cast]
  exact ⟨isNaN_toFloat32 n, lt_reach (hlt.trans (by norm_num))⟩

/-- A 32-bit number comes back as it was. -/
@[simp] theorem toUInt32_toFloat (n : UInt32) : n.toFloat.toUInt32 = n := by
  have hvalue := value_toFloat32 n
  have hlt : (n.toNat : ℚ) < 2 ^ 32 := by exact_mod_cast n.toNat_lt
  refine UInt32.toNat_inj.mp ?_
  rw [toNat_toUInt32 (by rw [hvalue]; positivity) (by rwa [hvalue]), hvalue, Nat.floor_natCast]

theorem value_toFloat8 (n : UInt8) : value n.toFloat = n.toNat :=
  value_ofNat (n.toNat_lt.trans (by norm_num))

lemma isNaN_toFloat8 (n : UInt8) : n.toFloat.isNaN = false := (rounds_ofNat n.toNat).isNaN_eq

end Barline.Binary64
