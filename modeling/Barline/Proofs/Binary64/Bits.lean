import Mathlib

/-!
# The bits of a number

A binary64 number is packed into a sign bit, eleven bits of exponent and 52 bits of mantissa. Both
ways through the packing are described here, so that nothing else has to look at bits.
-/

namespace Barline.Binary64

open Float.Model Float.Model.UnpackedFloat

/-- A mantissa and an exponent as the format keeps them, the exponent as large as it likes. -/
structure Normal (m : ℕ) (e : ℤ) : Prop where
  pos : 0 < m
  lt : m < 2 ^ 53
  ge : -1074 ≤ e
  full : 2 ^ 52 ≤ m ∨ e = -1074

lemma toNat_append_implicit (m : BitVec 52) : (1#1 ++ m).toNat = 2 ^ 52 + m.toNat := by
  rw [BitVec.toNat_append, ← Nat.shiftLeft_add_eq_or_of_lt m.isLt]
  rfl

lemma toNat_mantissa (b : BitVec 64) :
    (@unpackMantissa Format.binary64 b).toNat = b.toNat % 2 ^ 52 := by
  change (b.extractLsb 51 0).toNat = _
  simp [BitVec.extractLsb_toNat]

lemma toNat_exponent (b : BitVec 64) :
    (@unpackExponent Format.binary64 b).toNat = b.toNat / 2 ^ 52 % 2 ^ 11 := by
  change (b.extractLsb 62 52).toNat = _
  simp [BitVec.extractLsb_toNat, Nat.shiftRight_eq_div_pow]

/-- The sign that the bits of a number give. -/
def signOf (n : ℕ) : Sign := if n < 2 ^ 63 then .positive else .negative

lemma ofBitVec_sign (b : BitVec 64) :
    Sign.ofBitVec (@unpackSign Format.binary64 b) = signOf b.toNat := by
  have h : (@unpackSign Format.binary64 b).toNat = b.toNat / 2 ^ 63 := by
    change (b.extractLsb 63 63).toNat = _
    simp [BitVec.extractLsb_toNat, Nat.shiftRight_eq_div_pow]
    have := b.isLt
    omega
  unfold signOf
  split_ifs with hn
  · have : @unpackSign Format.binary64 b = 0#1 := BitVec.eq_of_toNat_eq (by simp; omega)
    rw [this]
    rfl
  · have : @unpackSign Format.binary64 b = 1#1 := by
      have := b.isLt
      exact BitVec.eq_of_toNat_eq (by simp; omega)
    rw [this]
    rfl

/-- What the bits of a number unpack to. -/
inductive Unpacks (n : ℕ) : UnpackedFloat → Prop
  | infinity : n / 2 ^ 52 % 2 ^ 11 = 2047 → n % 2 ^ 52 = 0 → Unpacks n (.infinity (signOf n))
  | notANumber : n / 2 ^ 52 % 2 ^ 11 = 2047 → n % 2 ^ 52 ≠ 0 → Unpacks n .notANumber
  | zero : n / 2 ^ 52 % 2 ^ 11 = 0 → n % 2 ^ 52 = 0 → Unpacks n (.zero (signOf n))
  | subnormal {m : ℕ} {e : ℤ} (h : 0 < m) : n / 2 ^ 52 % 2 ^ 11 = 0 → m = n % 2 ^ 52 → e = -1074 →
    Unpacks n (.finite (signOf n) m e h)
  | normal {m : ℕ} {e : ℤ} (h : 0 < m) : n / 2 ^ 52 % 2 ^ 11 ≠ 0 → n / 2 ^ 52 % 2 ^ 11 < 2047 →
    m = 2 ^ 52 + n % 2 ^ 52 → e = (n / 2 ^ 52 % 2 ^ 11 : ℕ) - 1075 →
    Unpacks n (.finite (signOf n) m e h)

/-- Unpacking takes the bits apart into sign, exponent and mantissa. -/
theorem unpacks_unpack (x : Float.Model) : Unpacks x.toBits.toNat x.unpack := by
  have hm := toNat_mantissa x.toBits.toBitVec
  have he := toNat_exponent x.toBits.toBitVec
  have hs := ofBitVec_sign x.toBits.toBitVec
  have hbias : ((Format.binary64.exponentBias : ℤ) + (52 : ℕ)) = 1075 := by decide
  rw [UInt64.toNat_toBitVec] at hm he hs
  unfold Float.Model.unpack UnpackedFloat.unpack
  dsimp only
  rw [hs]
  split
  · rename_i hg
    have hg' := congrArg BitVec.toNat hg
    rw [he] at hg'
    split
    · rename_i hf
      have hf' := congrArg BitVec.toNat hf
      rw [hm] at hf'
      exact .infinity hg' hf'
    · rename_i hf
      exact .notANumber hg' fun hc => hf (BitVec.eq_of_toNat_eq (hm.trans hc))
  · rename_i hg
    have hg' : x.toBits.toNat / 2 ^ 52 % 2 ^ 11 ≠ 2047 :=
      fun hc => hg (BitVec.eq_of_toNat_eq (he.trans hc))
    split
    · rename_i hg0
      have hg0' := congrArg BitVec.toNat hg0
      rw [he] at hg0'
      split
      · rename_i hf
        have hf' := congrArg BitVec.toNat hf
        rw [hm] at hf'
        exact .zero hg0' hf'
      · refine .subnormal _ hg0' hm ?_
        rw [hbias, he, hg0']
        rfl
    · rename_i hg0
      have hg0' : x.toBits.toNat / 2 ^ 52 % 2 ^ 11 ≠ 0 :=
        fun hc => hg0 (BitVec.eq_of_toNat_eq (he.trans hc))
      refine .normal _ hg0' (by omega) ?_ ?_
      · exact (toNat_append_implicit _).trans (by rw [hm])
      · rw [hbias, he]

/-- What is read from bits is normal and within reach. -/
theorem normal_of_unpack {x : Float.Model} {s : Sign} {m : ℕ} {e : ℤ} {h : 0 < m}
    (hu : x.unpack = .finite s m e h) : Normal m e ∧ e ≤ 971 := by
  have hx := unpacks_unpack x
  rw [hu] at hx
  cases hx with
  | subnormal _ hf hm he => exact ⟨⟨h, by omega, by omega, by omega⟩, by omega⟩
  | normal _ hf hf' hm he => exact ⟨⟨h, by omega, by omega, by omega⟩, by omega⟩

@[simp] lemma unpack_pack_zero (s : Sign) : (Float.Model.pack (.zero s)).unpack = .zero s := by
  cases s <;> rfl

@[simp] lemma unpack_pack_infinity (s : Sign) :
    (Float.Model.pack (.infinity s)).unpack = .infinity s := by
  cases s <;> rfl

@[simp] lemma unpack_pack_notANumber :
    (Float.Model.pack .notANumber).unpack = .notANumber := rfl

lemma ofNat_ne {w n : ℕ} {v : BitVec w} (hlt : n < 2 ^ w) (h : n ≠ v.toNat) :
    BitVec.ofNat w n ≠ v := by
  rintro rfl
  exact h (by rw [BitVec.toNat_ofNat, Nat.mod_eq_of_lt hlt])

/-- Packing loses nothing of a normal number within reach. -/
theorem unpack_pack_finite (s : Sign) {m : ℕ} {e : ℤ} (h : 0 < m) (hn : Normal m e)
    (he : e ≤ 971) : (Float.Model.pack (.finite s m e h)).unpack = .finite s m e h := by
  obtain ⟨-, hm, hge, hfull⟩ := hn
  have hbias : (e + (Format.binary64.exponentBias : ℤ) + (52 : ℕ)).toNat = (e + 1075).toNat := by
    have : (Format.binary64.exponentBias : ℤ) = 1023 := by decide
    omega
  have hlog : m.log2 < 53 := (Nat.log2_lt h.ne').mpr hm
  unfold Float.Model.pack UnpackedFloat.pack
  change UnpackedFloat.unpack Format.binary64 (if 2 ^ 11 ≤ (e + _ + (52 : ℕ)).toNat + 1 then _
    else if m.log2 + 1 = 53 then
      packComponents Format.binary64 s (BitVec.ofNat 11 _) (BitVec.ofNat 52 m)
    else packComponents Format.binary64 s 0#11 (BitVec.ofNat 52 m)) = _
  rw [hbias, if_neg (by omega)]
  -- a leading bit is dropped in packing and put back by the exponent field, unless that is zero
  by_cases hfull' : 2 ^ 52 ≤ m
  · have hlog' : m.log2 + 1 = 53 := by have := (Nat.le_log2 h.ne').mpr hfull'; omega
    have hg : (BitVec.ofNat 11 (e + 1075).toNat).toNat = (e + 1075).toNat := by
      rw [BitVec.toNat_ofNat, Nat.mod_eq_of_lt (by omega)]
    have hf : (1#1 ++ BitVec.ofNat 52 m).toNat = m := by
      rw [toNat_append_implicit, BitVec.toNat_ofNat]
      omega
    have hg1 : BitVec.ofNat 11 (e + 1075).toNat ≠ -1#11 :=
      ofNat_ne (by omega) (show (e + 1075).toNat ≠ 2047 by omega)
    have hg0 : BitVec.ofNat 11 (e + 1075).toNat ≠ 0#11 :=
      ofNat_ne (by omega) (show (e + 1075).toNat ≠ 0 by omega)
    rw [if_pos hlog']
    unfold UnpackedFloat.unpack
    simp only [unpackMantissa_packComponents, unpackExponent_packComponents,
      unpackSign_packComponents, Sign.ofBitVec_toBitVec, hg1, hg0, if_false, hf, hg]
    congr 1
    have : (Format.binary64.exponentBias : ℤ) = 1023 := by decide
    omega
  · have hlog' : ¬ m.log2 + 1 = 53 := by
      have := (Nat.log2_lt h.ne').mpr (by omega : m < 2 ^ 52)
      omega
    have hf : (BitVec.ofNat 52 m).toNat = m := by
      rw [BitVec.toNat_ofNat, Nat.mod_eq_of_lt (by omega)]
    have hf0 : BitVec.ofNat 52 m ≠ 0#52 := ofNat_ne (by omega) h.ne'
    rw [if_neg hlog']
    unfold UnpackedFloat.unpack
    simp only [unpackMantissa_packComponents, unpackExponent_packComponents,
      unpackSign_packComponents, Sign.ofBitVec_toBitVec, hf0, hf]
    have he' : e = -1074 := by omega
    subst he'
    rfl

/-- A normal number out of reach is packed as an infinity. -/
theorem pack_out_of_reach (s : Sign) {m : ℕ} {e : ℤ} (h : 0 < m) (he : 971 < e) :
    Float.Model.pack (.finite s m e h) = Float.Model.pack (.infinity s) := by
  have hbias : (Format.binary64.exponentBias : ℤ) = 1023 := by decide
  unfold Float.Model.pack UnpackedFloat.pack
  have : 2 ^ 11 ≤ (e + (Format.binary64.exponentBias : ℤ) + (52 : ℕ)).toNat + 1 := by omega
  congr 2
  exact if_pos this

end Barline.Binary64
