import Barline.Proofs.Binary64.Value
import Barline.Number.Rounding

/-!
# The order of numbers

Without their sign, the bits of a number grow with its size. So the keys by which numbers are sorted
come in the order of the numbers, and tell apart what that order does not: zeros of both signs, and
what is no number.
-/

namespace Barline.Number

open Binary64 Float.Model

/-- The size that bits without a sign stand for. -/
def sizeOfBits (n : ℕ) : ℚ :=
  if n / 2 ^ 52 = 0 then (n % 2 ^ 52 : ℕ) * 2 ^ (-1074 : ℤ)
  else (2 ^ 52 + (n % 2 ^ 52 : ℕ)) * 2 ^ ((n / 2 ^ 52 : ℕ) - 1075 : ℤ)

lemma sizeOfBits_nonneg (n : ℕ) : 0 ≤ sizeOfBits n := by
  unfold sizeOfBits
  split_ifs <;> positivity

lemma sizeOfBits_le (n : ℕ) : sizeOfBits n ≤ 2 ^ ((n / 2 ^ 52 : ℕ) - 1022 : ℤ) := by
  have hmantissa : ((n % 2 ^ 52 : ℕ) : ℚ) ≤ 2 ^ 52 := by
    exact_mod_cast (Nat.mod_lt n (by norm_num)).le
  unfold sizeOfBits
  split_ifs with hexponent
  · calc ((n % 2 ^ 52 : ℕ) : ℚ) * 2 ^ (-1074 : ℤ) ≤ 2 ^ 52 * 2 ^ (-1074 : ℤ) := by gcongr
      _ = 2 ^ ((n / 2 ^ 52 : ℕ) - 1022 : ℤ) := by
        rw [hexponent, ← zpow_natCast, ← zpow_add₀ two_ne_zero]
        norm_num
  · calc (2 ^ 52 + (n % 2 ^ 52 : ℕ) : ℚ) * 2 ^ ((n / 2 ^ 52 : ℕ) - 1075 : ℤ)
        ≤ (2 ^ 52 + 2 ^ 52) * 2 ^ ((n / 2 ^ 52 : ℕ) - 1075 : ℤ) := by gcongr
      _ = 2 ^ (53 : ℤ) * 2 ^ ((n / 2 ^ 52 : ℕ) - 1075 : ℤ) := by norm_num
      _ = 2 ^ ((n / 2 ^ 52 : ℕ) - 1022 : ℤ) := by
        rw [← zpow_add₀ two_ne_zero]
        congr 1
        ring

lemma le_sizeOfBits {n : ℕ} (h : n / 2 ^ 52 ≠ 0) :
    (2 : ℚ) ^ ((n / 2 ^ 52 : ℕ) - 1023 : ℤ) ≤ sizeOfBits n := by
  rw [sizeOfBits, if_neg h]
  calc (2 : ℚ) ^ ((n / 2 ^ 52 : ℕ) - 1023 : ℤ)
      = 2 ^ (52 : ℤ) * 2 ^ ((n / 2 ^ 52 : ℕ) - 1075 : ℤ) := by
        rw [← zpow_add₀ two_ne_zero]
        congr 1
        ring
    _ ≤ (2 ^ 52 + (n % 2 ^ 52 : ℕ)) * 2 ^ ((n / 2 ^ 52 : ℕ) - 1075 : ℤ) := by
        gcongr
        exact_mod_cast Nat.le_add_right ..

/-- Exponents first, then mantissas: bits without a sign grow with the size. -/
lemma sizeOfBits_mono : Monotone sizeOfBits := by
  intro n m h
  obtain hexponents | hexponents := (Nat.div_le_div_right (c := 2 ^ 52) h).lt_or_eq
  · calc sizeOfBits n ≤ 2 ^ ((n / 2 ^ 52 : ℕ) - 1022 : ℤ) := sizeOfBits_le n
      _ ≤ 2 ^ ((m / 2 ^ 52 : ℕ) - 1023 : ℤ) := zpow_le_zpow_right₀ one_le_two (by omega)
      _ ≤ sizeOfBits m := le_sizeOfBits (by omega)
  · have hmantissas : n % 2 ^ 52 ≤ m % 2 ^ 52 := by omega
    unfold sizeOfBits
    rw [hexponents]
    split_ifs <;> gcongr

lemma unpackedValue_eq_size {n : ℕ} {u : UnpackedFloat} (h : Unpacks n u) (hu : u.isNaN = false) :
    unpackedValue u = factor (signOf n) * sizeOfBits (n % 2 ^ 63) := by
  have hexponent : n % 2 ^ 63 / 2 ^ 52 = n / 2 ^ 52 % 2 ^ 11 := by omega
  have hmantissa : n % 2 ^ 63 % 2 ^ 52 = n % 2 ^ 52 := by omega
  rw [sizeOfBits, hexponent, hmantissa]
  cases h with
  | infinity he hm =>
    have hreach : reach = 2 ^ (52 : ℤ) * 2 ^ (972 : ℤ) := by
      rw [← zpow_add₀ two_ne_zero]
      rfl
    rw [he, hm, unpackedValue, hreach]
    norm_num
  | notANumber => cases hu
  | zero he hm =>
    rw [if_pos he, hm, unpackedValue]
    norm_num
  | subnormal _ he hm hexp =>
    subst hm hexp
    rw [if_pos he, unpackedValue]
  | normal _ he _ hm hexp =>
    subst hm hexp
    rw [if_neg he, unpackedValue]
    push_cast
    rfl

/-- The order of numbers tells their bits apart. -/
lemma orderKey_inj {x y : Float} : orderKey x = orderKey y ↔ x = y := by
  refine ⟨fun h => ?_, congrArg _⟩
  rw [← Float.toBits_inj, ← UInt64.toNat_inj]
  have hx := x.toBits.toNat_lt
  have hy := y.toBits.toNat_lt
  unfold orderKey signBit at h
  dsimp only at h
  split_ifs at h <;> omega

/-- The value of the numbers that have a key. -/
def valueOfKey : ℤ → ℚ
  | .ofNat n => sizeOfBits n
  | .negSucc n => -sizeOfBits n

lemma valueOfKey_mono : Monotone valueOfKey := by
  intro k l h
  cases k with
  | ofNat n =>
    cases l with
    | ofNat m => exact sizeOfBits_mono (Int.ofNat_le.mp h)
    | negSucc m => exact absurd h (Int.negSucc_lt_zero m |>.trans_le (Int.natCast_nonneg n)).not_ge
  | negSucc n =>
    cases l with
    | ofNat m => exact (neg_nonpos.mpr (sizeOfBits_nonneg n)).trans (sizeOfBits_nonneg m)
    | negSucc m => exact neg_le_neg (sizeOfBits_mono (by omega))

lemma value_eq_valueOfKey {x : Float} (hx : x.isNaN = false) :
    value x = valueOfKey (orderKey x) := by
  have hvalue : value x = factor (signOf x.toBits.toNat) * sizeOfBits (x.toBits.toNat % 2 ^ 63) :=
    unpackedValue_eq_size (unpacks_unpack x.toModel) hx
  have hbit : signBit = 2 ^ 63 := rfl
  have hlt := x.toBits.toNat_lt
  rw [hvalue, orderKey, signOf, hbit]
  generalize x.toBits.toNat = n at hlt ⊢
  -- with a sign the key counts down from `-1`, which is the key of `-0`
  by_cases hsign : n < 2 ^ 63
  · rw [if_pos hsign, if_pos hsign, Nat.mod_eq_of_lt hsign]
    exact one_mul _
  · have hkey : ((2 ^ 63 : ℕ) : ℤ) - 1 - n = .negSucc (n % 2 ^ 63) := by omega
    rw [if_neg hsign, if_neg hsign, hkey]
    exact neg_one_mul _

/-- Keys come in the order of the numbers. -/
theorem le_of_orderKey_le {x y : Float} (hx : x.isNaN = false) (hy : y.isNaN = false)
    (h : orderKey x ≤ orderKey y) : x ≤ y := by
  rw [le_iff hx hy, value_eq_valueOfKey hx, value_eq_valueOfKey hy]
  exact valueOfKey_mono h

end Barline.Number
