import Barline.Number.Decimal
import Barline.Number.Reading
import Barline.Proofs.Binary64.Infinite
import Barline.Proofs.Number.Rounding

/-!
# Decimal text and values

The value of a numeral is the rounding of what it stands for, and `fixed` writes the nearest
decimal.
-/

namespace Barline.Number

open Binary64 Float.Model Float.Model.UnpackedFloat

lemma value_powerOfTen (k : ℕ) (hk : k < Float.exactlyRepresentablePowersOfTen.size) :
    value Float.exactlyRepresentablePowersOfTen[k] = 10 ^ k ∧
      Float.exactlyRepresentablePowersOfTen[k].isFinite = true := by
  revert k
  decide +kernel

lemma near_ofScientific {n : ℕ} (hn : 2 ^ 53 ≤ n) {k : ℕ} (hk : k ≤ 22) :
    Near (n / 10 ^ k) (UnpackedFloat.ofScientific Format.binary64 n (-(k : ℤ))) := by
  have hpos : 0 < n := lt_of_lt_of_le (by norm_num) hn
  have hlog : 53 ≤ n.log2 := (Nat.le_log2 hpos.ne').mpr hn
  have hbits : (2 : ℤ) ^ Format.binary64.exponentBits = 2048 := by decide
  have hmant : Format.binary64.mantissaBits = 53 := rfl
  unfold UnpackedFloat.ofScientific
  rw [dif_neg hpos.ne', if_neg (by rw [hbits]; omega), if_neg (by rw [hbits]; omega)]
  rcases Nat.eq_zero_or_pos k with rfl | hk0
  · rw [if_pos (by simp)]
    have hten : 10 ^ (-((0 : ℕ) : ℤ)).toNat = 1 := rfl
    have h := near_roundWithAccuracy_exact (.positive * .positive)
      (m := n <<< Format.binary64.mantissaBits * 10 ^ (-((0 : ℕ) : ℤ)).toNat)
      (e := -(Format.binary64.mantissaBits : ℤ) + 0)
      (by rw [hten, mul_one]; exact Nat.shiftLeft_pos_iff.mpr hpos)
      (by rw [hten, mul_one, log2_shiftLeft hpos, hmant]; omega)
    have hval : factor (.positive * .positive) *
        (((n <<< Format.binary64.mantissaBits * 10 ^ (-((0 : ℕ) : ℤ)).toNat : ℕ) : ℚ) *
          2 ^ (-(Format.binary64.mantissaBits : ℤ) + 0)) = n / 10 ^ 0 := by
      have hs := shiftLeft_mul_zpow n Format.binary64.mantissaBits 0
      rw [zero_sub, zpow_zero, mul_one] at hs
      rw [hten, mul_one, add_zero, hs, factor_mul]
      simp [factor]
    rw [hval] at h
    exact h
  · have hdiv := near_divCore .positive 0 0 hpos (Nat.pow_pos (by decide) : 0 < 10 ^ k)
    have hval : factor .positive * ((n : ℚ) * 2 ^ (0 : ℤ) / (((10 ^ k : ℕ) : ℚ) * 2 ^ (0 : ℤ))) =
        n / 10 ^ k := by
      simp [factor]
    rw [hval] at hdiv
    rw [if_neg (by omega)]
    have hexp : (- -(k : ℤ)).toNat = k := by omega
    simp only [hexp]
    exact hdiv

/-- The value of a decimal is a rounding of what its digits say. -/
theorem rounds_ofScientific (n : ℕ) {k : ℕ} (hk : k ≤ 22) :
    Rounds (n / 10 ^ k) (Float.ofScientific n true k) := by
  unfold Float.ofScientific
  by_cases h : n < 2 ^ 53 ∧ k ≤ 22
  · rw [dif_pos h]
    dsimp only
    rw [if_pos rfl]
    have hsize : k < Float.exactlyRepresentablePowersOfTen.size := Nat.lt_succ_of_le hk
    obtain ⟨hpow, hfin⟩ := value_powerOfTen k hsize
    have hn : n.toUInt64.toNat = n := by
      change (UInt64.ofNat n).toNat = n
      rw [UInt64.toNat_ofNat', Nat.mod_eq_of_lt (h.1.trans (by norm_num))]
    have hval : value n.toUInt64.toFloat = n := by rw [value_toFloat64 (by rw [hn]; exact h.1), hn]
    have hfin' : n.toUInt64.toFloat.isFinite := by
      rw [isFinite_iff, hval, Nat.abs_cast]
      exact ⟨isNaN_toFloat _, lt_reach (by exact_mod_cast h.1.trans (by norm_num))⟩
    have hr := rounds_div hfin' hfin (by rw [hpow]; positivity)
    rw [hval, hpow] at hr
    exact hr
  · have hneg : Int.negOfNat k = -(k : ℤ) := Int.negOfNat_eq
    rw [dif_neg h]
    dsimp only
    rw [if_pos rfl, hneg]
    exact (near_ofScientific (by omega) hk).rounds

lemma nonNeg_ofScientific (n k : ℕ) : NonNeg (Float.ofScientific n true k) := by
  by_cases hk : k ≤ 22
  · exact .of_rounds (rounds_ofScientific n hk) (by positivity)
  · have hneg : Int.negOfNat k = -(k : ℤ) := Int.negOfNat_eq
    unfold Float.ofScientific
    rw [dif_neg (by omega)]
    dsimp only
    rw [if_pos rfl, hneg]
    change NonNeg (.ofModel (.pack (UnpackedFloat.ofScientific Format.binary64 n (-(k : ℤ)))))
    unfold UnpackedFloat.ofScientific
    split_ifs with hn htop hbottom hsign
    · exact nonNeg_pack_zero _
    · exact nonNeg_infinity
    · exact nonNeg_pack_zero _
    · omega
    · have hexp : (- -(k : ℤ)).toNat = k := by omega
      have hdiv := near_divCore .positive 0 0 (Nat.pos_of_ne_zero hn)
        (Nat.pow_pos (by decide) : 0 < 10 ^ k)
      simp only [hexp]
      exact .of_rounds hdiv.rounds (by simp only [factor]; positivity)

lemma valueOf_append (a b : List Char) :
    valueOf (a ++ b) = valueOf a * 10 ^ b.length + valueOf b := by
  change Nat.ofDigitChars 10 (a ++ b) 0 = Nat.ofDigitChars 10 a 0 * _ + Nat.ofDigitChars 10 b 0
  rw [Nat.ofDigitChars_append, Nat.ofDigitChars_eq_ofDigitChars_zero, mul_comm]

lemma valueOf_replicate_zero (k : ℕ) : valueOf (List.replicate k '0') = 0 := by
  change Nat.ofDigitChars 10 (List.replicate k '0') 0 = 0
  rw [Nat.ofDigitChars_replicate_zero, mul_zero]

lemma valueOf_toDigits (n : ℕ) : valueOf (Nat.toDigits 10 n) = n := Nat.ofDigitChars_ten_toDigits

lemma isDigit_toDigits (n : ℕ) : ∀ c ∈ Nat.toDigits 10 n, c.isDigit := fun _ h =>
  Nat.isDigit_of_mem_toDigits (by decide) le_rfl h

namespace Decimal

/-- A decimal as it is written: without a point where no fraction is. -/
def text (d : Decimal) : List Char :=
  d.whole ++ if d.fraction.isEmpty then [] else '.' :: d.fraction

/-- A decimal of digits only, with a whole part. -/
structure Proper (d : Decimal) : Prop where
  whole_ne_nil : d.whole ≠ []
  whole_digits : ∀ c ∈ d.whole, c.isDigit
  fraction_digits : ∀ c ∈ d.fraction, c.isDigit

lemma Proper.text_eq_cons {d : Decimal} (h : d.Proper) :
    ∃ c rest, d.text = c :: rest ∧ c.isDigit := by
  obtain ⟨c, w, hw⟩ := List.exists_cons_of_ne_nil h.whole_ne_nil
  exact ⟨c, _, by rw [text, hw, List.cons_append], h.whole_digits c (by simp [hw])⟩

/-- The decimal without the zeros at its end. -/
def trim (d : Decimal) : Decimal :=
  ⟨d.whole, (d.fraction.reverse.dropWhile (· == '0')).reverse⟩

/-- What the digits of a decimal say. -/
def meaning (d : Decimal) : ℚ := valueOf (d.whole ++ d.fraction) / 10 ^ d.fraction.length

lemma Proper.meaning_eq_zero {d : Decimal} (h : d.Proper) (hd : d.text = ['0']) :
    d.meaning = 0 := by
  obtain ⟨c, w, hw⟩ := List.exists_cons_of_ne_nil h.whole_ne_nil
  rw [text, hw, List.cons_append, List.cons.injEq] at hd
  obtain ⟨rfl, hrest⟩ := hd
  obtain ⟨rfl, hfraction⟩ := List.append_eq_nil_iff.mp hrest
  have hnil : d.fraction = [] := by
    by_contra hne
    simp [hne] at hfraction
  rw [meaning, hw, hnil]
  simp [valueOf]

lemma trim_fraction (d : Decimal) : ∃ k, d.fraction = d.trim.fraction ++ List.replicate k '0' := by
  refine ⟨(d.fraction.reverse.takeWhile (· == '0')).length, ?_⟩
  have hzeros : d.fraction.reverse.takeWhile (· == '0') =
      List.replicate (d.fraction.reverse.takeWhile (· == '0')).length '0' :=
    List.eq_replicate_of_mem fun c hc => by simpa using List.mem_takeWhile_imp hc
  have h := congrArg List.reverse
    (List.takeWhile_append_dropWhile (p := (· == '0')) (l := d.fraction.reverse))
  rw [List.reverse_append, List.reverse_reverse, hzeros, List.reverse_replicate] at h
  exact h.symm

lemma Proper.trim {d : Decimal} (h : d.Proper) : d.trim.Proper := by
  obtain ⟨k, hk⟩ := d.trim_fraction
  exact ⟨h.whole_ne_nil, h.whole_digits, fun c hc => h.fraction_digits c (by rw [hk]; simp [hc])⟩

lemma meaning_trim (d : Decimal) : d.trim.meaning = d.meaning := by
  obtain ⟨k, hk⟩ := d.trim_fraction
  have hval : valueOf (d.whole ++ d.fraction) = valueOf (d.whole ++ d.trim.fraction) * 10 ^ k := by
    rw [hk, ← List.append_assoc, valueOf_append, valueOf_replicate_zero, List.length_replicate,
      add_zero]
  have hlen : d.fraction.length = d.trim.fraction.length + k := by
    conv_lhs => rw [hk]
    simp
  rw [meaning, meaning, hval, hlen, pow_add]
  push_cast
  rw [mul_div_mul_right _ _ (by positivity)]
  rfl

lemma trim_fraction_length_le (d : Decimal) : d.trim.fraction.length ≤ d.fraction.length := by
  obtain ⟨k, hk⟩ := d.trim_fraction
  conv_rhs => rw [hk]
  simp

/-- Dropping zeros and then points at the end of what is written drops no more than the zeros of
the fraction, and the point if nothing is left behind it. -/
lemma strip_text {d : Decimal} (h : d.Proper) (front : List Char) :
    let text := ((front ++ d.whole ++ '.' :: d.fraction).reverse.dropWhile (· == '0')).reverse
    (text.reverse.dropWhile (· == '.')).reverse = front ++ d.trim.text := by
  have hrev : (front ++ d.whole ++ '.' :: d.fraction).reverse =
      d.fraction.reverse ++ '.' :: (front ++ d.whole).reverse := by simp
  have hdot : ∀ c : Char, c.isDigit → (c == '.') = false := by
    intro c hc
    rw [beq_eq_false_iff_ne]
    rintro rfl
    exact absurd hc (by decide)
  dsimp only
  rw [hrev, List.dropWhile_append, List.reverse_reverse]
  by_cases hzero : (d.fraction.reverse.dropWhile (· == '0')).isEmpty
  · have hnil : d.trim.fraction = [] := by
      simpa [Decimal.trim] using hzero
    obtain ⟨c, w, hw⟩ : ∃ c w, d.whole = w ++ [c] :=
      ⟨d.whole.getLast h.whole_ne_nil, _, (List.dropLast_append_getLast h.whole_ne_nil).symm⟩
    have hc := hdot c (h.whole_digits c (by simp [hw]))
    rw [if_pos hzero, text, hnil]
    have hwhole : d.trim.whole = w ++ [c] := hw
    simp [hw, hwhole, hc]
  · rw [if_neg hzero]
    have hne : d.trim.fraction ≠ [] := by
      simpa [Decimal.trim] using hzero
    obtain ⟨c, f, hf⟩ : ∃ c f, d.trim.fraction = f ++ [c] :=
      ⟨d.trim.fraction.getLast hne, _, (List.dropLast_append_getLast hne).symm⟩
    have hc := hdot c (h.trim.fraction_digits c (by simp [hf]))
    have hrev : d.fraction.reverse.dropWhile (· == '0') = c :: f.reverse := by
      have := congrArg List.reverse hf
      simpa [Decimal.trim] using this
    have hwhole : d.trim.whole = d.whole := rfl
    rw [hrev, text, hf]
    simp [hc, hwhole]

end Decimal

lemma signOf_factor_abs (n : ℕ) (q : ℚ) (h : 0 ≤ q) : |factor (signOf n) * q| = q := by
  unfold signOf
  split_ifs
  · simp [factor, abs_of_nonneg h]
  · simp [factor, abs_of_nonneg h]

/-- The size that is read from the bits is the size of the value. -/
theorem value_magnitude {x : Float} (hx : x.isFinite) :
    |value x| = (magnitude x).mantissa * 2 ^ (magnitude x).exponent := by
  have hu := unpacks_unpack x.toModel
  change x.toModel.unpack.isFinite = true at hx
  have hfield : x.toModel.toBits.toNat % 2 ^ 63 / 2 ^ 52 =
      x.toModel.toBits.toNat / 2 ^ 52 % 2 ^ 11 := by
    omega
  have hlow : x.toModel.toBits.toNat % 2 ^ 63 % 2 ^ 52 = x.toModel.toBits.toNat % 2 ^ 52 := by omega
  have hmag : magnitude x = if x.toModel.toBits.toNat / 2 ^ 52 % 2 ^ 11 = 0
      then ⟨x.toModel.toBits.toNat % 2 ^ 52, -1074⟩
      else ⟨x.toModel.toBits.toNat % 2 ^ 52 + 2 ^ 52,
        (x.toModel.toBits.toNat / 2 ^ 52 % 2 ^ 11 : ℕ) - 1075⟩ := by
    rw [← hfield, ← hlow]
    rfl
  rw [hmag]
  unfold value
  cases hv : x.toModel.unpack with
  | notANumber => rw [hv] at hx; cases hx
  | infinity s => rw [hv] at hx; cases hx
  | zero s =>
    rw [hv] at hu
    cases hu with
    | zero hf hm =>
      rw [if_pos hf, unpackedValue, hm]
      simp
  | finite s m e h =>
    rw [hv] at hu
    cases hu with
    | subnormal _ hf hm he =>
      rw [if_pos hf, unpackedValue, signOf_factor_abs _ _ (by positivity), hm, he]
    | normal _ hf _ hm he =>
      rw [if_neg hf, unpackedValue, signOf_factor_abs _ _ (by positivity), hm, he, add_comm]

lemma roundDiv_near (tie : Tie) (num : ℕ) {den : ℕ} (hden : 0 < den) :
    |(roundDiv tie num den : ℚ) - num / den| ≤ 1 / 2 := by
  have hd : (0 : ℚ) < den := by exact_mod_cast hden
  have hsplit : (num : ℚ) = den * (num / den : ℕ) + (num % den : ℕ) := by
    exact_mod_cast (Nat.div_add_mod num den).symm
  have hquot : (num : ℚ) / den = (num / den : ℕ) + (num % den : ℕ) / den := by
    rw [div_eq_iff hd.ne', hsplit, add_mul, div_mul_cancel₀ _ hd.ne', mul_comm]
  have hmod : ((num % den : ℕ) : ℚ) / den < 1 := by
    rw [div_lt_one hd]
    exact_mod_cast Nat.mod_lt _ hden
  have hmod0 : (0 : ℚ) ≤ ((num % den : ℕ) : ℚ) / den := by positivity
  have hcase : (roundDiv tie num den = num / den ∧ 2 * (num % den) ≤ den) ∨
      (roundDiv tie num den = num / den + 1 ∧ den ≤ 2 * (num % den)) := by
    unfold roundDiv
    dsimp only
    split_ifs with h1 h2
    · exact .inl ⟨rfl, h1.le⟩
    · exact .inr ⟨rfl, h2.le⟩
    all_goals
      have heq : 2 * (num % den) = den := by omega
      cases tie
    · exact .inl ⟨rfl, heq.le⟩
    · exact .inr ⟨rfl, heq.ge⟩
    · exact .inr ⟨rfl, heq.ge⟩
    · exact .inr ⟨rfl, heq.ge⟩
  rw [hquot, abs_le]
  rcases hcase with ⟨h, hle⟩ | ⟨h, hle⟩ <;> rw [h]
  · have : ((num % den : ℕ) : ℚ) / den ≤ 1 / 2 := by
      rw [div_le_div_iff₀ hd two_pos]
      exact_mod_cast (by omega : num % den * 2 ≤ 1 * den)
    constructor <;> linarith
  · have : (1 : ℚ) / 2 ≤ ((num % den : ℕ) : ℚ) / den := by
      rw [div_le_div_iff₀ two_pos hd]
      exact_mod_cast (by omega : 1 * den ≤ num % den * 2)
    push_cast
    constructor <;> linarith

/-- The size of a number in steps of the last decimal place. -/
def scaledSize (places : ℕ) (x : Float) : ℕ :=
  roundDiv .toEven
    ((magnitude x).mantissa * tenPower places * twoPower (magnitude x).exponent.toNat)
    (twoPower (-(magnitude x).exponent).toNat)

theorem scaledSize_near {x : Float} (hx : x.isFinite) (places : ℕ) :
    |(scaledSize places x : ℚ) - |value x| * 10 ^ places| ≤ 1 / 2 := by
  have hden : 0 < twoPower (-(magnitude x).exponent).toNat := Nat.pow_pos two_pos
  have h := roundDiv_near .toEven
    ((magnitude x).mantissa * tenPower places * twoPower (magnitude x).exponent.toNat) hden
  have hscale : (2 : ℚ) ^ (magnitude x).exponent = (twoPower (magnitude x).exponent.toNat : ℕ) /
      (twoPower (-(magnitude x).exponent).toNat : ℕ) := by
    have hexp : (magnitude x).exponent = ((magnitude x).exponent.toNat : ℤ) -
      ((-(magnitude x).exponent).toNat : ℤ) := by omega
    conv_lhs => rw [hexp, zpow_sub₀ two_ne_zero, zpow_natCast, zpow_natCast]
    simp [twoPower]
  have hten : ((tenPower places : ℕ) : ℚ) = 10 ^ places := by simp [tenPower]
  have hsize : |value x| * 10 ^ places =
      (((magnitude x).mantissa * tenPower places * twoPower (magnitude x).exponent.toNat : ℕ) : ℚ) /
        (twoPower (-(magnitude x).exponent).toNat : ℕ) := by
    rw [value_magnitude hx, hscale, ← hten]
    push_cast
    ring
  rw [hsize]
  exact h

lemma isInf_of_isFinite {x : Float} (hx : x.isFinite) : x.isInf = false := by
  change x.toModel.unpack.isFinite = true at hx
  change x.toModel.unpack.isInf = false
  cases hv : x.toModel.unpack with
  | infinity s => rw [hv] at hx; cases hx
  | _ => rfl

/-- The digits of `n`, with zeros in front so that one at least stands before the point. -/
def padded (places n : ℕ) : List Char :=
  List.replicate (places + 1 - (digitsOf n).length) '0' ++ digitsOf n

lemma length_padded (places n : ℕ) : places + 1 ≤ (padded places n).length := by
  unfold padded
  rw [List.length_append, List.length_replicate]
  omega

lemma isDigit_padded {places n : ℕ} : ∀ c ∈ padded places n, c.isDigit := by
  intro c hc
  rw [padded, List.mem_append, List.mem_replicate] at hc
  rcases hc with ⟨-, rfl⟩ | hc
  · decide
  · exact isDigit_toDigits n c hc

lemma valueOf_padded (places n : ℕ) : valueOf (padded places n) = n := by
  rw [padded, valueOf_append, valueOf_replicate_zero, zero_mul, zero_add, digitsOf,
    valueOf_toDigits]

lemma padded_zero (places : ℕ) : padded places 0 = List.replicate (places + 1) '0' :=
  (List.replicate_succ' ..).symm

/-- A finite number is written as a decimal of digits behind a sign. -/
theorem fixed_of_isFinite {x : Float} (hx : x.isFinite) {places : ℕ} (hp : 0 < places) :
    ∃ d : Decimal, d.Proper ∧ d.fraction.length = places ∧
      valueOf (d.whole ++ d.fraction) = scaledSize places x ∧
      (scaledSize places x = 0 → d = ⟨['0'], List.replicate places '0'⟩) ∧
      fixed places x = sign x ++ d.whole ++ '.' :: d.fraction := by
  obtain ⟨text, htext⟩ : ∃ text, text = padded places (scaledSize places x) := ⟨_, rfl⟩
  have hlen : places + 1 ≤ text.length := htext ▸ length_padded ..
  have hdigit : ∀ c ∈ text, c.isDigit := htext ▸ isDigit_padded
  have hfixed : fixed places x = sign x ++
      (if (text.drop (text.length - places)).isEmpty then text.take (text.length - places)
        else text.take (text.length - places) ++ '.' :: text.drop (text.length - places)) := by
    rw [htext]
    unfold fixed
    rw [isNaN_of_isFinite hx, isInf_of_isFinite hx]
    rfl
  have hdrop : (text.drop (text.length - places)).length = places := by
    rw [List.length_drop]
    omega
  refine ⟨⟨text.take (text.length - places), text.drop (text.length - places)⟩, ⟨?_, ?_, ?_⟩,
    hdrop, ?_, ?_, ?_⟩
  · rw [← List.length_pos_iff, List.length_take]
    omega
  · exact fun c hc => hdigit c (List.mem_of_mem_take hc)
  · exact fun c hc => hdigit c (List.mem_of_mem_drop hc)
  · rw [List.take_append_drop, htext, valueOf_padded]
  · intro h0
    rw [htext, h0, padded_zero, List.length_replicate, List.take_replicate, List.drop_replicate,
      show places + 1 - places = 1 by omega, show min 1 (places + 1) = 1 by omega,
      show places + 1 - 1 = places by omega]
    rfl
  · have hne : (text.drop (text.length - places)).isEmpty = false := by
      rw [List.isEmpty_eq_false_iff, ← List.length_pos_iff, hdrop]
      exact hp
    rw [hfixed, hne, List.append_assoc]
    rfl

end Barline.Number
