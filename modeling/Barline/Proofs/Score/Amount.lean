import Barline.Proofs.Binary64.Sizes
import Barline.Proofs.Number.Decimal
import Barline.Score.Engraving

/-!
# Amounts as they are engraved

Beats, durations and probabilities are engraved as decimals of at most six places. Which numbers
come out as decimals, and what the decimals read back as.
-/

namespace Barline.Score

open Binary64 Number

/-- The number whose decimal is engraved for `x`. -/
def settled (x : Float) : Float := round (x * precision) / precision

lemma value_precision : value precision = 10 ^ 6 := by
  have h : value precision = factor .positive * ((10 ^ 6 * 2 ^ 33 : ℕ) * 2 ^ (-33 : ℤ)) := rfl
  norm_num [h, factor]

lemma isFinite_precision : precision.isFinite := rfl

/-- A finite amount is engraved as a decimal, behind a sign unless it is zero or positive. -/
theorem amountText_of_isFinite {x : Float} (hx : (settled x).isFinite) :
    ∃ d : Decimal, d.Proper ∧ d.fraction.length ≤ 6 ∧
      d.meaning = scaledSize 6 (settled x) / 10 ^ 6 ∧
      amountText x = if isNegative (settled x) ∧ scaledSize 6 (settled x) ≠ 0 then '-' :: d.text
        else d.text := by
  obtain ⟨d, hd, hlen, hval, hzero, hfixed⟩ := fixed_of_isFinite hx (by norm_num : 0 < 6)
  have hmeaning : d.trim.meaning = scaledSize 6 (settled x) / 10 ^ 6 := by
    rw [d.meaning_trim, Decimal.meaning, hval, hlen]
  refine ⟨d.trim, hd.trim, hlen ▸ d.trim_fraction_length_le, hmeaning, ?_⟩
  have hstrip := Decimal.strip_text hd (sign (settled x))
  dsimp only at hstrip
  rw [← hfixed] at hstrip
  have htext : amountText x = if sign (settled x) ++ d.trim.text = ['-', '0'] then ['0']
      else sign (settled x) ++ d.trim.text := by
    rw [← hstrip]
    rfl
  have hzeroText : d.trim.text = ['0'] ↔ scaledSize 6 (settled x) = 0 := by
    constructor
    · intro h
      have h0 := hd.trim.meaning_eq_zero h
      rw [hmeaning, div_eq_zero_iff] at h0
      exact_mod_cast h0.resolve_right (by norm_num)
    · intro h
      rw [hzero h]
      rfl
  rw [htext]
  unfold sign
  by_cases hneg : isNegative (settled x)
  · by_cases hsize : scaledSize 6 (settled x) = 0
    · simp [hneg, hsize, hzeroText.mpr hsize]
    · simp [hneg, hsize, hzeroText]
  · have hdash : d.trim.text ≠ ['-', '0'] := by
      obtain ⟨c, rest, hc, hdigit⟩ := hd.trim.text_eq_cons
      rw [hc]
      rintro ⟨⟩
      exact absurd hdigit (by decide)
    simp [hneg, hdash]

/-- An infinite amount is engraved as a word, and so is one that is no number. -/
theorem amountText_eq_word {x : Float} (hx : (settled x).isFinite = false) :
    amountText x = ['i', 'n', 'f'] ∨ amountText x = ['-', 'i', 'n', 'f'] ∨
      amountText x = ['N', 'a', 'N'] := by
  have htext : amountText x =
      (let text := ((fixed 6 (settled x)).reverse.dropWhile (· == '0')).reverse
      let text := (text.reverse.dropWhile (· == '.')).reverse
      if text = ['-', '0'] then ['0'] else text) := rfl
  rw [htext]
  rcases eq_of_not_isFinite hx with h | h | h <;> rw [h]
  · exact .inl rfl
  · exact .inr (.inl rfl)
  · exact .inr (.inr rfl)

lemma amountText_of_not_isFinite {x : Float} (hx : (settled x).isFinite = false) :
    ∃ c rest, amountText x = c :: rest ∧ c ∈ ['-', 'i', 'N'] := by
  rcases amountText_eq_word hx with h | h | h <;> exact ⟨_, _, h, by simp⟩

/-- An amount is engraved as a decimal, or as something that does not begin like one. -/
theorem amountText_cases (x : Float) :
    (∃ d : Decimal, d.Proper ∧ amountText x = d.text) ∨
      ∃ c rest, amountText x = c :: rest ∧ c ∈ ['-', 'i', 'N'] := by
  cases hx : (settled x).isFinite with
  | false => exact .inr (amountText_of_not_isFinite hx)
  | true =>
    obtain ⟨d, hd, -, -, htext⟩ := amountText_of_isFinite hx
    split_ifs at htext
    · exact .inr ⟨'-', d.text, htext, by simp⟩
    · exact .inl ⟨d, hd, htext⟩

lemma value_smallestAmount :
    9 / 10 ^ 7 ≤ value smallestAmount ∧ value smallestAmount ≤ 1 / 10 ^ 6 := by
  have h : value smallestAmount = factor .positive * ((4722366482869645 : ℕ) * 2 ^ (-72 : ℤ)) := rfl
  norm_num [h, factor]

lemma rounds_settled {x : Float} (hx : (x * precision).isFinite) (h0 : 0 ≤ value (x * precision)) :
    Rounds (⌊value (x * precision) + 1 / 2⌋₊ / 10 ^ 6) (settled x) ∧ (settled x).isFinite ∧
      0 ≤ value (settled x) := by
  have hround := isFinite_round hx h0
  have hr := rounds_div hround isFinite_precision (by rw [value_precision]; norm_num)
  rw [value_round hx h0, value_precision] at hr
  have hle : (⌊value (x * precision) + 1 / 2⌋₊ / 10 ^ 6 : ℚ) ≤ value (round (x * precision)) := by
    rw [value_round hx h0]
    exact div_le_self (by positivity) (by norm_num)
  exact ⟨hr, hr.isFinite_of_le (by positivity) hround hle, hr.nonneg (by positivity)⟩

/-- An amount that is not negative is engraved as a decimal of at most six places, next to the
nearest of them. -/
theorem amountText_of_nonneg {x : Float} (hx : (x * precision).isFinite)
    (h0 : 0 ≤ value (x * precision)) :
    ∃ d : Decimal, d.Proper ∧ amountText x = d.text ∧ Rounds d.meaning d.value ∧
      |d.meaning * 10 ^ 6 - value (settled x) * 10 ^ 6| ≤ 1 / 2 ∧
      ∃ n : ℕ, d.meaning = n / 10 ^ 6 := by
  obtain ⟨-, hfinite, hnonneg⟩ := rounds_settled hx h0
  obtain ⟨d, hd, hlen, hmeaning, htext⟩ := amountText_of_isFinite hfinite
  have hnear := scaledSize_near hfinite 6
  have hscaled : d.meaning * 10 ^ 6 = scaledSize 6 (settled x) := by
    rw [hmeaning]
    exact div_mul_cancel₀ _ (by norm_num)
  have hsign : ¬ (isNegative (settled x) ∧ scaledSize 6 (settled x) ≠ 0) := by
    rintro ⟨hneg, hne⟩
    have h0 := le_antisymm (value_nonpos_of_isNegative hneg) hnonneg
    rw [h0, abs_zero, zero_mul, sub_zero, Nat.abs_cast] at hnear
    have : 1 ≤ (scaledSize 6 (settled x) : ℚ) := by exact_mod_cast Nat.one_le_iff_ne_zero.mpr hne
    linarith
  rw [if_neg hsign] at htext
  rw [abs_of_nonneg hnonneg] at hnear
  exact ⟨d, hd, htext, rounds_ofScientific _ (hlen.trans (by norm_num)), by rwa [hscaled], _,
    hmeaning⟩

lemma value_ofDecimal_pos {d : Decimal} (h : Rounds d.meaning d.value)
    (hd : 1 / 10 ^ 6 ≤ d.meaning) : 0.0 < d.value := by
  rw [lt_iff rfl h.isNaN_eq, value_zero]
  have hle : (2 : ℚ) ^ (-20 : ℤ) ≤ value d.value :=
    h.zpow_le (by norm_num) (by norm_num) (le_trans (by norm_num) hd)
  exact lt_of_lt_of_le (by positivity) hle

/-- An amount of half a millionth at least lasts when it is read back. -/
theorem amountText_pos {x : Float} (hx : (x * precision).isFinite)
    (h : 1 / 2 ≤ value (x * precision)) :
    ∃ d : Decimal, d.Proper ∧ amountText x = d.text ∧ 0.0 < d.value := by
  have h0 : 0 ≤ value (x * precision) := le_trans (by norm_num) h
  obtain ⟨hr, -, -⟩ := rounds_settled hx h0
  obtain ⟨d, hd, htext, hround, hnear, n, hn⟩ := amountText_of_nonneg hx h0
  refine ⟨d, hd, htext, value_ofDecimal_pos hround ?_⟩
  have hone : (1 : ℚ) ≤ ⌊value (x * precision) + 1 / 2⌋₊ := by
    exact_mod_cast Nat.le_floor (by norm_num; linarith)
  obtain ⟨hlow, hhigh⟩ := value_smallestAmount
  have hsettled : value smallestAmount ≤ value (settled x) :=
    hr.value_le _ (hhigh.trans (by gcongr))
  rw [abs_le] at hnear
  have hpos : (0 : ℚ) < n := by
    have : (n : ℚ) = d.meaning * 10 ^ 6 := by rw [hn]; norm_num
    rw [this]
    linarith
  have hone' : (1 : ℚ) ≤ n := by exact_mod_cast Nat.cast_pos.mp hpos
  rw [hn]
  gcongr

/-- An amount between zero and one is read back as one. -/
theorem amountText_unit {x : Float} (hx : x.isNaN = false) (h0 : 0 ≤ value x) (h1 : value x ≤ 1) :
    ∃ d : Decimal, d.Proper ∧ amountText x = d.text ∧ 0.0 ≤ d.value ∧ d.value ≤ 1.0 := by
  have hfin : x.isFinite := (isFinite_iff x).mpr ⟨hx, by
    rw [abs_of_nonneg h0]
    exact lt_reach (h1.trans_lt (by norm_num))⟩
  have hmul := rounds_mul hfin isFinite_precision
  rw [value_precision] at hmul
  have hX0 : 0 ≤ value (x * precision) := hmul.nonneg (by positivity)
  have hX1 : value (x * precision) ≤ 10 ^ 6 := by
    rw [← value_precision]
    exact hmul.le_value precision (by rw [value_precision]; linarith)
  have hX : (x * precision).isFinite := (isFinite_iff _).mpr ⟨hmul.isNaN_eq, by
    rw [abs_of_nonneg hX0]
    exact lt_reach (hX1.trans_lt (by norm_num))⟩
  obtain ⟨hr, -, -⟩ := rounds_settled hX hX0
  obtain ⟨d, hd, htext, hround, hnear, n, hn⟩ := amountText_of_nonneg hX hX0
  have hfloor : ⌊value (x * precision) + 1 / 2⌋₊ ≤ 10 ^ 6 := by
    rw [← Nat.lt_succ_iff, Nat.floor_lt (by linarith)]
    push_cast
    linarith
  have hsettled : value (settled x) ≤ 1 := by
    rw [← value_one]
    refine hr.le_value 1.0 ?_
    rw [value_one, div_le_one (by norm_num)]
    exact_mod_cast hfloor
  have hmillion : (n : ℚ) ≤ 10 ^ 6 := by
    have hlt : (n : ℚ) < 10 ^ 6 + 1 := by
      have : (n : ℚ) = d.meaning * 10 ^ 6 := by rw [hn]; norm_num
      rw [abs_le] at hnear
      linarith
    exact_mod_cast Nat.lt_succ_iff.mp (by exact_mod_cast hlt)
  refine ⟨d, hd, htext, ?_, ?_⟩
  · rw [le_iff rfl hround.isNaN_eq]
    exact hround.nonneg (by rw [hn]; positivity)
  · rw [le_iff hround.isNaN_eq rfl]
    refine hround.le_value 1.0 ?_
    rw [value_one, hn, div_le_one (by norm_num)]
    exact hmillion

lemma isFinite_of_mul_precision {x : Float} (hx : (x * precision).isFinite) : x.isFinite := by
  by_contra h
  rw [Bool.not_eq_true] at h
  rcases eq_of_not_isFinite h with rfl | rfl | rfl <;> cases hx

/-- A duration is readable if it is finite in millionths of a beat. -/
theorem duration_readable {beats : Float} (h : (larger beats smallestAmount * precision).isFinite) :
    ∃ d : Decimal, d.Proper ∧ amountText (larger beats smallestAmount) = d.text ∧
      0.0 < d.value := by
  refine amountText_pos h ?_
  obtain ⟨-, hle⟩ := value_larger beats (rfl : smallestAmount.isNaN = false)
  have hr := rounds_mul (isFinite_of_mul_precision h) isFinite_precision
  rw [value_precision] at hr
  rw [← value_half]
  refine hr.value_le 0.5 ?_
  rw [value_half]
  linarith [value_smallestAmount.1]

/-- A duration that is not finite in millionths of a beat is engraved as a word. -/
theorem duration_unreadable {x : Float} (h : (x * precision).isFinite = false) :
    ∃ c rest, amountText x = c :: rest ∧ c ∈ ['-', 'i', 'N'] := by
  refine amountText_of_not_isFinite ?_
  unfold settled
  rcases eq_of_not_isFinite h with h | h | h <;> rw [h] <;> rfl

lemma value_clamp_unit {x : Float} (hx : x.isNaN = false) :
    (clamp 0.0 1.0 x).isNaN = false ∧ 0 ≤ value (clamp 0.0 1.0 x) ∧
      value (clamp 0.0 1.0 x) ≤ 1 := by
  have h0 : (0.0 : Float).isNaN = false := rfl
  have h1 : (1.0 : Float).isNaN = false := rfl
  have hv := value_clamp h0 h1 hx (by simp)
  rw [value_zero, value_one] at hv
  refine ⟨isNaN_clamp h0 h1 hx, ?_, ?_⟩ <;> rw [hv]
  · exact le_max_left _ _
  · exact max_le zero_le_one (min_le_left _ _)

/-- A probability is readable if it is a number. -/
theorem probability_readable {x : Float} (hx : x.isNaN = false) :
    ∃ d : Decimal, d.Proper ∧ amountText (clamp 0.0 1.0 x) = d.text ∧ 0.0 ≤ d.value ∧
      d.value ≤ 1.0 := by
  obtain ⟨hn, h0, h1⟩ := value_clamp_unit hx
  exact amountText_unit hn h0 h1

theorem probability_unreadable {x : Float} (hx : x.isNaN) :
    amountText (clamp 0.0 1.0 x) = ['N', 'a', 'N'] := by
  have hnan : x = 0.0 / 0.0 := by
    have hfin : x.isFinite = false := by
      by_contra h
      rw [Bool.not_eq_false, isFinite_iff, hx] at h
      cases h.1
    rcases eq_of_not_isFinite hfin with h | h | h
    · rw [h] at hx
      cases hx
    · rw [h] at hx
      cases hx
    · exact h
  rw [hnan]
  decide +kernel

/-- The velocity that is engraved for a note. -/
def lowVelocity (velocity : Float) : UInt8 := (clamp 0.0 127.0 (round velocity)).toUInt8

/-- The highest velocity that is engraved for a note. -/
def highVelocity (velocity deviation : Float) : UInt8 :=
  (clamp (lowVelocity velocity).toFloat 127.0 (round (velocity + deviation))).toUInt8

lemma velocityText_eq (velocity deviation : Float) :
    velocityText velocity deviation =
      'v' :: Nat.toDigits 10 (lowVelocity velocity).toNat ++
        (if lowVelocity velocity < highVelocity velocity deviation then
          '-' :: Nat.toDigits 10 (highVelocity velocity deviation).toNat else []) := rfl

lemma value_top : value 127.0 = 127 := by
  have h : value 127.0 = factor .positive * ((127 * 2 ^ 46 : ℕ) * 2 ^ (-46 : ℤ)) := rfl
  norm_num [h, factor]

lemma toUInt8_clamp_le {low x : Float} (hl : low.isNaN = false) (h0 : 0 ≤ value low)
    (h1 : value low ≤ 127) : (clamp low 127.0 x).toUInt8.toNat ≤ 127 := by
  have htop : (127.0 : Float).isNaN = false := rfl
  have hbounds : 0 ≤ value (clamp low 127.0 x) ∧ value (clamp low 127.0 x) ≤ 127 := by
    by_cases hx : x.isNaN
    · have hnan : value x = 0 := by
        rw [isNaN_eq] at hx
        unfold value
        cases hu : x.toModel.unpack with
        | notANumber => rfl
        | _ => rw [hu] at hx; cases hx
      unfold clamp
      split_ifs
      · exact ⟨h0, h1⟩
      · rw [value_top]; norm_num
      · rw [hnan]; norm_num
    · rw [Bool.not_eq_true] at hx
      rw [value_clamp hl htop hx (by rwa [value_top]), value_top]
      exact ⟨le_max_of_le_left h0, max_le h1 (min_le_left _ _)⟩
  rw [toNat_toUInt8 hbounds.1 (hbounds.2.trans_lt (by norm_num))]
  exact Nat.floor_le_of_le (by exact_mod_cast hbounds.2)

lemma lowVelocity_le (velocity : Float) : (lowVelocity velocity).toNat ≤ 127 :=
  toUInt8_clamp_le rfl (by simp) (by simp)

lemma highVelocity_le (velocity deviation : Float) :
    (highVelocity velocity deviation).toNat ≤ 127 := by
  refine toUInt8_clamp_le (isNaN_toFloat8 _) ?_ ?_ <;> rw [value_toFloat8]
  · positivity
  · exact_mod_cast lowVelocity_le velocity

lemma isNaN_round_of_isNaN {x : Float} (hx : x.isNaN = false) : (round x).isNaN = false := by
  cases hfin : x.isFinite with
  | true => exact isNaN_round hfin
  | false =>
    rcases eq_of_not_isFinite hfin with rfl | rfl | rfl
    · rfl
    · rfl
    · cases hx

/-- A velocity that rounds to one at least is not engraved as a deletion. -/
theorem one_le_lowVelocity {velocity : Float} (hn : velocity.isNaN = false)
    (h : ¬ round velocity < 1.0) : 1 ≤ (lowVelocity velocity).toNat := by
  have hround := isNaN_round_of_isNaN hn
  have h0 : (0.0 : Float).isNaN = false := rfl
  have htop : (127.0 : Float).isNaN = false := rfl
  rw [lt_iff hround rfl, value_one, not_lt] at h
  have hv := value_clamp h0 htop hround (by simp [value_top])
  rw [value_zero, value_top] at hv
  have hle : value (clamp 0.0 127.0 (round velocity)) ≤ 127 := by
    rw [hv]
    exact max_le (by norm_num) (min_le_left _ _)
  have hge : 1 ≤ value (clamp 0.0 127.0 (round velocity)) := by
    rw [hv]
    exact le_max_of_le_right (le_min (by norm_num) h)
  unfold lowVelocity
  rw [toNat_toUInt8 (by linarith) (by linarith)]
  exact Nat.le_floor (by exact_mod_cast hge)

/-- Starts that are taken for the same differ by less than the smallest amount. -/
theorem near_of_abs_sub_lt {x y : Float} (hx : x.isFinite) (hy : y.isFinite)
    (h : (x - y).abs < smallestAmount) : |value x - value y| < 1 / 10 ^ 6 := by
  have hr := rounds_sub hx hy
  obtain ⟨-, hsmall⟩ := value_smallestAmount
  rw [lt_iff ((isNaN_abs _).trans hr.isNaN_eq) rfl, value_abs, abs_lt] at h
  rw [abs_lt]
  constructor
  · by_contra hc
    have := hr.le_value (-smallestAmount) (by rw [value_neg]; linarith)
    rw [value_neg] at this
    linarith
  · by_contra hc
    have := hr.value_le smallestAmount (by linarith)
    linarith

end Barline.Score
