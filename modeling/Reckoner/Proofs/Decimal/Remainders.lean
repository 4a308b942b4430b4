import Reckoner.Proofs.Decimal.Whole
import Reckoner.Proofs.Rounding.Prescriptions

/-!
# Whole parts and remainders

What a number loses when it is cut off toward zero is less than one and on the side of the number. So
what a quotient that is cut off leaves of the dividend is less than the divisor and on the side of the
dividend. The fraction of a decimal is the one and the remainder of a division the other, although it is
taken on integers at the greater of the two scales.
-/

namespace Reckoner

open Integer

/-! ## What a cut loses -/

namespace Rounding

theorem abs_sub_truncate_lt (q : ℚ) : |q - truncate q| < 1 := by
  unfold truncate
  split
  · rw [abs_of_nonpos (sub_nonpos.2 (Int.le_ceil q))]
    linarith [Int.ceil_lt_add_one q]
  · rw [abs_of_nonneg (sub_nonneg.2 (Int.floor_le q))]
    linarith [Int.lt_floor_add_one q]

theorem sub_truncate_side (q : ℚ) : q - truncate q = 0 ∨ 0 < (q - truncate q) * q := by
  by_cases hwhole : q - truncate q = 0
  · exact .inl hwhole
  right
  unfold truncate at hwhole ⊢
  split at hwhole
  · next hneg =>
    rw [if_pos hneg]
    have hleft : q - ⌈q⌉ < 0 := lt_of_le_of_ne (sub_nonpos.2 (Int.le_ceil q)) hwhole
    exact mul_pos_of_neg_of_neg hleft hneg
  · next hpos =>
    rw [if_neg hpos]
    have hleft : 0 < q - ⌊q⌋ := lt_of_le_of_ne (sub_nonneg.2 (Int.floor_le q)) (Ne.symm hwhole)
    refine mul_pos hleft (lt_of_le_of_ne (not_lt.1 hpos) ?_)
    rintro rfl
    simp at hwhole

variable (a : ℚ) {b : ℚ}

theorem sub_mul_truncate (hb : b ≠ 0) :
    a - b * truncate (a / b) = b * (a / b - truncate (a / b)) := by
  rw [mul_sub, mul_div_cancel₀ _ hb]

theorem abs_sub_mul_truncate_lt (hb : b ≠ 0) : |a - b * truncate (a / b)| < |b| := by
  rw [sub_mul_truncate a hb, abs_mul]
  exact mul_lt_of_lt_one_right (abs_pos.2 hb) (abs_sub_truncate_lt _)

theorem sub_mul_truncate_side (hb : b ≠ 0) :
    a - b * truncate (a / b) = 0 ∨ 0 < (a - b * truncate (a / b)) * a := by
  rw [sub_mul_truncate a hb]
  obtain hnone | hside := sub_truncate_side (a / b)
  · exact .inl (by rw [hnone, mul_zero])
  · right
    have hproduct : b * (a / b - truncate (a / b)) * a =
        b * b * ((a / b - truncate (a / b)) * (a / b)) := by
      field_simp
    rw [hproduct]
    exact mul_pos (mul_self_pos.2 hb) hside

end Rounding

namespace Decimal

open Rounding

variable {x y : Decimal}

theorem sign_eq_of_mul_pos (h : 0 < x.toRat * y.toRat) : x.sign = y.sign := by
  rcases mul_pos_iff.1 h with ⟨hx, hy⟩ | ⟨hx, hy⟩
  · rw [sign_of_pos hx, sign_of_pos hy]
  · rw [sign_of_neg hx, sign_of_neg hy]

/-! ## Whole part and fraction -/

theorem wholePart_add_fractionPart (x : Decimal) :
    x.wholePart.toRat + x.fractionPart.toRat = x.toRat := by
  unfold wholePart fractionPart
  split
  · rw [toRat_zero, add_zero]
  next hscale =>
  split
  · rw [toRat_zero, zero_add]
  · have hparts := Int.tdiv_mul_add_tmod x.unscaled (pow10 x.scale.natAbs)
    have hpow : (((pow10 x.scale.natAbs : Nat) : Int) : ℚ) ≠ 0 := by exact_mod_cast (pow10_pos _).ne'
    have hrest : ({ x with unscaled := x.unscaled.tmod (pow10 x.scale.natAbs) } : Decimal).toRat =
        (x.unscaled.tmod (pow10 x.scale.natAbs) : ℚ) / ((pow10 x.scale.natAbs : Nat) : Int) :=
      toRat_of_scale_pos (not_le.1 hscale)
    rw [toRat_ofInt, hrest, toRat_of_scale_pos (not_le.1 hscale), eq_div_iff hpow, add_mul,
      div_mul_cancel₀ _ hpow]
    exact_mod_cast hparts

theorem toRat_fractionPart (x : Decimal) :
    x.fractionPart.toRat = x.toRat - truncate x.toRat := by
  rw [← toRat_wholePart, ← wholePart_add_fractionPart x, add_sub_cancel_left]

theorem isWhole_iff_truncate : x.isWhole = true ↔ x.toRat = truncate x.toRat := by
  rw [isWhole_iff]
  constructor
  · rintro ⟨n, hn⟩
    rw [hn, truncate_intCast]
  · exact fun h => ⟨_, h⟩

/-- The whole part of a decimal is the integer next to it toward zero. Together with the fraction it is
the number itself, and the fraction is smaller than one and on the side of the number. A decimal is
whole exactly if it has no fraction, and exactly if it is its own whole part. -/
theorem whole_and_fraction (x : Decimal) :
    (∃ n : Int, x.wholePart.toRat = n ∧ Rounding.down.Prescribes x.toRat n) ∧
    (x.wholePart + x.fractionPart).toRat = x.toRat ∧
    |x.fractionPart.toRat| < 1 ∧ (x.fractionPart.toRat = 0 ∨ x.fractionPart.sign = x.sign) ∧
    (x.isWhole = true ↔ x.fractionPart.isZero = true) ∧
    (x.isWhole = true ↔ x.wholePart.sameValue x = true) := by
  refine ⟨⟨truncate x.toRat, toRat_wholePart x, ?_⟩, ?_, ?_, ?_, ?_, ?_⟩
  · rw [prescribes_iff, nearest_down]
  · rw [toRat_add, wholePart_add_fractionPart]
  · rw [toRat_fractionPart]
    exact abs_sub_truncate_lt x.toRat
  · rw [toRat_fractionPart]
    refine (sub_truncate_side x.toRat).imp_right fun hside => sign_eq_of_mul_pos ?_
    rwa [toRat_fractionPart]
  · rw [isWhole_iff_truncate, isZero_iff, toRat_fractionPart, sub_eq_zero]
  · rw [isWhole_iff_truncate, sameValue_iff, toRat_wholePart, eq_comm]

/-! ## Remainders -/

theorem remainder_by_zero (hy : y.toRat = 0) : x.remainder y = .error .divisionByZero :=
  if_pos (isZero_iff.2 hy)

/-- Zeros are appended to one of the two integers, and not more of them than the limit allows. -/
theorem remainder_refused (hy : y.toRat ≠ 0) (hfar : 1000000 < |x.scale - y.scale|) :
    x.remainder y = .error .exponentTooLarge := by
  rw [Int.abs_eq_natAbs] at hfar
  unfold remainder
  rw [if_neg (mt isZero_iff.1 hy)]
  obtain hle | hlt := le_or_gt y.scale x.scale
  · simp only [max_eq_left hle, sub_self]
    rw [shiftFactor_eq_error (by omega : 1000000 < (x.scale - y.scale).natAbs)]
    rfl
  · simp only [max_eq_right hlt.le]
    rw [shiftFactor_eq_error (by omega : 1000000 < (y.scale - x.scale).natAbs)]
    rfl

theorem remainder_aligned (hy : y.toRat ≠ 0) (hnear : |x.scale - y.scale| ≤ 1000000) :
    x.remainder y = .ok (ofScaled ((x.integerAt (max x.scale y.scale)).tmod
      (y.integerAt (max x.scale y.scale))) (max x.scale y.scale)) := by
  rw [Int.abs_eq_natAbs] at hnear
  unfold remainder
  rw [if_neg (mt isZero_iff.1 hy)]
  simp only
  rw [shiftFactor_eq_ok (by omega), shiftFactor_eq_ok (by omega)]
  rfl

/-- At a common scale the quotient is one of integers. -/
theorem toRat_tmod {s : Int} (hs : Word.Fits s) (hx : x.scale ≤ s) (hy : y.scale ≤ s) :
    (ofScaled ((x.integerAt s).tmod (y.integerAt s)) s).toRat =
      x.toRat - y.toRat * truncate (x.toRat / y.toRat) := by
  have hquotient : x.toRat / y.toRat = (x.integerAt s : ℚ) / y.integerAt s := by
    rw [← integerAt_toRat hx, ← integerAt_toRat hy, mul_div_mul_right _ _ (ten_zpow_ne_zero _)]
  rw [hquotient, truncate_div, toRat_ofScaled _ hs, Int.tmod_def, ← integerAt_toRat hx,
    ← integerAt_toRat hy]
  push_cast
  ring

theorem remainder_succeeds (hy : y.toRat ≠ 0) (hnear : |x.scale - y.scale| ≤ 1000000) :
    ∃ r, x.remainder y = .ok r ∧ r.toRat = x.toRat - y.toRat * truncate (x.toRat / y.toRat) :=
  ⟨_, remainder_aligned hy hnear, toRat_tmod (fits_max x y) (le_max_left _ _) (le_max_right _ _)⟩

/-- A division fails by zero, and if the scales are more than a million apart. In every other case it
leaves the dividend less the divisor times the exact quotient cut off toward zero: the dividend up to a
whole multiple of the divisor, smaller than the divisor and on the side of the dividend. -/
theorem remainder_of_truncated_quotient (x y : Decimal) :
    (x.remainder y = .error .divisionByZero ↔ y.toRat = 0) ∧
    (x.remainder y = .error .exponentTooLarge ↔
      y.toRat ≠ 0 ∧ 1000000 < |x.scale - y.scale|) ∧
    (y.toRat ≠ 0 → |x.scale - y.scale| ≤ 1000000 → ∃ r, x.remainder y = .ok r ∧
      r.toRat = x.toRat - y.toRat * truncate (x.toRat / y.toRat) ∧
      (∃ k : Int, x.toRat - r.toRat = k * y.toRat) ∧ |r.toRat| < |y.toRat| ∧
      (r.toRat = 0 ∨ r.sign = x.sign)) := by
  by_cases hy : y.toRat = 0
  · rw [remainder_by_zero hy]
    simp [hy]
  obtain hnear | hfar := le_or_gt |x.scale - y.scale| 1000000
  · obtain ⟨r, hr, hvalue⟩ := remainder_succeeds hy hnear
    refine ⟨by simp [hr, hy], by simp [hr, hnear.not_gt], fun _ _ => ⟨r, hr, hvalue, ?_, ?_, ?_⟩⟩
    · exact ⟨truncate (x.toRat / y.toRat), by rw [hvalue, sub_sub_cancel, mul_comm]⟩
    · rw [hvalue]
      exact abs_sub_mul_truncate_lt x.toRat hy
    · rw [hvalue]
      refine (sub_mul_truncate_side x.toRat hy).imp_right fun hside => sign_eq_of_mul_pos ?_
      rwa [hvalue]
  · rw [remainder_refused hy hfar]
    exact ⟨by simp [hy], by simp [hy, hfar], fun _ hnear => absurd hfar hnear.not_gt⟩

/-- Minus fifty and a half by seven leaves minus one and a half. -/
theorem remainder_of_truncated_quotient_seven :
    let x := ofScaled (-505) 1
    let r := ofScaled (-15) 1
    (7 : Decimal).toRat ≠ 0 ∧ |x.scale - (7 : Decimal).scale| ≤ 1000000 ∧ x.remainder 7 = .ok r ∧
      r.toRat = x.toRat - (7 : Decimal).toRat * truncate (x.toRat / (7 : Decimal).toRat) ∧
      (∃ k : Int, x.toRat - r.toRat = k * (7 : Decimal).toRat) ∧ |r.toRat| < |(7 : Decimal).toRat| := by
  intro x r
  have hseven : (7 : Decimal).toRat ≠ 0 := mt toRat_eq_zero.1 (by decide)
  have hnear : |x.scale - (7 : Decimal).scale| ≤ 1000000 := by decide
  have hresult : x.remainder 7 = .ok r := by decide +kernel
  obtain ⟨-, -, hlaw⟩ := remainder_of_truncated_quotient x 7
  obtain ⟨r', hr', hvalue, hmultiple, hsmaller, -⟩ := hlaw hseven hnear
  obtain rfl := Except.ok.inj (hresult.symm.trans hr')
  exact ⟨hseven, hnear, hresult, hvalue, hmultiple, hsmaller⟩

end Decimal

end Reckoner
