import Reckoner.Proofs.Decimal.Order

/-!
# What is asked of a decimal

Every test that a function makes of a decimal is a question about its value: its sign, its order
among others and its exponent. Representations of one value pass the same tests.
-/

namespace Reckoner.Decimal

open Integer

variable {x y : Decimal}

/-! ## Values -/

theorem toRat_ofNat (n : Nat) : (ofNat n).toRat = n := toRat_ofInt n

theorem toRat_one : (1 : Decimal).toRat = 1 := toRat_ofInt 1

theorem toRat_abs (x : Decimal) : x.abs.toRat = |x.toRat| := by
  change ((x.unscaled.natAbs : Int) : ℚ) * 10 ^ (-x.scale) = _
  rw [toRat, abs_mul, abs_of_pos (by positivity : (0 : ℚ) < 10 ^ (-x.scale)), Int.natCast_natAbs,
    Int.cast_abs]

/-! ## Signs -/

theorem sign_neg_iff : x.sign < 0 ↔ x.toRat < 0 := Int.sign_neg_iff.trans toRat_lt_zero.symm

theorem sign_eq_zero_iff : x.sign = 0 ↔ x.toRat = 0 :=
  Int.sign_eq_zero_iff_zero.trans toRat_eq_zero.symm

theorem sign_pos_iff : 0 < x.sign ↔ 0 < x.toRat := sign_pos.trans toRat_pos.symm

theorem sign_nonneg_iff : 0 ≤ x.sign ↔ 0 ≤ x.toRat := by
  rw [← not_lt, sign_neg_iff, not_lt]

theorem sign_of_neg (h : x.toRat < 0) : x.sign = -1 :=
  Int.sign_eq_neg_one_of_neg (toRat_lt_zero.1 h)

theorem sign_of_pos (h : 0 < x.toRat) : x.sign = 1 := Int.sign_eq_one_of_pos (toRat_pos.1 h)

theorem sign_eq_of_toRat_eq (h : x.toRat = y.toRat) : x.sign = y.sign := by
  rcases lt_trichotomy y.toRat 0 with hneg | hzero | hpos
  · rw [sign_of_neg hneg, sign_of_neg (h.trans_lt hneg)]
  · rw [sign_eq_zero_iff.2 hzero, sign_eq_zero_iff.2 (h.trans hzero)]
  · rw [sign_of_pos hpos, sign_of_pos (hpos.trans_eq h.symm)]

theorem isZero_iff : x.isZero = true ↔ x.toRat = 0 := beq_iff_eq.trans toRat_eq_zero.symm

theorem isNegative_iff : x.isNegative = true ↔ x.toRat < 0 := by
  rw [isNegative, decide_eq_true_iff, toRat_lt_zero]

theorem isPositive_iff : x.isPositive = true ↔ 0 < x.toRat := by
  rw [isPositive, decide_eq_true_iff, toRat_pos]

/-! ## Order -/

theorem lt_iff : x < y ↔ x.toRat < y.toRat := by
  change compareValue x y = .lt ↔ _
  rw [compareValue_eq_compare, compare_lt_iff_lt]

theorem le_iff : x ≤ y ↔ x.toRat ≤ y.toRat := by
  change (compareValue x y).isLE = true ↔ _
  rw [compareValue_eq_compare, Ordering.isLE_iff_ne_gt, compare_gt_iff_gt, not_lt]

/-! ## Exponents -/

theorem exponent_abs (x : Decimal) : x.abs.exponent = x.exponent := by
  have hunscaled : x.abs.unscaled = x.unscaled.natAbs := rfl
  have hscale : x.abs.scale = x.scale := rfl
  unfold exponent digitCount
  simp only [hunscaled, hscale, Int.natAbs_natCast, Int.natCast_eq_zero, Int.natAbs_eq_zero]

theorem abs_toRat_lt_of_exponent_lt (hx : x.unscaled ≠ 0) (hy : y.unscaled ≠ 0)
    (h : x.exponent < y.exponent) : |x.toRat| < |y.toRat| := by
  have hpos {z : Decimal} (hz : z.unscaled ≠ 0) : 0 < z.abs.unscaled :=
    Int.natCast_pos.2 (Int.natAbs_pos.2 hz)
  rw [← toRat_abs, ← toRat_abs]
  refine toRat_lt_of_exponent_lt (hpos hx) (hpos hy) ?_
  rwa [exponent_abs, exponent_abs]

theorem exponent_congr (h : x.toRat = y.toRat) : x.exponent = y.exponent := by
  by_cases hx : x.unscaled = 0
  · have hy : y.unscaled = 0 := by rwa [← toRat_eq_zero, ← h, toRat_eq_zero]
    rw [exponent, exponent, if_pos hx, if_pos hy]
  · have hy : y.unscaled ≠ 0 := by rwa [Ne, ← toRat_eq_zero, ← h, toRat_eq_zero]
    have hcount := digitCount_sub_scale hx h
    rw [exponent, exponent, if_neg hx, if_neg hy]
    congr 1
    unfold digitCount
    omega

end Reckoner.Decimal
