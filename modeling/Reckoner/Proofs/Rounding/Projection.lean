import Reckoner.Proofs.Rounding.Precision

/-!
# Rounding as a projection

A rounded number is not rounded again, equal numbers in different representations have equal
roundings, and the order of numbers is kept wherever the rounded value of the greater one in size can
be written. Where it cannot, its scale stops at the end of the word range, and it can fall behind a
smaller number.
-/

namespace Reckoner

open Integer Decimal

variable {ctx : Context} {x y : Decimal}

namespace Context

theorem round_of_short (h : x.digitCount ≤ ctx.precision) : ctx.round x = x :=
  roundTo_of_short h

/-! ## Equal numbers -/

/-- A number keeps its value if any representation of it is short enough. -/
theorem toRat_round_of_short (hx : x.digitCount ≤ ctx.precision) (h : x.toRat = y.toRat) :
    (ctx.round y).toRat = y.toRat :=
  ctx.toRat_round h.symm ((digitCount_le_iff ctx.precision_pos).1 hx) x.scale_fits.1

theorem toRat_round_congr (h : x.toRat = y.toRat) : (ctx.round x).toRat = (ctx.round y).toRat := by
  obtain hx | hx := le_or_gt x.digitCount ctx.precision
  · rw [round_of_short hx, toRat_round_of_short hx h, h]
  obtain hy | hy := le_or_gt y.digitCount ctx.precision
  · rw [round_of_short hy, toRat_round_of_short hy h.symm, h]
  -- A zero has one digit.
  have hnonzero {z : Decimal} (hz : ctx.precision < z.digitCount) : z.unscaled ≠ 0 := by
    intro hzero
    have hdigits : z.digitCount = 1 := by
      rw [Decimal.digitCount, hzero, Int.natAbs_zero, digitCount_zero]
    have hpos := ctx.precision_pos
    omega
  rw [round_congr (hnonzero hx) (hnonzero hy) hx hy (by rw [h]) (by rw [h])]

/-! ## Order -/

/-- What is rounded to a smaller number in size fits as well. -/
theorem fits_round_of_abs_le (hx : x.unscaled ≠ 0)
    (hy : Writable ctx.precision (ctx.rounded y.toRat))
    (h : |ctx.rounded x.toRat| ≤ |ctx.rounded y.toRat|) : (Traced.round ctx x).Fits := by
  have hpos := abs_pos.2 (ctx.rounded_ne_zero hx)
  refine fits_round_of_log hx ((Int.log_mono_right hpos h).trans ?_)
  exact hy.log_le (abs_pos.1 (hpos.trans_le h))

theorem rounded_mono (ctx : Context) {q r : ℚ} (h : q ≤ r) : ctx.rounded q ≤ ctx.rounded r :=
  Rounding.significant_mono ctx.precision_pos h

theorem round_mono_of_fits (hx : (Traced.round ctx x).Fits) (hy : (Traced.round ctx y).Fits)
    (h : x.toRat ≤ y.toRat) : (ctx.round x).toRat ≤ (ctx.round y).toRat := by
  rw [toRat_round_eq hx, toRat_round_eq hy]
  exact ctx.rounded_mono h

theorem toRat_round_nonneg (h : 0 ≤ x.toRat) : 0 ≤ (ctx.round x).toRat := by
  rwa [← sign_nonneg_iff, sign_round, sign_nonneg_iff]

theorem toRat_round_nonpos (h : x.toRat ≤ 0) : (ctx.round x).toRat ≤ 0 := by
  rwa [← not_lt, ← sign_pos_iff, sign_round, sign_pos_iff, not_lt]

/-- Of two numbers with the same sign, the greater one in size has to find room. -/
theorem round_mono (h : x ≤ y)
    (hpos : 0 < x.unscaled → Writable ctx.precision (ctx.rounded y.toRat))
    (hneg : y.unscaled < 0 → Writable ctx.precision (ctx.rounded x.toRat)) :
    ctx.round x ≤ ctx.round y := by
  rw [le_iff] at h ⊢
  have hrounded := ctx.rounded_mono h
  by_cases hx : 0 < x.unscaled
  · have hnonneg : 0 ≤ ctx.rounded x.toRat :=
      Rounding.short_zero.le_significant ctx.precision_pos (toRat_pos.2 hx).le
    refine round_mono_of_fits (fits_round_of_abs_le hx.ne' (hpos hx) ?_)
      (fits_round_of_writable (hpos hx)) h
    rwa [abs_of_nonneg hnonneg, abs_of_nonneg (hnonneg.trans hrounded)]
  by_cases hy : y.unscaled < 0
  · have hnonpos : ctx.rounded y.toRat ≤ 0 :=
      Rounding.short_zero.significant_le ctx.precision_pos (toRat_lt_zero.2 hy).le
    refine round_mono_of_fits (fits_round_of_writable (hneg hy))
      (fits_round_of_abs_le hy.ne (hneg hy) ?_) h
    rw [abs_of_nonpos hnonpos, abs_of_nonpos (hrounded.trans hnonpos)]
    exact neg_le_neg hrounded
  · exact (toRat_round_nonpos (toRat_nonpos.2 (not_lt.1 hx))).trans
      (toRat_round_nonneg (not_lt.1 (mt toRat_lt_zero.1 hy)))

end Context

end Reckoner
