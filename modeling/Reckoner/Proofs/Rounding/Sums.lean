import Reckoner.Proofs.Scales.Operations

/-!
# Rounded sums

A number with more digits than are kept is rounded by its exponent and its value alone, so two such
numbers that share both have one rounded representation. The nudge that stands for an operand far
behind the digits kept shares both with the exact sum, also where it borrows from a power of ten and
all digits move by one place. So a rounded sum or difference is the exact one rounded.
-/

namespace Reckoner

open Integer Decimal

variable {ctx : Context} {x y : Decimal}

/-! ## Exact sums -/

namespace Decimal

theorem add_neg_exact (x y : Decimal) : x + -y = x - y := by
  change ofScaled (x.integerAt (max x.scale y.scale) + -y.unscaled * _) (max x.scale y.scale) = _
  rw [neg_mul, ← sub_eq_add_neg]
  rfl

theorem scale_add (x y : Decimal) : (x + y).scale = max x.scale y.scale :=
  Word.saturate_of_fits (fits_max x y)

theorem log_toRat (hx : x.unscaled ≠ 0) :
    Int.log 10 |x.toRat| = x.digitCount - 1 - x.scale :=
  Context.log_scaled hx

end Decimal

/-! ## Long numbers -/

namespace Context

theorem long_of_log (hx : x.unscaled ≠ 0)
    (h : (ctx.precision : Int) ≤ Int.log 10 |x.toRat| + x.scale) :
    ctx.precision < x.digitCount := by
  rw [log_toRat hx] at h
  omega

/-- What is left of a number with more digits than are kept hangs on its exponent and its rounded
value, and not on the digits that go. -/
theorem round_congr (hx : x.unscaled ≠ 0) (hy : y.unscaled ≠ 0)
    (hxlong : ctx.precision < x.digitCount) (hylong : ctx.precision < y.digitCount)
    (hlog : Int.log 10 |x.toRat| = Int.log 10 |y.toRat|)
    (h : ctx.rounded x.toRat = ctx.rounded y.toRat) : ctx.round x = ctx.round y := by
  rw [log_toRat hx, log_toRat hy] at hlog
  have hscale : x.scale - (x.digitCount - ctx.precision : Nat) =
      y.scale - (y.digitCount - ctx.precision : Nat) := by omega
  have hx' := rounded_toRat (K := ℚ) hx hxlong
  have hy' := rounded_toRat (K := ℚ) hy hylong
  rw [Rat.cast_id] at hx' hy'
  rw [hx', hy', hscale] at h
  have hquotient := Int.cast_injective (mul_right_cancel₀ (ten_zpow_ne_zero _) h)
  have hkept {z : Decimal} (hz : z.unscaled ≠ 0) (hlong : ctx.precision < z.digitCount) :
      ¬ (z.isZero || decide (z.digitCount ≤ ctx.precision)) = true := by
    simp [isZero, hz, hlong]
  unfold round roundTo
  rw [if_neg (hkept hx hxlong), if_neg (hkept hy hylong)]
  simp only [hquotient, hscale]

/-! ## The nudge -/

section Nudge

variable {large small : Decimal} {pad : Nat} (hlarge : large.unscaled ≠ 0)
  (hsmall : small.unscaled ≠ 0) (hpad : ctx.precision + 2 ≤ large.digitCount + pad)
  (hgap : (small.digitCount : Int) - small.scale ≤ -(large.scale + pad))
include hlarge hsmall hpad hgap

/-- The small operand does not reach the place in front of the nudge, and the digits that are kept
are in front of that place. -/
theorem add_le_log_sum :
    -(large.scale + pad) + ctx.precision ≤ Int.log 10 |(large + small).toRat| := by
  obtain ⟨a, hsum, hlong, -, -⟩ := nudge_tail hlarge hsmall hpad hgap
  rw [Decimal.toRat_add, hsum]
  exact Rounding.add_le_log_tail _ hlong

/-- A nudge downward borrows from a power of ten exactly where the small operand does. -/
theorem log_nudged (hfits : Word.Fits (large.scale + (pad + 1 : Nat))) :
    Int.log 10 |(ofScaled (large.unscaled * pow10 (pad + 1) + small.sign)
      (large.scale + (pad + 1 : Nat))).toRat| = Int.log 10 |(large + small).toRat| := by
  obtain ⟨a, hsum, hlong, ha, hside⟩ := nudge_tail hlarge hsmall hpad hgap
  rw [Decimal.toRat_add, hsum, toRat_nudged hfits, digit_eq_tail]
  exact (Rounding.log_tail _ hlong ha (abs_digit_lt (natAbs_sign hsmall)) (digit_side hside)).symm

theorem unscaled_sum_ne : (large + small).unscaled ≠ 0 := by
  obtain ⟨a, hsum, hlong, -, -⟩ := nudge_tail hlarge hsmall hpad hgap
  have hpos : (0 : ℚ) < |((large.unscaled * pow10 pad : Int) : ℚ) + a| :=
    lt_of_lt_of_le (by positivity) hlong
  rw [Ne, ← toRat_eq_zero, Decimal.toRat_add, hsum]
  exact mul_ne_zero (abs_pos.1 hpos) (ten_zpow_ne_zero _)

theorem round_nudged (hfits : Word.Fits (large.scale + (pad + 1 : Nat))) :
    ctx.round (ofScaled (large.unscaled * pow10 (pad + 1) + small.sign)
      (large.scale + (pad + 1 : Nat))) = ctx.round (large + small) := by
  have hlower := add_le_log_sum hlarge hsmall hpad hgap
  have hlog := log_nudged hlarge hsmall hpad hgap hfits
  have hdigit : small.sign.natAbs < 10 := by
    rw [natAbs_sign hsmall]
    decide
  have hnudged : (large.unscaled * pow10 (pad + 1) + small.sign).sign = large.unscaled.sign :=
    sign_nudge hlarge pad.succ_pos hdigit
  have hnonzero : large.unscaled * pow10 (pad + 1) + small.sign ≠ 0 := by
    rw [Ne, ← Int.sign_eq_zero_iff_zero, hnudged, Int.sign_eq_zero_iff_zero]
    exact hlarge
  have hsum := unscaled_sum_ne hlarge hsmall hpad hgap
  refine round_congr hnonzero hsum (long_of_log hnonzero ?_) (long_of_log hsum ?_) hlog ?_
  · rw [hlog, scale_ofScaled, Word.saturate_of_fits hfits]
    push_cast
    omega
  · have hpos : 0 < small.digitCount := digitCount_pos _
    rw [scale_add]
    omega
  · rw [Decimal.toRat_add]
    exact rounded_nudge hlarge hsmall hpad hfits hgap

end Nudge

/-! ## Sums and differences -/

/-- A rounded sum is the exact sum rounded, digit for digit. -/
theorem add_eq_round (hx : x.unscaled ≠ 0) (hy : y.unscaled ≠ 0) (h : (Traced.add ctx x y).Fits) :
    ctx.add x y = ctx.round (x + y) := by
  have hnonzero {z : Decimal} (hz : z.unscaled ≠ 0) : ¬ z.isZero = true := by simp [isZero, hz]
  unfold Traced.add at h
  unfold add
  rw [if_neg (hnonzero hx), if_neg (hnonzero hy)] at h ⊢
  obtain ⟨large, small, hpair, hlarge, hsmall, horder, hsum⟩ := ordered_operands hx hy
  rw [hpair] at h ⊢
  simp only at h ⊢
  split at h
  · next hgap =>
    rw [if_pos hgap, hsum]
    rw [Traced.fits_bind_of_ok rfl, Traced.fits_ofScaled] at h
    have hapart := exponents_apart hlarge hsmall horder hgap
    refine round_nudged hlarge hsmall ?_ ?_ h.1 <;> omega
  · next hgap => rw [if_neg hgap]

theorem sub_eq_round (hx : x.unscaled ≠ 0) (hy : y.unscaled ≠ 0) (h : (Traced.sub ctx x y).Fits) :
    ctx.sub x y = ctx.round (x - y) := by
  rw [sub, add_eq_round hx (Int.neg_ne_zero.2 hy) h, add_neg_exact]

theorem round_zero (hx : x.unscaled = 0) : ctx.round x = x := by
  unfold round roundTo
  rw [if_pos (by simp [isZero, hx])]

/-- A zero leaves the other operand, rounded. -/
theorem toRat_add_zero (hx : x.unscaled = 0) :
    (ctx.add x y).toRat = (ctx.round y).toRat ∧ (ctx.add y x).toRat = (ctx.round y).toRat := by
  have hzero : x.isZero = true := beq_iff_eq.2 hx
  constructor
  · unfold add
    rw [if_pos hzero]
  · unfold add
    by_cases hy : y.isZero = true
    -- of two zeros the first one is kept
    · rw [if_pos hy, round_zero hx, round_zero (beq_iff_eq.1 hy), isZero_iff.1 hzero, isZero_iff.1 hy]
    · rw [if_neg hy, if_pos hzero]

end Context

end Reckoner
