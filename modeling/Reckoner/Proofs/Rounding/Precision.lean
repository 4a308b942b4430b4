import Reckoner.Proofs.Rounding.Prescriptions
import Reckoner.Proofs.Rounding.Sums

/-!
# Rounding to a number of digits

A number with too many digits becomes the multiple of the unit of its last digit kept that the mode
prescribes. Only the word range is in the way: a multiple that is too great for any decimal of so few
digits is not met, for the scale stops at the end of the range. Nines that carry make the multiple
greater by one digit, and the scale has to go one further.
-/

namespace Reckoner

open Integer Decimal

variable {ctx : Context} {x y : Decimal} {digits : Nat} {q : ℚ}

namespace Decimal

theorem roundTo_of_short {mode : Rounding} (h : x.digitCount ≤ digits) :
    x.roundTo digits mode = x := by
  unfold roundTo
  rw [if_pos (by simp [h])]

/-- Some decimal of so few digits has this value. -/
def Writable (digits : Nat) (q : ℚ) : Prop := ∃ z : Decimal, z.digitCount ≤ digits ∧ z.toRat = q

theorem Writable.log_le (h : Writable digits q) (hq : q ≠ 0) :
    Int.log 10 |q| ≤ digits - 1 - Word.least := by
  obtain ⟨z, hdigits, rfl⟩ := h
  rw [log_toRat (mt toRat_eq_zero.2 hq)]
  have hleast := z.scale_fits.1
  omega

end Decimal

namespace Context

theorem abs_toRat_log_le (ctx : Context) (hx : x.unscaled ≠ 0) :
    (10 : ℚ) ^ Int.log 10 |x.toRat| ≤ |ctx.rounded x.toRat| :=
  (Rounding.short_pow ctx.precision_pos _).le_abs_significant ctx.precision_pos
    (Rounding.pow_log_le (mt toRat_eq_zero.1 hx))

theorem rounded_ne_zero (ctx : Context) (hx : x.unscaled ≠ 0) : ctx.rounded x.toRat ≠ 0 :=
  abs_pos.1 (lt_of_lt_of_le (by positivity) (ctx.abs_toRat_log_le hx))

theorem log_le_log_rounded (ctx : Context) (hx : x.unscaled ≠ 0) :
    Int.log 10 |x.toRat| ≤ Int.log 10 |ctx.rounded x.toRat| :=
  (Rounding.pow_le_iff_le_log (ctx.rounded_ne_zero hx)).1 (ctx.abs_toRat_log_le hx)

/-- The scales of a rounding fit if the exponent of the rounded value leaves room for the digits. -/
theorem fits_round_of_log (hx : x.unscaled ≠ 0)
    (h : Int.log 10 |ctx.rounded x.toRat| ≤ ctx.precision - 1 - Word.least) :
    (Traced.round ctx x).Fits := by
  unfold Traced.round
  split
  · exact Traced.fits_pure x
  next hlong =>
  simp only [Bool.or_eq_true, decide_eq_true_eq, not_or, not_le] at hlong
  have hlower := ctx.log_le_log_rounded hx
  have hrounded := rounded_toRat (K := ℚ) hx hlong.2
  have hnonzero := ctx.rounded_ne_zero hx
  rw [Rat.cast_id] at hrounded
  rw [hrounded] at h hlower hnonzero
  have hquotient := Int.cast_ne_zero.1 (left_ne_zero_of_mul hnonzero)
  -- the place of the leading digit is that of the quotient at its scale, which bounds the scale
  rw [log_scaled hquotient] at h hlower
  rw [log_toRat hx] at hlower
  have hgreatest := x.scale_fits.2
  have hfits : Word.Fits (x.scale - (x.digitCount - ctx.precision : Nat)) :=
    ⟨by omega, by omega⟩
  simp only
  rw [Traced.fits_bind_of_ok rfl, Traced.fits_ofScaled]
  refine ⟨hfits, ?_⟩
  split
  · next hcarry =>
    rw [Traced.fits_ofScaled, scale_ofScaled, Word.saturate_of_fits hfits]
    rw [digitCount_ofScaled] at hcarry
    exact ⟨by omega, by omega⟩
  · exact Traced.fits_pure _

theorem fits_round_of_zero (hx : x.unscaled = 0) : (Traced.round ctx x).Fits := by
  unfold Traced.round
  rw [if_pos (by simp [isZero, hx])]
  exact Traced.fits_pure x

theorem fits_round_of_writable (h : Writable ctx.precision (ctx.rounded x.toRat)) :
    (Traced.round ctx x).Fits := by
  by_cases hx : x.unscaled = 0
  · exact fits_round_of_zero hx
  · exact fits_round_of_log hx (h.log_le (ctx.rounded_ne_zero hx))

/-- A rounded value is met wherever it can be written at all. -/
theorem toRat_round_iff (ctx : Context) (x : Decimal) :
    (ctx.round x).toRat = ctx.rounded x.toRat ↔ Writable ctx.precision (ctx.rounded x.toRat) :=
  ⟨fun h => ⟨ctx.round x, digitCount_roundTo_le ctx.precision_pos, h⟩,
    fun h => toRat_round_eq (fits_round_of_writable h)⟩

theorem log_rounded_le (ctx : Context) (hx : x.unscaled ≠ 0) :
    Int.log 10 |ctx.rounded x.toRat| ≤ Int.log 10 |x.toRat| + 1 := by
  have hlt := (Rounding.lt_pow_iff_log_lt (mt toRat_eq_zero.1 hx)).2 (lt_add_one _)
  have hle : |ctx.rounded x.toRat| ≤ 10 ^ (Int.log 10 |x.toRat| + 1) :=
    (Rounding.short_pow ctx.precision_pos _).abs_significant_le ctx.precision_pos hlt.le
  refine Int.lt_add_one_iff.1 ((Rounding.lt_pow_iff_log_lt (ctx.rounded_ne_zero hx)).1 ?_)
  exact hle.trans_lt (zpow_lt_zpow_right₀ (by norm_num) (lt_add_one _))

/-- No number but those with the greatest exponent is without room. -/
theorem writable_rounded (ctx : Context) (h : x.exponent < Word.greatest) :
    Writable ctx.precision (ctx.rounded x.toRat) := by
  refine (toRat_round_iff ctx x).1 (toRat_round_eq ?_)
  by_cases hx : x.unscaled = 0
  · exact fits_round_of_zero hx
  refine fits_round_of_log hx ((ctx.log_rounded_le hx).trans ?_)
  have hpos := ctx.precision_pos
  rw [exponent_eq_min hx] at h
  rw [log_toRat hx]
  unfold Word.least Word.greatest at *
  omega

end Context

namespace Decimal

end Decimal

end Reckoner
