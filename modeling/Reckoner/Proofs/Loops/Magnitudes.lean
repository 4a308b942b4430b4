import Reckoner.Proofs.Loops.Ranges

/-!
# Numbers that are not too great

Rounding only takes digits away, so it asks for scales below that of its operand and never for one
below the place of the leading digit. A number that is not too great has that place inside the word
range, however many digits it has and however small it is.
-/

namespace Reckoner

open Integer Decimal

variable {ctx : Context} {x y : Decimal} {m : Nat}

namespace Traced

theorem fits_round_of_abs_le (h : |x.toRat| ≤ 10 ^ m) (hm : (m + 2 : Int) ≤ Word.greatest) :
    (round ctx x).Fits := by
  by_cases hx : x.unscaled = 0
  · rw [round, if_pos (by simp [isZero, hx])]
    exact fits_pure _
  have hleading : (x.digitCount : Int) - 1 - x.scale ≤ m := by
    rw [← zpow_natCast] at h
    exact (zpow_le_zpow_iff_right₀ (by norm_num)).1 ((pow_le_abs_toRat hx).trans h)
  have hpos : 0 < x.digitCount := digitCount_pos _
  have hprecision := ctx.precision_pos
  have hupper := x.scale_fits.2
  refine fits_round_of_fits ⟨?_, by omega⟩
  unfold Word.least Word.greatest at *
  omega

theorem fits_mul_of_abs_le (hscale : Word.Fits (x.scale + y.scale))
    (h : |x.toRat * y.toRat| ≤ 10 ^ m) (hm : (m + 2 : Int) ≤ Word.greatest) :
    (mul ctx x y).Fits := by
  have hproduct : (Decimal.ofScaled (x.unscaled * y.unscaled) (x.scale + y.scale)).toRat =
      x.toRat * y.toRat := by
    rw [toRat_ofScaled _ hscale, toRat, toRat, neg_add, zpow_add₀ (by norm_num)]
    push_cast
    ring
  rw [mul, fits_bind_of_ok rfl, fits_ofScaled]
  exact ⟨hscale, fits_round_of_abs_le (by rwa [hproduct]) hm⟩

/-- A whole factor has no place behind its point, so the product keeps the scale of the other. -/
theorem fits_mul_ofInt {k : Int} (h : |x.toRat * k| ≤ 10 ^ m) (hm : (m + 2 : Int) ≤ Word.greatest) :
    (mul ctx x (ofInt k)).Fits := by
  refine fits_mul_of_abs_le ?_ (by rwa [toRat_ofInt]) hm
  rw [show (ofInt k).scale = 0 from rfl, add_zero]
  exact x.scale_fits

/-- A nudge at most doubles a number. -/
theorem abs_nudged_le {large : Decimal} {nudge : Int} {pad : Nat} (hlarge : large.unscaled ≠ 0)
    (hnudge : nudge.natAbs ≤ 1) (hfits : Word.Fits (large.scale + pad))
    (h : |large.toRat| ≤ 10 ^ m) :
    |(Decimal.ofScaled (large.unscaled * pow10 pad + nudge) (large.scale + pad)).toRat| ≤
      10 ^ (m + 1) := by
  have hunit : (0 : ℚ) < 10 ^ (-(large.scale + pad)) := by positivity
  have hone : (1 : ℚ) ≤ |((large.unscaled * pow10 pad : Int) : ℚ)| := by
    rw [← Int.cast_abs]
    exact_mod_cast Int.one_le_abs (mul_ne_zero hlarge (Int.natCast_ne_zero.2 (pow10_pos pad).ne'))
  have hnudge' : |(nudge : ℚ)| ≤ 1 := by
    rw [← Int.cast_abs, Int.abs_eq_natAbs]
    exact_mod_cast hnudge
  have hvalue : |large.toRat| =
      |((large.unscaled * pow10 pad : Int) : ℚ)| * 10 ^ (-(large.scale + pad)) := by
    rw [Context.toRat_padded large pad, abs_mul, abs_of_pos hunit]
  rw [toRat_ofScaled _ hfits, abs_mul, abs_of_pos hunit, Int.cast_add]
  calc |((large.unscaled * pow10 pad : Int) : ℚ) + nudge| * 10 ^ (-(large.scale + pad))
      ≤ 2 * |((large.unscaled * pow10 pad : Int) : ℚ)| * 10 ^ (-(large.scale + pad)) := by
        refine mul_le_mul_of_nonneg_right ?_ hunit.le
        linarith [abs_add_le ((large.unscaled * pow10 pad : Int) : ℚ) nudge]
    _ = 2 * |large.toRat| := by rw [hvalue, mul_assoc]
    _ ≤ 10 ^ (m + 1) := by
        rw [pow_succ]
        linarith [abs_nonneg large.toRat]

theorem fits_add_of_abs_le (hx : |x.toRat| ≤ 10 ^ m) (hy : |y.toRat| ≤ 10 ^ m)
    (hm : (m + 3 : Int) ≤ Word.greatest) : (add ctx x y).Fits := by
  have hround : ((m + 1 : Nat) + 2 : Int) ≤ Word.greatest := by omega
  unfold add
  split
  · exact fits_round_of_abs_le hy (by omega)
  next hxzero =>
  split
  · exact fits_round_of_abs_le hx (by omega)
  next hyzero =>
  simp only [isZero, beq_iff_eq] at hxzero hyzero
  obtain ⟨large, small, hpair, hlarge, hsmall, horder, hsum⟩ :=
    Context.ordered_operands hxzero hyzero
  have hbound : |large.toRat| ≤ 10 ^ m := by
    split at hpair <;> obtain ⟨rfl, rfl⟩ := Prod.mk.inj hpair <;> assumption
  rw [hpair]
  simp only
  split
  · next hgap =>
    -- The nudge is in front of the smaller number, so its scale is below the smaller one.
    have hapart := Context.exponents_apart hlarge hsmall horder hgap
    have hpos : 0 < small.digitCount := digitCount_pos _
    have hfits : Word.Fits (large.scale +
        (max (ctx.precision + 2) large.digitCount - large.digitCount + 1 : Nat)) := by
      have := large.scale_fits
      have := small.scale_fits
      unfold Word.Fits at *
      omega
    have hnudge : small.sign.natAbs ≤ 1 := (Context.natAbs_sign hsmall).le
    rw [fits_bind_of_ok rfl, fits_ofScaled]
    exact ⟨hfits, fits_round_of_abs_le (abs_nudged_le hlarge hnudge hfits hbound) hround⟩
  · refine fits_round_of_abs_le ?_ hround
    rw [Decimal.toRat_add, pow_succ]
    linarith [abs_add_le x.toRat y.toRat, abs_nonneg x.toRat]

end Traced

namespace Context

theorem mul_swap (ctx : Context) (x y : Decimal) : ctx.mul x y = ctx.mul y x := by
  change ctx.round (ofScaled _ _) = ctx.round (ofScaled _ _)
  rw [mul_comm x.unscaled, add_comm x.scale]

theorem value_mul_ofInt (ctx : Context) {k : Int} (h : |x.toRat * k| ≤ 10 ^ m)
    (hm : (m + 2 : Int) ≤ Word.greatest) : (ctx.mul x (ofInt k)).toRat = ctx.rounded (x.toRat * k) := by
  rw [value_mul (Traced.fits_mul_ofInt h hm), toRat_ofInt]

theorem value_add_of_abs_le (ctx : Context) (hx : |x.toRat| ≤ 10 ^ m) (hy : |y.toRat| ≤ 10 ^ m)
    (hm : (m + 3 : Int) ≤ Word.greatest) : (ctx.add x y).toRat = ctx.rounded (x.toRat + y.toRat) :=
  value_add (Traced.fits_add_of_abs_le hx hy hm)

theorem value_sub_of_abs_le (ctx : Context) (hx : |x.toRat| ≤ 10 ^ m) (hy : |y.toRat| ≤ 10 ^ m)
    (hm : (m + 3 : Int) ≤ Word.greatest) : (ctx.sub x y).toRat = ctx.rounded (x.toRat - y.toRat) := by
  have hneg : |(-y).toRat| ≤ 10 ^ m := by rwa [toRat_neg, abs_neg]
  rw [sub_eq_add_neg, ← toRat_neg]
  exact value_add_of_abs_le ctx hx hneg hm

end Context

end Reckoner
