import Reckoner.Context.Series
import Reckoner.Proofs.Domain.Inverses
import Reckoner.Proofs.Rounding.Modes
import Reckoner.Proofs.Rounding.Quotients

/-!
# Sizes of rounded results

A rounded product or quotient is no greater than a short bound on the exact one, also where a scale
stops at the end of the word range: at the lower end the number only gets smaller, and at the upper
end it is a speck that is below the bound anyway. So the bounds on the terms of a series need to
know nothing of the scales.
-/

namespace Reckoner

open Integer Decimal

variable {ctx : Context} {x y : Decimal} {b : ℚ}

namespace Decimal

/-! ## Unscaled integers -/

theorem abs_unscaled_lt (x : Decimal) : |(x.unscaled : ℚ)| < 10 ^ (x.digitCount : Int) := by
  have hlt : x.unscaled.natAbs < 10 ^ x.digitCount := lt_pow10_digitCount _
  rw [← Int.cast_abs, Int.abs_eq_natAbs, zpow_natCast]
  exact_mod_cast hlt

theorem abs_toRat (x : Decimal) : |x.toRat| = |(x.unscaled : ℚ)| * 10 ^ (-x.scale) := by
  rw [toRat, abs_mul, abs_of_pos (show (0 : ℚ) < 10 ^ (-x.scale) by positivity)]

theorem abs_ofScaled_le_of_le {u n s : Int} (hn : n ≤ s) (hgreatest : n ≤ Word.greatest) :
    |(ofScaled u s).toRat| ≤ |(u : ℚ)| * 10 ^ (-n) := by
  rw [abs_toRat, unscaled_ofScaled, scale_ofScaled]
  refine mul_le_mul_of_nonneg_left ?_ (abs_nonneg _)
  exact zpow_le_zpow_right₀ (by norm_num) (neg_le_neg (Word.le_saturate hn hgreatest))

/-- A scale beyond the range is cut back to the greatest one, which leaves a speck. -/
theorem abs_ofScaled_le {u n s : Int} (hs : min n Word.greatest ≤ s)
    (h : |(u : ℚ)| * 10 ^ (-n) ≤ b) (hspeck : |(u : ℚ)| * 10 ^ (-Word.greatest) ≤ b) :
    |(ofScaled u s).toRat| ≤ b := by
  refine (abs_ofScaled_le_of_le hs (min_le_right _ _)).trans ?_
  obtain hmin | hmin := min_choice n Word.greatest
  all_goals rwa [hmin]

/-! ## Exponents -/

theorem pow_le_abs_toRat (hx : x.unscaled ≠ 0) :
    (10 : ℚ) ^ ((x.digitCount : Int) - 1 - x.scale) ≤ |x.toRat| := by
  rw [← toRat_abs]
  exact pow_le_toRat (x := x.abs) (Int.natCast_pos.2 (Int.natAbs_pos.2 hx))

theorem abs_toRat_lt_pow (x : Decimal) : |x.toRat| < 10 ^ ((x.digitCount : Int) - x.scale) := by
  rw [abs_toRat, sub_eq_add_neg, zpow_add₀ (by norm_num)]
  exact mul_lt_mul_of_pos_right (abs_unscaled_lt x) (by positivity)

theorem pow_exponent_le_abs (hx : x.unscaled ≠ 0) : (10 : ℚ) ^ x.exponent ≤ |x.toRat| :=
  (zpow_le_zpow_right₀ (by norm_num) (exponent_le hx)).trans (pow_le_abs_toRat hx)

theorem exponent_lt_of_abs_lt (hx : x.unscaled ≠ 0) {k : Int} (h : |x.toRat| < 10 ^ k) :
    x.exponent < k :=
  (zpow_lt_zpow_iff_right₀ (by norm_num)).1 ((pow_exponent_le_abs hx).trans_lt h)

/-- The exponent of zero is zero. -/
theorem exponent_lt_of_abs_lt_pow {k : Int} (hk : 0 < k) (h : |x.toRat| < 10 ^ k) :
    x.exponent < k := by
  by_cases hx : x.unscaled = 0
  · rw [exponent, if_pos hx]
    exact hk
  · exact exponent_lt_of_abs_lt hx h

theorem le_exponent {k : Int} (hk : k ≤ Word.greatest) (h : 10 ^ k ≤ |x.toRat|) :
    k ≤ x.exponent := by
  have hx : x.unscaled ≠ 0 := by
    intro hzero
    rw [toRat_eq_zero.2 hzero, abs_zero] at h
    exact absurd h (zpow_pos (by norm_num) k).not_ge
  have hlt := (zpow_lt_zpow_iff_right₀ (by norm_num)).1 (h.trans_lt (abs_toRat_lt_pow x))
  rw [exponent_eq_min hx]
  exact le_min (by omega) hk

theorem abs_toRat_lt_exponent (h : x.exponent < Word.greatest) :
    |x.toRat| < 10 ^ (x.exponent + 1) := by
  by_contra hle
  have hexponent := le_exponent (by omega) (not_lt.1 hle)
  omega

end Decimal

namespace Context

/-! ## Rounding -/

theorem abs_rounded_le (hb : Rounding.Short ctx.precision b) {q : ℚ} (h : |q| ≤ b) :
    |ctx.rounded q| ≤ b :=
  hb.abs_significant_le ctx.precision_pos h

theorem abs_round_le_rounded (ctx : Context) (x : Decimal) :
    |(ctx.round x).toRat| ≤ |ctx.rounded x.toRat| := by
  obtain ⟨hshort, -⟩ | ⟨hx, hlong, q, s, hq, hs, hcarry⟩ := x.roundTo_cases ctx.precision ctx.rounding
  · rw [toRat_round_eq]
    rw [Traced.round, if_pos (by simpa [isZero] using hshort)]
    exact fun _ h => absurd h List.not_mem_nil
  have hscale : s ≤ Word.greatest := by
    have := x.scale_fits.2
    omega
  have hvalue := rounded_toRat (K := ℚ) hx hlong
  rw [Rat.cast_id, ← hq, ← hs] at hvalue
  rw [hvalue, abs_mul, abs_of_pos (zpow_pos (a := (10 : ℚ)) (by norm_num) _), round]
  obtain ⟨-, heq⟩ | ⟨-, heq⟩ := hcarry
  · rw [heq]
    exact abs_ofScaled_le_of_le le_rfl hscale
  · have hlast : |((q.tdiv 10 : Int) : ℚ)| * 10 ≤ |(q : ℚ)| := by
      rw [← Int.cast_abs, ← Int.cast_abs, Int.abs_eq_natAbs, Int.abs_eq_natAbs, Int.natAbs_tdiv]
      exact_mod_cast Nat.div_mul_le_self q.natAbs 10
    have hsaturate := (Word.saturate_fits s).2
    rw [heq]
    refine (abs_ofScaled_le_of_le le_rfl (by omega)).trans ?_
    rw [neg_sub, sub_eq_add_neg, zpow_add₀ (by norm_num), zpow_one, ← mul_assoc]
    refine mul_le_mul hlast ?_ (by positivity) (abs_nonneg _)
    exact zpow_le_zpow_right₀ (by norm_num) (neg_le_neg (Word.le_saturate le_rfl hscale))

theorem abs_round_le (hb : Rounding.Short ctx.precision b) (h : |x.toRat| ≤ b) :
    |(ctx.round x).toRat| ≤ b :=
  (abs_round_le_rounded ctx x).trans (abs_rounded_le hb h)

/-! ## Products -/

/-- A product is no greater than a short bound, if that is above the specks. -/
theorem abs_mul_le (hb : Rounding.Short ctx.precision b) (h : |x.toRat| * |y.toRat| ≤ b)
    (hspeck : (10 : ℚ) ^ ((x.digitCount + y.digitCount : Int) - Word.greatest) ≤ b) :
    |(ctx.mul x y).toRat| ≤ b := by
  refine abs_round_le hb (abs_ofScaled_le (min_le_left _ _) ?_ ?_)
  · rw [Int.cast_mul, abs_mul, neg_add, zpow_add₀ (by norm_num), mul_mul_mul_comm, ← abs_toRat,
      ← abs_toRat]
    exact h
  · refine le_trans ?_ hspeck
    rw [Int.cast_mul, abs_mul, sub_eq_add_neg, zpow_add₀ (by norm_num), zpow_add₀ (by norm_num)]
    refine mul_le_mul_of_nonneg_right ?_ (by positivity)
    exact mul_le_mul (abs_unscaled_lt x).le (abs_unscaled_lt y).le (abs_nonneg _) (by positivity)

/-! ## Quotients -/

/-- The integer quotient behind a quotient is not much longer than the dividend. -/
theorem natAbs_quotient_lt {shift : Nat} (hy : y.unscaled ≠ 0)
    (hshift : shift = ctx.precision + 3 + y.digitCount - x.digitCount) :
    ((x.unscaled * pow10 shift).tdiv y.unscaled).natAbs < 10 ^ (ctx.precision + x.digitCount + 4) := by
  have hpos : 0 < y.digitCount := digitCount_pos _
  have hlower : 10 ^ (y.digitCount - 1) ≤ y.unscaled.natAbs :=
    pow10_digitCount_le (Int.natAbs_ne_zero.2 hy)
  have hupper : x.unscaled.natAbs < 10 ^ x.digitCount := lt_pow10_digitCount _
  rw [Int.natAbs_tdiv]
  change _ / y.unscaled.natAbs < _
  rw [Nat.div_lt_iff_lt_mul (Int.natAbs_pos.2 hy), Int.natAbs_mul, Int.natAbs_natCast]
  calc x.unscaled.natAbs * pow10 shift
      < 10 ^ x.digitCount * 10 ^ shift :=
        Nat.mul_lt_mul_of_pos_right hupper (Nat.pow_pos (by decide))
    _ = 10 ^ (x.digitCount + shift) := (pow_add 10 _ _).symm
    _ ≤ 10 ^ (ctx.precision + x.digitCount + 4 + (y.digitCount - 1)) :=
        Nat.pow_le_pow_right (by decide) (by omega)
    _ = 10 ^ (ctx.precision + x.digitCount + 4) * 10 ^ (y.digitCount - 1) := pow_add 10 _ _
    _ ≤ 10 ^ (ctx.precision + x.digitCount + 4) * y.unscaled.natAbs := Nat.mul_le_mul_left _ hlower

theorem speck_le {u : Int} {digits : Nat} (hu : u.natAbs ≤ 10 ^ digits) :
    |(u : ℚ)| * 10 ^ (-Word.greatest) ≤ 10 ^ ((digits : Int) - Word.greatest) := by
  rw [sub_eq_add_neg, zpow_add₀ (by norm_num), ← Int.cast_abs, Int.abs_eq_natAbs, zpow_natCast]
  exact mul_le_mul_of_nonneg_right (by exact_mod_cast hu) (by positivity)

section

variable {shift : Nat} {q : Int}

theorem abs_even_quotient_le (hy : y.unscaled ≠ 0) (hb : Rounding.Short ctx.precision b)
    (hq : q = (x.unscaled * pow10 shift).tdiv y.unscaled)
    (heven : (x.unscaled * pow10 shift).tmod y.unscaled = 0) (h : |x.toRat / y.toRat| ≤ b)
    (hspeck : |(q : ℚ)| * 10 ^ (-Word.greatest) ≤ b) :
    |(ctx.round (ofScaled q (Word.saturate (x.scale - y.scale) + shift))).toRat| ≤ b := by
  rw [toRat_div_of_even hy heven, ← hq, abs_mul,
    abs_of_pos (zpow_pos (a := (10 : ℚ)) (by norm_num) _)] at h
  refine abs_round_le hb (abs_ofScaled_le ?_ h hspeck)
  rw [Word.saturate_eq]
  omega

/-- Behind an uneven quotient stands one more digit, which the rounding takes for the tail. -/
theorem abs_uneven_quotient_le (hx : x.unscaled ≠ 0) (hy : y.unscaled ≠ 0)
    (hscales : Word.least ≤ x.scale - y.scale) (hb : Rounding.Short ctx.precision b)
    (hlong : pow10 (ctx.precision + 2 + y.digitCount) ≤ (x.unscaled * pow10 shift).natAbs)
    (huneven : (x.unscaled * pow10 shift).tmod y.unscaled ≠ 0)
    (hq : q = (x.unscaled * pow10 shift).tdiv y.unscaled * 10 +
      (if x.isNegative = y.isNegative then 1 else -1))
    (h : |x.toRat / y.toRat| ≤ b) (hspeck : |(q : ℚ)| * 10 ^ (-Word.greatest) ≤ b) :
    |(ctx.round (ofScaled q (Word.saturate (x.scale - y.scale) + shift + 1))).toRat| ≤ b := by
  obtain hfits | hstops := le_or_gt (x.scale - y.scale + shift + 1) Word.greatest
  · have hrounded := rounded_inexact hx hy hlong huneven
    rw [Word.saturate_of_fits ⟨hscales, by omega⟩]
    refine (abs_round_le_rounded ctx _).trans ?_
    rw [toRat_ofScaled _ ⟨by omega, hfits⟩, hq, hrounded]
    exact abs_rounded_le hb h
  · refine abs_round_le hb (abs_ofScaled_le (min_le_right _ _ |>.trans ?_) hspeck hspeck)
    rw [Word.saturate_eq]
    omega

end

/-- A quotient is no greater than a short bound, if that is above the specks and the scale that is
asked for does not stop at the lower end. -/
theorem abs_div_le (hy : y.unscaled ≠ 0)
    (hscales : x.unscaled ≠ 0 → Word.least ≤ x.scale - y.scale)
    (hb : Rounding.Short ctx.precision b) (h : |x.toRat / y.toRat| ≤ b)
    (hspeck : (10 : ℚ) ^ (((ctx.precision + x.digitCount + 5 : Nat) : Int) - Word.greatest) ≤ b) :
    Succeeds (ctx.div x y) fun z => |z.toRat| ≤ b ∧ z.digitCount ≤ ctx.precision := by
  suffices hle : ∃ z, ctx.div x y = .ok z ∧ |z.toRat| ≤ b by
    obtain ⟨z, hz, hzle⟩ := hle
    exact ⟨z, hz, hzle, digitCount_div_le hz⟩
  obtain ⟨-, heq⟩ | ⟨hx, shift, preferred, q, hshift, rfl, hq, hdiv⟩ := ctx.div_cases x hy
  · refine ⟨0, heq, ?_⟩
    rw [toRat_zero, abs_zero]
    exact (abs_nonneg _).trans h
  have hquotient : q.natAbs < 10 ^ (ctx.precision + x.digitCount + 4) := by
    rw [hq]
    exact natAbs_quotient_lt hy hshift
  have hlong := pow10_le_dividend ctx hx y
  rw [← hshift] at hlong
  obtain ⟨heven, heq⟩ | ⟨huneven, heq⟩ := hdiv
  · refine ⟨_, heq, ?_⟩
    rw [toRat_strip (Word.saturate_fits _).1]
    refine abs_even_quotient_le hy hb hq heven h ((speck_le ?_).trans hspeck)
    exact hquotient.le.trans (Nat.pow_le_pow_right (by decide) (by omega))
  · refine ⟨_, heq, abs_uneven_quotient_le hx hy (hscales hx) hb hlong huneven (by rw [hq]) h
      ((speck_le ?_).trans hspeck)⟩
    rw [pow_succ]
    split <;> omega

/-- A natural number asks for no other scale. -/
theorem abs_div_ofNat_le {n : Nat} (hn : 0 < n) (hb : Rounding.Short ctx.precision b)
    (h : |x.toRat| / n ≤ b)
    (hspeck : (10 : ℚ) ^ (((ctx.precision + x.digitCount + 5 : Nat) : Int) - Word.greatest) ≤ b) :
    Succeeds (ctx.div x (ofNat n)) fun z => |z.toRat| ≤ b ∧ z.digitCount ≤ ctx.precision := by
  refine abs_div_le (Int.natCast_ne_zero.2 hn.ne') ?_ hb ?_ hspeck
  · intro _
    rw [show x.scale - (ofNat n).scale = x.scale from sub_zero _]
    exact x.scale_fits.1
  · rwa [toRat_ofNat, abs_div, Nat.abs_cast]

/-! ## Negligible terms -/

theorem isNegligible_of_abs_lt (hprecision : (ctx.precision : Int) < Word.greatest)
    (h : |x.toRat| < 10 ^ (y.exponent - ctx.precision)) : ctx.isNegligible x y = true := by
  unfold isNegligible
  rw [Bool.or_eq_true, decide_eq_true_eq]
  by_cases hx : x.unscaled = 0
  · exact .inl (beq_iff_eq.2 hx)
  right
  have hexponent := exponent_lt_of_abs_lt hx h
  obtain hle | hlt := le_or_gt (y.exponent - x.exponent) Word.greatest
  · have := Word.le_saturate le_rfl hle
    omega
  · exact hprecision.trans_eq (Word.saturate_of_greatest_lt hlt).symm

/-- The digits of a term that counts are not far behind those of the reference. -/
theorem scale_le_of_not_isNegligible (hprecision : (ctx.precision : Int) < Word.greatest)
    (h : ¬ ctx.isNegligible x y = true) :
    x.unscaled ≠ 0 ∧ x.scale ≤ x.digitCount - 1 - y.exponent + ctx.precision := by
  unfold isNegligible at h
  rw [Bool.or_eq_true, decide_eq_true_eq, not_or, not_lt] at h
  have hx : x.unscaled ≠ 0 := fun hzero => h.1 (beq_iff_eq.2 hzero)
  have hexponent := exponent_le hx
  refine ⟨hx, ?_⟩
  obtain hle | hlt := le_or_gt (y.exponent - x.exponent) Word.greatest
  · have := Word.le_saturate le_rfl hle
    omega
  · rw [Word.saturate_of_greatest_lt hlt] at h
    omega

end Context

end Reckoner
