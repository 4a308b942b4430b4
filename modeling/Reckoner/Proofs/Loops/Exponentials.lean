import Reckoner.Proofs.Loops.Reductions
import Reckoner.Proofs.Loops.Series

/-!
# Loops of exponentials and logarithms

The argument of an exponential is halved, and that of a logarithm comes near one by square roots,
before a series is summed. The bounds on these steps do not depend on where the point of the argument
stands.
-/

namespace Reckoner

open Integer Decimal

namespace Context

variable {ctx : Context} {x : Decimal} {n passes : Nat}

/-! ## The exponential function -/

/-- The loops of the exponential of a positive number. -/
def ExpOfPositiveEnds (ctx : Context) (x : Decimal) (passes : Nat) : Prop :=
  ∃ reduced count sum, EndsWithin Reduction.halving.pass passes (x, 0) (reduced, count) ∧
    let wide := ctx.wider (guardDigits + count)
    EndsWithin (wide.seriesPass (wide.expSeries (wide.round reduced))) passes (1, 1, 1) sum ∧
    ctx.expOfPositive x = .ok (ctx.round (Nat.repeat (fun s => wide.mul s s) count sum))

theorem ExpOfPositiveEnds.mono {k : Nat} (h : ctx.ExpOfPositiveEnds x passes) (hk : passes ≤ k) :
    ctx.ExpOfPositiveEnds x k := by
  obtain ⟨reduced, count, sum, hhalving, hsum, hresult⟩ := h
  exact ⟨reduced, count, sum, hhalving.mono hk, hsum.mono hk, hresult⟩

/-- The loops of the exponential; that of a negative number is an inverse. -/
def ExpEnds (ctx : Context) (x : Decimal) (passes : Nat) : Prop :=
  if x.isNegative then ctx.guarded.ExpOfPositiveEnds (-x) passes else ctx.ExpOfPositiveEnds x passes

theorem expOfPositive_ends (hx : 0 ≤ x.toRat) (hexponent : x.exponent ≤ exponentLimit)
    (hdigits : (x.digitCount + 60 : Int) ≤ Word.greatest)
    (hprecision : (3 * ctx.precision + 300 : Int) ≤ Word.greatest) :
    ctx.ExpOfPositiveEnds x (ctx.precision + 76) := by
  obtain ⟨y, count, hhalving, hcount, hy, hyupper, -⟩ :=
    Reduction.halving_ends hx hexponent hdigits
  have hwide : (ctx.wider (guardDigits + count)).precision = ctx.precision + (10 + count) := rfl
  have hrounded : 0 ≤ ((ctx.wider (guardDigits + count)).round y).toRat := by
    rw [← sign_nonneg_iff, sign_round, sign_nonneg_iff]
    exact hy
  have hone : ((ctx.wider (guardDigits + count)).round y).toRat ≤ 1 := by
    refine (le_abs_self _).trans (abs_round_le (Rounding.short_one (precision_pos _)) ?_)
    rw [abs_of_nonneg hy]
    linarith
  obtain ⟨sum, hsum, -⟩ := expSeries_ends ⟨le_rfl, by rw [hwide]; push_cast; omega⟩
    (by rw [hwide]; push_cast; omega) hrounded hone digitCount_round_le
  refine ⟨y, count, sum, hhalving.mono (by omega), hsum.mono (by omega), ?_⟩
  have hreduced : halve 64 x = (y, count) := by
    refine Except.ok.inj ((Reduction.halve_eq_reduce 64 x).trans ?_)
    exact Reduction.reduce_of_endsWithin hhalving (by decide)
  have hlimit := sumSeries_of_endsWithin hsum (by unfold termLimit; omega)
  simp only [expOfPositive, hreduced, hlimit]
  rfl

theorem exp_ends (hexponent : x.exponent ≤ exponentLimit)
    (h : ctx.Ample x.digitCount 0) : ctx.ExpEnds x (ctx.precision + 86) := by
  unfold Ample at h
  have hwide : ctx.guarded.precision = ctx.precision + 10 := rfl
  unfold ExpEnds
  split
  · next hneg =>
    rw [isNegative_iff] at hneg
    refine expOfPositive_ends (by rw [toRat_neg]; linarith) ((exponent_neg x).trans_le hexponent)
      ?_ ?_
    · rw [digitCount_neg]
      omega
    · rw [hwide]
      push_cast
      omega
  · next hneg =>
    rw [isNegative_iff, not_lt] at hneg
    exact (expOfPositive_ends hneg hexponent (by omega) (by omega)).mono (by omega)

/-! ## Logarithms -/

/-- The loops of the logarithm of a number that is near one after some square roots. -/
def LnUpToTenEnds (ctx : Context) (m : Decimal) (passes : Nat) : Prop :=
  let wide := ctx.wider 4
  ∃ value count z, EndsWithin (Reduction.rooting wide).pass passes (m, 0) (value, count) ∧
    wide.div (wide.sub value 1) (wide.add value 1) = .ok z ∧
    if z.isZero then ctx.lnUpToTen m = .ok 0
    else ∃ sum, EndsWithin (wide.seriesPass (wide.atanhSeries z)) passes (1, z, z) sum ∧
      ctx.lnUpToTen m = .ok (wide.mul sum (ofNat (Nat.pow 2 (count + 1))))

theorem LnUpToTenEnds.mono {m : Decimal} {k : Nat} (h : ctx.LnUpToTenEnds m passes)
    (hk : passes ≤ k) : ctx.LnUpToTenEnds m k := by
  obtain ⟨value, count, z, hrooting, hz, hrest⟩ := h
  refine ⟨value, count, z, hrooting.mono hk, hz, ?_⟩
  split at hrest
  · next hzero => rwa [if_pos hzero]
  · next hzero =>
    obtain ⟨sum, hsum, hresult⟩ := hrest
    rw [if_neg hzero]
    exact ⟨sum, hsum.mono hk, hresult⟩

/-- The loops of the logarithm, with those of the logarithm of ten. -/
def LnEnds (ctx : Context) (x : Decimal) (passes : Nat) : Prop :=
  let wide := ctx.guarded.wider (ofInt x.exponent).digitCount
  wide.LnUpToTenEnds (x.movePoint (-x.exponent)) passes ∧
    (x.exponent ≠ 0 → wide.LnUpToTenEnds 10 passes)

/-- A divisor of at most ten takes at most one power of ten off a number. -/
theorem le_exponent_of_quotient {y z : Decimal} (hx : x.Within n) (hx0 : x.unscaled ≠ 0)
    (hy : 0 < y.toRat ∧ y.toRat ≤ 10) (hz : z.toRat = ctx.rounded (x.toRat / y.toRat)) :
    -(n + 1 : Nat) ≤ z.exponent := by
  refine Decimal.le_exponent (by unfold Word.greatest; omega) ?_
  rw [hz]
  refine (Rounding.short_pow ctx.precision_pos _).le_abs_significant ctx.precision_pos ?_
  rw [abs_div, abs_of_pos hy.1, le_div_iff₀ hy.1, Nat.cast_add_one, neg_add,
    zpow_add₀ (by norm_num), mul_assoc]
  refine (mul_le_of_le_one_right (by positivity) ?_).trans (hx.le_abs hx0)
  rw [zpow_neg_one]
  linarith [hy.2]

/-- The quotient whose inverse hyperbolic tangent is summed is small, and it is zero or not far below
the digits of the number. -/
theorem atanh_argument_bounds {value : Decimal} (hwithin : value.Within n)
    (h : ctx.Roomy (6 * n + 10)) (hp : ctx.precision ≤ n)
    (hbounds : 1 ≤ value.toRat ∧ value.toRat ≤ 11 / 10) :
    Succeeds (ctx.div (ctx.sub value 1) (ctx.add value 1)) fun z =>
      |z.toRat| ≤ 10 ^ (-1 : Int) ∧ z.digitCount ≤ ctx.precision ∧
        (z.isZero = true ∨ -(6 * n + 11 : Nat) ≤ z.exponent) := by
  have hpos := ctx.precision_pos
  have hone : (1 : Decimal).Within n :=
    within_ofNat (by omega) (Nat.one_lt_pow (by omega) (by decide))
  have htenth : Rounding.Short ctx.precision (1 / 10 : ℚ) :=
    Rounding.short_of_digit (n := 1) (k := -1) hpos (by decide) (by norm_num)
  have htwo : Rounding.Short ctx.precision (2 : ℚ) :=
    Rounding.short_of_digit (n := 2) (k := 0) hpos (by decide) (by norm_num)
  have hthree : Rounding.Short ctx.precision (3 : ℚ) :=
    Rounding.short_of_digit (n := 3) (k := 0) hpos (by decide) (by norm_num)
  have hroom : ctx.Roomy n := h.mono (by omega) hp
  have hdifference : 0 ≤ (ctx.sub value 1).toRat ∧ (ctx.sub value 1).toRat ≤ 1 / 10 :=
    add_bounds hwithin hone.neg hroom Rounding.short_zero htenth
      (by rw [toRat_neg, toRat_one]; constructor <;> linarith)
  have hsum : 2 ≤ (ctx.add value 1).toRat ∧ (ctx.add value 1).toRat ≤ 3 :=
    add_bounds hwithin hone hroom htwo hthree (by rw [toRat_one]; constructor <;> linarith)
  have hsumPos : 0 < (ctx.add value 1).toRat := by linarith [hsum.1]
  have hdifferenceWithin : (ctx.sub value 1).Within (6 * n + 10) :=
    (add_of_within hwithin hone.neg hroom).2
  have hfits := fits_div hdifferenceWithin (add_of_within hwithin hone hroom).2 h
  refine (div_of_fits hfits hsumPos.ne').imp fun z hz => ?_
  have hquotient : 0 ≤ (ctx.sub value 1).toRat / (ctx.add value 1).toRat ∧
      (ctx.sub value 1).toRat / (ctx.add value 1).toRat ≤ 1 / 10 :=
    ⟨div_nonneg hdifference.1 hsumPos.le, (div_le_iff₀ hsumPos).2 (by linarith [hdifference.2])⟩
  have hz0 : 0 ≤ z.toRat ∧ z.toRat ≤ 1 / 10 := by
    rw [hz.1]
    exact rounded_bounds Rounding.short_zero htenth hquotient
  refine ⟨by rw [abs_of_nonneg hz0.1, zpow_neg_one]; linarith [hz0.2], hz.2, ?_⟩
  obtain hzero | hnonzero := eq_or_ne (ctx.sub value 1).unscaled 0
  · left
    rw [isZero_iff, hz.1, toRat_eq_zero.2 hzero, zero_div]
    exact Rounding.significant_zero
  · exact .inr (le_exponent_of_quotient hdifferenceWithin hnonzero
      ⟨hsumPos, by linarith [hsum.2]⟩ hz.1)

theorem lnUpToTen_ends {m : Decimal} (hm : Traced.Leading m)
    (h : ctx.Roomy (20 * (ctx.precision + m.digitCount + 10))) :
    ctx.LnUpToTenEnds m (ctx.precision + m.digitCount + 7) := by
  have hpos := ctx.precision_pos
  have hwords := h.room
  push_cast at hwords
  have hwide : (ctx.wider 4).precision = ctx.precision + 4 := rfl
  have hroom {n : Nat} (hn : (ctx.wider 4).precision ≤ n)
      (hupper : n ≤ 20 * (ctx.precision + m.digitCount + 10)) : (ctx.wider 4).Roomy n :=
    ⟨hn, by omega⟩
  obtain ⟨value, count, hrooting, hlower, hupper, hdigits⟩ :=
    Reduction.rooting_ends hm (by omega) (hroom (by omega) (by omega))
  have hwithin : value.Within ((ctx.wider 4).precision + m.digitCount + 1) := by
    refine within_of_pos 1 hdigits ?_ ?_ <;> linarith
  obtain ⟨z, hz, hsize, hzDigits, hleast⟩ := atanh_argument_bounds hwithin
    (hroom (by omega) (by omega)) (by omega) ⟨hlower, hupper⟩
  have hreduced : (ctx.wider 4).approachOne (m.digitCount + 64) m = .ok (value, count) := by
    rw [Reduction.approachOne_eq_reduce]
    exact Reduction.reduce_of_endsWithin hrooting (by omega)
  refine ⟨value, count, z, hrooting.mono (by omega), hz, ?_⟩
  split
  · next hzero =>
    simp only [lnUpToTen, hreduced, Traced.ok_bind, hz, hzero]
    rfl
  next hzero =>
  have hleast := hleast.resolve_left hzero
  have hgreatest : z.exponent < 1 :=
    exponent_lt_of_abs_lt (fun h0 => hzero (beq_iff_eq.2 h0)) (hsize.trans_lt (by norm_num))
  have hspacious : (ctx.wider 4).Spacious (ctx.wider 4).precision
      (z.exponent - (ctx.wider 4).precision) := ⟨le_rfl, by push_cast [hwide] at hleast ⊢; omega⟩
  have hfirst : |z.toRat| ≤ 10 ^ (z.exponent + (1 : Nat)) :=
    (abs_toRat_lt_exponent (hgreatest.trans (by decide))).le
  obtain ⟨sum, hsum⟩ := series_ends (z := z)
    (atanhSeries_shrinks hspacious (by push_cast [hwide]; omega) hsize hzDigits) (fun _ => rfl)
    (by push_cast [hwide]; omega) hfirst hzDigits
  refine ⟨sum, hsum.mono (by omega), ?_⟩
  have hlimit : (ctx.wider 4).sumSeries ((ctx.wider 4).atanhSeries z) z = .ok sum :=
    sumSeries_of_endsWithin hsum (by unfold termLimit; omega)
  simp only [lnUpToTen, hreduced, Traced.ok_bind, hz, hzero, hlimit]
  rfl

/-- The point of a positive number moves behind its leading digit, however far that is. -/
theorem leading_of_positive (hx : 0 < x.unscaled) (hdigits : (x.digitCount : Int) ≤ Word.greatest) :
    Traced.Leading (x.movePoint (-x.exponent)) := by
  refine Traced.leading_movePoint hx rfl (Traced.fits_ofScaled.2 ?_)
  rw [sub_neg_eq_add]
  exact fits_scale_add_exponent hx.ne' (.inl hdigits)

theorem leading_ten : Traced.Leading 10 := by
  have hten : (10 : Decimal).toRat = 10 := toRat_ofNat 10
  have hdigits : (10 : Decimal).digitCount = 2 := digitCount_pow 1
  constructor
  · rw [hten]
    norm_num
  · rw [hten, hdigits]
    norm_num

theorem digitCount_exponent_le (x : Decimal) : (ofInt x.exponent).digitCount ≤ 19 := by
  refine (digitCount_le_iff (by decide)).2 ?_
  change x.exponent.natAbs < _
  have hfits := x.exponent_fits
  unfold Word.Fits Word.least Word.greatest at hfits
  omega

theorem ln_ends (hx : x.isPositive = true) (h : ctx.Ample x.digitCount 0) :
    ctx.LnEnds x (ctx.precision + x.digitCount + 50) := by
  rw [isPositive, decide_eq_true_iff] at hx
  unfold Ample at h
  have hplaces := digitCount_exponent_le x
  have hwide : (ctx.guarded.wider (ofInt x.exponent).digitCount).precision =
      ctx.precision + 10 + (ofInt x.exponent).digitCount := rfl
  have hends {m : Decimal} (hm : Traced.Leading m) (hdigits : m.digitCount ≤ x.digitCount + 2) :
      (ctx.guarded.wider (ofInt x.exponent).digitCount).LnUpToTenEnds m
        (ctx.precision + x.digitCount + 50) :=
    (lnUpToTen_ends hm ⟨by omega, by push_cast [hwide]; omega⟩).mono (by omega)
  refine ⟨hends (leading_of_positive hx (by omega)) (Nat.le_add_right _ 2), fun _ => ?_⟩
  exact hends leading_ten ((digitCount_pow 1).trans_le (by omega))

end Context

end Reckoner
