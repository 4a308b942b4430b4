import Reckoner.Proofs.Loops.Angles

/-!
# Loops of the arc tangent

The angle is halved and then its series is summed. Both end where the exponent of the argument is far
from the ends of the word range. At the lower end the series never ends: the exponents of its terms
stop there, so no term is ever negligible beside the first.
-/

namespace Reckoner

open Integer Decimal

namespace Context

variable {ctx : Context} {x : Decimal} {n passes places : Nat}

/-- The loops of the arc tangent of a number between zero and one. -/
def AtanUpToOneEnds (ctx : Context) (x : Decimal) (passes : Nat) : Prop :=
  ∃ reduced count sum, EndsWithin (Reduction.angleHalving ctx).pass passes (x, 0) (reduced, count) ∧
    EndsWithin (ctx.seriesPass (ctx.atanSeries reduced)) passes (1, reduced, reduced) sum ∧
    ctx.atanUpToOne x = .ok (ctx.mul sum (ofNat (Nat.pow 2 count)))

theorem AtanUpToOneEnds.mono {m : Nat} (h : ctx.AtanUpToOneEnds x passes) (hm : passes ≤ m) :
    ctx.AtanUpToOneEnds x m := by
  obtain ⟨reduced, count, sum, hhalving, hsum, hresult⟩ := h
  exact ⟨reduced, count, sum, hhalving.mono hm, hsum.mono hm, hresult⟩

/-- Above one, the loops of the inverse and of the circle constant. -/
def AtanOfPositiveEnds (ctx : Context) (x : Decimal) (passes : Nat) : Prop :=
  if 1 < x then ctx.PiEnds passes ∧
    ∃ inverse, ctx.div 1 x = .ok inverse ∧ ctx.AtanUpToOneEnds inverse passes
  else ctx.AtanUpToOneEnds x passes

def AtanEnds (ctx : Context) (x : Decimal) (passes : Nat) : Prop :=
  ctx.guarded.AtanOfPositiveEnds (if x.isNegative then -x else x) passes

/-- What an odd function is computed from has the size of its argument. -/
theorem without_sign (hx : x.isZero = false) :
    0 < (if x.isNegative then -x else x).toRat ∧
      (if x.isNegative then -x else x).exponent = x.exponent ∧
      (if x.isNegative then -x else x).digitCount = x.digitCount := by
  have hx0 : x.toRat ≠ 0 := by rwa [Ne, ← isZero_iff, Bool.not_eq_true]
  split
  · next hneg =>
    rw [isNegative_iff] at hneg
    exact ⟨by rw [toRat_neg]; linarith, exponent_neg x, digitCount_neg x⟩
  · next hneg =>
    rw [isNegative_iff, not_lt] at hneg
    exact ⟨hneg.lt_of_ne' hx0, rfl, rfl⟩

/-! ## Arguments whose exponents have room -/

/-- What a number between zero and one becomes when its angle is halved. -/
structure Halved (ctx : Context) (x : Decimal) (n places : Nat) (y : Decimal) (count : Nat) : Prop where
  ends : EndsWithin (Reduction.angleHalving ctx).pass 5 (x, 0) (y, count)
  count_le : count ≤ 4
  nonneg : 0 ≤ y.toRat
  le_tenth : y.toRat ≤ 1 / 10
  digits : y.digitCount ≤ n
  start : y = x ∨ 1 / 100 ≤ y.toRat
  le_exponent : -(places + 2 : Nat) ≤ y.exponent

theorem exists_halved (h : ctx.Roomy (n + 3)) (hp : ctx.precision ≤ n) (hdigits : x.digitCount ≤ n)
    (hlower : 0 ≤ x.toRat) (hupper : x.toRat ≤ 1) (hplaces : -places ≤ x.exponent) :
    ∃ y count, ctx.Halved x n places y count := by
  obtain ⟨y, count, hends, hcount, hy, htenth, hlength, hstart⟩ :=
    Reduction.angleHalving_ends h hp hdigits hlower hupper
  refine ⟨y, count, hends, hcount, hy, htenth, hlength, hstart, ?_⟩
  obtain rfl | hhundredth := hstart
  · omega
  · refine Decimal.le_exponent (by unfold Word.greatest; omega) ?_
    rw [abs_of_nonneg hy]
    have hplace : (10 : ℚ) ^ (-((places + 2 : Nat) : Int)) ≤ 10 ^ (-2 : Int) :=
      zpow_le_zpow_right₀ (by norm_num) (by omega)
    refine hplace.trans ?_
    norm_num
    linarith

theorem Halved.abs_le {y : Decimal} {count : Nat} (h : ctx.Halved x n places y count) :
    |y.toRat| ≤ 10 ^ (-1 : Int) := by
  rw [abs_of_nonneg h.nonneg, zpow_neg_one]
  linarith [h.le_tenth]

theorem Halved.exponent_lt {y : Decimal} {count : Nat} (h : ctx.Halved x n places y count) :
    y.exponent < 1 :=
  exponent_lt_of_abs_lt_pow (by decide) (h.abs_le.trans_lt (by norm_num))

theorem atanUpToOne_ends (h : ctx.Roomy (n + 3)) (hprecision : 2 ≤ ctx.precision)
    (hp : ctx.precision ≤ n) (hdigits : x.digitCount ≤ n) (hlower : 0 ≤ x.toRat)
    (hupper : x.toRat ≤ 1) (hplaces : -places ≤ x.exponent)
    (hroom : (3 * n + places + 12 : Int) ≤ Word.greatest) :
    ctx.AtanUpToOneEnds x (ctx.precision + 5) := by
  obtain ⟨y, count, hhalved⟩ := exists_halved h hp hdigits hlower hupper hplaces
  have hleast := hhalved.le_exponent
  have hgreatest := hhalved.exponent_lt
  have hspacious : ctx.Spacious n (y.exponent - ctx.precision) :=
    ⟨hp, by push_cast at hleast; omega⟩
  have hfirst : |y.toRat| ≤ 10 ^ (y.exponent + (1 : Nat)) :=
    (abs_toRat_lt_exponent (hgreatest.trans (by decide))).le
  obtain ⟨sum, hsum⟩ := series_ends (z := y)
    (atanSeries_shrinks hspacious (by omega) hhalved.abs_le hhalved.digits) (fun _ => rfl) (by omega)
    hfirst hhalved.digits
  refine ⟨y, count, sum, hhalved.ends.mono (by omega), hsum.mono (by omega), ?_⟩
  have hreduced : ctx.halveAngle 16 x = .ok (y, count) := by
    rw [Reduction.halveAngle_eq_reduce]
    exact Reduction.reduce_of_endsWithin hhalved.ends (by decide)
  have hlimit : ctx.sumSeries (ctx.atanSeries y) y = .ok sum :=
    sumSeries_of_endsWithin hsum (by unfold termLimit; omega)
  simp only [atanUpToOne, hreduced, Traced.ok_bind, hlimit]
  rfl

/-- The inverse of a number above one. Its scale is near the exponent of the number. -/
theorem inverse_bounds (places : Nat) (hx : 1 < x.toRat) (hdigits : x.digitCount ≤ n)
    (hp : ctx.precision ≤ n) (hplaces : x.exponent.natAbs ≤ places)
    (hroom : (8 * n + places + 10 : Int) ≤ Word.greatest) :
    Succeeds (ctx.div 1 x) fun inverse => inverse.toRat = ctx.rounded (1 / x.toRat) ∧
      (0 < inverse.toRat ∧ inverse.toRat ≤ 1) ∧ -(places + 1 : Nat) ≤ inverse.exponent ∧
        inverse.digitCount ≤ ctx.precision := by
  have hpos : 0 < x.toRat := by linarith
  have hx0 : x.unscaled ≠ 0 := fun hzero => hpos.ne' (toRat_eq_zero.2 hzero)
  have hwithin := within_of_exponent hx0 hplaces (by omega)
  have hlower := hwithin.le_scale
  have hupper := hwithin.scale_le
  have hn : 0 < n := ctx.precision_pos.trans_le hp
  have hone : (1 : Decimal).digitCount ≤ n := (digitCount_pow 0).trans_le hn
  have hscales : (((1 : Decimal).scale - x.scale).natAbs + 6 * n + 10 : Int) ≤ Word.greatest := by
    rw [show (1 : Decimal).scale = 0 from rfl]
    omega
  refine (div_of_fits (fits_div_of_scales hone hdigits hp hscales) hpos.ne').imp fun z hz => ?_
  rw [toRat_one] at hz
  have hx_le : x.toRat ≤ 10 ^ ((places + 1 : Nat) : Int) := by
    refine (le_abs_self _).trans ((abs_toRat_lt_exponent (by omega)).le.trans ?_)
    exact zpow_le_zpow_right₀ (by norm_num) (by push_cast; omega)
  have hleast : (10 : ℚ) ^ (-(places + 1 : Nat) : Int) ≤ 1 / x.toRat := by
    rw [zpow_neg, ← one_div]
    exact one_div_le_one_div_of_le hpos hx_le
  have hbounds := rounded_bounds (Rounding.short_pow ctx.precision_pos _)
    (Rounding.short_one ctx.precision_pos) ⟨hleast, (div_le_one hpos).2 hx.le⟩
  rw [← hz.1] at hbounds
  have hzpos : 0 < z.toRat := (zpow_pos (by norm_num) _).trans_le hbounds.1
  refine ⟨hz.1, ⟨hzpos, hbounds.2⟩, le_exponent (by unfold Word.greatest; omega) ?_, hz.2⟩
  rw [abs_of_pos hzpos]
  exact hbounds.1

theorem atanOfPositive_ends (hprecision : 11 ≤ ctx.precision) (hx : 0 < x.toRat)
    (hplaces : x.exponent.natAbs ≤ places)
    (hroom : (16 * (2 * ctx.precision + x.digitCount + 30) + places + 100 : Int) ≤ Word.greatest) :
    ctx.AtanOfPositiveEnds x (ctx.precision + 12) := by
  have hwords {m : Nat} (hm : ctx.precision ≤ m)
      (hupper : m ≤ 2 * ctx.precision + x.digitCount + 30) : ctx.Roomy m := ⟨hm, by omega⟩
  unfold AtanOfPositiveEnds
  split
  · next hlarge =>
    rw [lt_iff, toRat_one] at hlarge
    refine ⟨(pi_ends (hwords (by omega) (by omega))).1, ?_⟩
    obtain ⟨inverse, hinverse, -, ⟨hpos, hle⟩, hleast, hdigits⟩ :=
      inverse_bounds (n := ctx.precision + x.digitCount) places hlarge (by omega)
        (Nat.le_add_right ctx.precision _) hplaces (by push_cast; omega)
    have hends := atanUpToOne_ends (n := ctx.precision) (hwords (by omega) (by omega)) (by omega)
      le_rfl hdigits hpos.le hle hleast (by push_cast; omega)
    exact ⟨inverse, hinverse, hends.mono (by omega)⟩
  · next hsmall =>
    rw [lt_iff, toRat_one, not_lt] at hsmall
    have hends := atanUpToOne_ends (n := ctx.precision + x.digitCount)
      (hwords (by omega) (by omega)) (by omega) (by omega) (by omega) hx.le hsmall
      (show -(places : Int) ≤ _ by omega) (by push_cast; omega)
    exact hends.mono (by omega)

theorem atan_ends (hx : x.isZero = false) (hplaces : x.exponent.natAbs ≤ places)
    (h : ctx.Ample x.digitCount places) : ctx.AtanEnds x (ctx.precision + 22) := by
  unfold Ample at h
  have hprecision := ctx.precision_pos
  have hwide : ctx.guarded.precision = ctx.precision + 10 := rfl
  obtain ⟨hpos, hexponent, hdigits⟩ := without_sign hx
  refine atanOfPositive_ends (by omega) hpos (hexponent ▸ hplaces) ?_
  rw [hdigits, hwide]
  push_cast
  omega

/-! ## Arguments at the end of the word range -/

/-- Beside the smallest numbers that the words can hold no term is negligible, unless it is zero. -/
theorem isNegligible_eq_false {y : Decimal} (hx : x.unscaled ≠ 0)
    (hy : y.exponent ≤ ctx.precision - Word.greatest) : ctx.isNegligible x y = false := by
  have hexponent := neg_greatest_le_exponent x
  unfold isNegligible
  rw [Bool.or_eq_false_iff, decide_eq_false_iff_not, not_lt]
  refine ⟨beq_eq_false_iff_ne.2 hx, Word.saturate_le (by omega) ?_⟩
  unfold Word.least
  omega

/-- The series of such a number never ends: every pass keeps a power that is not zero. -/
theorem atanSeries_never_ends (hx : x.unscaled ≠ 0)
    (hexponent : x.exponent ≤ ctx.precision - Word.greatest) (sum : Decimal) :
    ¬ EndsWithin (ctx.seriesPass (ctx.atanSeries x)) passes (1, x, x) sum := by
  have hsign {y : Decimal} : y.unscaled ≠ 0 ↔ y.sign ≠ 0 :=
    Int.sign_eq_zero_iff_zero.not.symm
  -- rounding keeps signs, so no power and no term ever becomes zero
  refine EndsWithin.false_of_invariant (I := fun state => state.2.1.unscaled ≠ 0) ?_ hx
  rintro ⟨k, power, sum⟩ hpower
  have hnext : (ctx.mul power (ctx.mul x x)).unscaled ≠ 0 := by
    rw [hsign, sign_mul, sign_mul]
    exact mul_ne_zero (hsign.1 hpower) (mul_ne_zero (hsign.1 hx) (hsign.1 hx))
  have hdivisor : (ofNat (2 * k + 1)).sign = 1 := Int.sign_natCast_of_ne_zero (by omega)
  obtain ⟨quotient, hquotient, hterm⟩ := div_sign ctx (ctx.mul power (ctx.mul x x))
    (show (ofNat (2 * k + 1)).sign ≠ 0 by rw [hdivisor]; decide)
  have hterm0 : (alternating k quotient).unscaled ≠ 0 := by
    have hquotient0 : quotient.unscaled ≠ 0 := by
      rw [hsign, hterm, hdivisor, mul_one]
      exact hsign.1 hnext
    unfold alternating
    split
    · exact neg_ne_zero.2 hquotient0
    · exact hquotient0
  refine ⟨(k + 1, ctx.mul power (ctx.mul x x), ctx.add sum (alternating k quotient)), ?_, hnext⟩
  have hpass : (ctx.atanSeries x).term k (ctx.mul power (ctx.mul x x)) =
      .ok (alternating k quotient) := by
    change (ctx.div _ _ >>= _) = _
    rw [hquotient]
    rfl
  rw [seriesPass_of_ok rfl hpass]
  exact if_neg (ne_true_of_eq_false (isNegligible_eq_false hterm0 hexponent))

theorem atanOfPositive_never_ends (hx : 0 < x.toRat)
    (hexponent : x.exponent ≤ ctx.precision - Word.greatest)
    (hprecision : (ctx.precision + 2 : Int) ≤ Word.greatest) :
    ¬ ctx.AtanOfPositiveEnds x passes := by
  have hsmall : x.toRat ≤ 1 / 10 := by
    have hplace := abs_toRat_lt_exponent (x := x) (by unfold Word.greatest at *; omega)
    refine (le_abs_self _).trans (hplace.le.trans ?_)
    refine (zpow_le_zpow_right₀ (by norm_num) (show x.exponent + 1 ≤ -1 by omega)).trans_eq ?_
    norm_num
  have hnear : (Reduction.angleHalving ctx).isFar x = false := by
    rw [← Bool.not_eq_true, Reduction.isFar_angleHalving, not_lt]
    exact hsmall
  unfold AtanOfPositiveEnds
  rw [if_neg (by rw [lt_iff, toRat_one]; linarith)]
  rintro ⟨reduced, count, sum, hhalving, hsum, -⟩
  have hpass : (Reduction.angleHalving ctx).pass (x, 0) = .ok (.inr (x, 0)) :=
    Reduction.pass_of_near hnear
  -- The angle is not halved at all.
  obtain rfl : reduced = x := by
    cases hhalving with
    | breaks h =>
      rw [hpass] at h
      cases h
      rfl
    | goesOn h _ =>
      rw [hpass] at h
      cases h
  exact atanSeries_never_ends (fun hzero => hx.ne' (toRat_eq_zero.2 hzero)) hexponent sum hsum

/-- The arc tangent of a number at the lower end of the exponents never comes to a result. -/
theorem atan_never_ends (hx : x.isZero = false)
    (hexponent : x.exponent ≤ ctx.guarded.precision - Word.greatest)
    (hprecision : (ctx.guarded.precision + 2 : Int) ≤ Word.greatest) : ¬ ctx.AtanEnds x passes := by
  obtain ⟨hpos, hsame, -⟩ := without_sign hx
  exact atanOfPositive_never_ends hpos (hsame.trans_le hexponent) hprecision

end Context

end Reckoner
