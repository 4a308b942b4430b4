import Reckoner.Proofs.Accuracy.SeriesSums
import Reckoner.Proofs.Loops.ArcTangents

/-!
# Arc tangents of small numbers

The powers in the series of the arc tangent lose two places with each pass, so its sum stays near the
first term however many passes there are. An arc tangent is therefore not much smaller than its
argument.
-/

namespace Reckoner

open Integer Decimal

namespace Atan

variable {ctx : Context} {x y power sum term result : Decimal} {i places : Nat}

/-! ## The drift of a sum -/

/-- How far so many passes can take a sum from its first term, for a first term below one. -/
def drift (ctx : Context) (i : Nat) : ℚ := (1 - (1 / 100) ^ i) / 99 + 2 * i * ctx.roundoff

theorem drift_zero (ctx : Context) : drift ctx 0 = 0 := by simp [drift]

theorem drift_succ (ctx : Context) (i : Nat) :
    drift ctx (i + 1) = drift ctx i + (1 / 100) ^ (i + 1) + 2 * ctx.roundoff := by
  unfold drift
  push_cast
  ring

theorem drift_le (hprecision : 8 ≤ ctx.precision) (hi : i ≤ ctx.precision + 5) :
    drift ctx i ≤ 2 / 100 := by
  have hpasses := Context.count_mul_roundoff_le hprecision (show i ≤ _ by omega)
  have hrest : (0 : ℚ) ≤ (1 / 100) ^ i := by positivity
  unfold drift
  linarith

/-! ## Passes of the series -/

/-- A tangent small enough for the series, with the room that its powers take. -/
structure Small (ctx : Context) (y : Decimal) : Prop where
  abs_le : |y.toRat| ≤ 10 ^ (-1 : Int)
  digits : y.digitCount ≤ ctx.precision
  precision : 8 ≤ ctx.precision
  spacious : ctx.Spacious ctx.precision (y.exponent - 2 * ctx.precision - 20)

/-- What is known before each pass: how small the running power is, and how far the sum is from the
first term. -/
structure FollowsFirst (ctx : Context) (y : Decimal) (i : Nat) (power sum : Decimal) : Prop where
  power_le : |power.toRat| ≤ 10 ^ (y.exponent + 1 - 2 * i)
  digits : power.digitCount ≤ ctx.precision
  sum_near : |sum.toRat - y.toRat| ≤ drift ctx i * 10 ^ (y.exponent + 1)

theorem Small.exponent_lt (h : Small ctx y) : y.exponent < 1 :=
  exponent_lt_of_abs_lt_pow (by decide) (h.abs_le.trans_lt (by norm_num))

theorem Small.le_pow (h : Small ctx y) : |y.toRat| ≤ 10 ^ (y.exponent + 1) :=
  (abs_toRat_lt_exponent (h.exponent_lt.trans (by decide))).le

theorem followsFirst_first (h : Small ctx y) : FollowsFirst ctx y 0 y y where
  power_le := by simpa using h.le_pow
  digits := h.digits
  sum_near := by rw [sub_self, abs_zero, drift_zero, zero_mul]

theorem FollowsFirst.next (h : Small ctx y) (hi : i ≤ ctx.precision + 4)
    (hfollows : FollowsFirst ctx y i power sum) :
    |(ctx.mul power (ctx.mul y y)).toRat| ≤ 10 ^ (y.exponent + 1 - 2 * (i + 1 : Nat)) ∧
      (ctx.mul power (ctx.mul y y)).digitCount ≤ ctx.precision := by
  have hspecks := h.spacious.specks
  have hexponent := h.exponent_lt
  have hdigits := hfollows.digits
  obtain ⟨hsquare, hsquareDigits⟩ := Context.square_le_pow h.spacious h.abs_le h.digits (by omega)
  unfold Context.AtMost at hsquareDigits
  obtain ⟨hle, hcount⟩ := Context.mul_le_pow ctx hfollows.power_le hsquare (by omega)
  refine ⟨hle.trans_eq ?_, hcount⟩
  congr 1
  push_cast
  ring

/-- A pass adds a term of a hundredth of the bound before, and one rounding. -/
theorem FollowsFirst.add (h : Small ctx y) (hi : i ≤ ctx.precision + 4)
    (hfollows : FollowsFirst ctx y i power sum)
    (hterm : |term.toRat| ≤ 10 ^ (y.exponent + 1 - 2 * (i + 1 : Nat))) :
    |(ctx.add sum term).toRat - y.toRat| ≤ drift ctx (i + 1) * 10 ^ (y.exponent + 1) := by
  have hunit : (10 : ℚ) ^ (y.exponent + 1 - 2 * (i + 1 : Nat)) =
      (1 / 100) ^ (i + 1) * 10 ^ (y.exponent + 1) := by
    rw [zpow_sub₀ (by norm_num), zpow_mul, zpow_natCast, div_eq_mul_inv, ← inv_pow, mul_comm]
    norm_num
  have hpos : (0 : ℚ) < 10 ^ (y.exponent + 1) := zpow_pos (by norm_num) _
  have hten : (10 : ℚ) ^ (y.exponent + 1) ≤ 10 ^ (1 : Int) :=
    zpow_le_zpow_right₀ (by norm_num) (by have := h.exponent_lt; omega)
  have hsmall := mul_le_mul_of_nonneg_right (drift_le h.precision (i := i) (by omega)) hpos.le
  have hrest : (1 / 100 : ℚ) ^ (i + 1) ≤ 1 / 100 :=
    pow_le_of_le_one (by norm_num) (by norm_num) i.succ_ne_zero
  have hrestSmall := mul_le_mul_of_nonneg_right hrest hpos.le
  have hsum := hfollows.sum_near
  have hfirst := h.le_pow
  rw [hunit] at hterm
  rw [drift_succ]
  -- all bounds are multiples of the power of ten above the first term
  generalize (10 : ℚ) ^ (y.exponent + 1) = place at *
  rw [zpow_one] at hten
  rw [← sub_zero term.toRat] at hterm
  have hadd := ctx.abs_add_sub_le_of_size 2 hsum hterm (by linarith)
    (by rw [abs_zero]; linarith) (by decide)
  rw [add_zero] at hadd
  have hrounding := mul_le_mul_of_nonneg_left
    (show |y.toRat| + (drift ctx i * place + (1 / 100) ^ (i + 1) * place) ≤ 2 * place by linarith)
    ctx.roundoff_pos.le
  linarith

theorem FollowsFirst.pass (h : Small ctx y) (hi : i ≤ ctx.precision + 4)
    (hfollows : FollowsFirst ctx y i power sum) :
    ∃ next term, (ctx.atanSeries y).next (i + 1) power = .ok next ∧
      (ctx.atanSeries y).term (i + 1) next = .ok term ∧
      FollowsFirst ctx y (i + 1) next (ctx.add sum term) := by
  have hexponent := h.exponent_lt
  obtain ⟨hle, hcount⟩ := hfollows.next h hi
  obtain ⟨term, hterm, htermLe, -⟩ :=
    Context.alternating_term h.spacious (k := i + 1) (by push_cast; omega) hle hcount
  exact ⟨_, term, rfl, hterm, hle, hcount, hfollows.add h hi htermLe⟩

/-- The sum of the series is within a fifth of its first term. -/
theorem atanSeries_near (h : Small ctx y) (hy : 0 < y.toRat)
    (hends : EndsWithin (ctx.seriesPass (ctx.atanSeries y)) (ctx.precision + 5) (1, y, y) result) :
    |result.toRat - y.toRat| ≤ 1 / 5 * y.toRat := by
  have hlower : 10 ^ (y.exponent + 1) ≤ 10 * y.toRat := by
    have hplace := pow_exponent_le_abs fun hzero => hy.ne' (toRat_eq_zero.2 hzero)
    rw [abs_of_pos hy] at hplace
    rw [zpow_add_one₀ (by norm_num)]
    linarith
  refine Context.sum_of_invariant (J := FollowsFirst ctx y)
    (Q := fun sum => |sum.toRat - y.toRat| ≤ 1 / 5 * y.toRat) hends
    (fun i power sum hi hfollows => ?_) (followsFirst_first h)
  obtain ⟨next, term, hnext, hterm, hfollows'⟩ := hfollows.pass h (by omega)
  refine ⟨next, term, hnext, hterm, fun _ => ?_, fun _ => hfollows'⟩
  have hdrift := mul_le_mul (drift_le h.precision (i := i) (by omega)) hlower (by positivity)
    (by norm_num)
  linarith [hfollows.sum_near]

/-! ## Numbers up to one -/

theorem small_of_halved {count : Nat} (h : ctx.Halved x ctx.precision places y count)
    (hprecision : 8 ≤ ctx.precision) (hroom : (4 * ctx.precision + places + 40 : Int) ≤ Word.greatest) :
    Small ctx y where
  abs_le := h.abs_le
  digits := h.digits
  precision := hprecision
  spacious := ⟨le_rfl, by have := h.le_exponent; push_cast at this; omega⟩

/-- Halving an angle takes no more from it than the sum is multiplied by. -/
theorem scaled_sum_bounds {count : Nat} (h : ctx.Halved x ctx.precision places y count)
    (hsum : |result.toRat - y.toRat| ≤ 1 / 5 * y.toRat) :
    (0 ≤ result.toRat * 2 ^ count ∧ result.toRat * 2 ^ count ≤ 2) ∧
      ∀ k : Int, k ≤ -2 → 10 ^ k ≤ x.toRat → 8 / 10 * 10 ^ k ≤ result.toRat * 2 ^ count := by
  have hnonneg := h.nonneg
  have htenth := h.le_tenth
  obtain ⟨hlower, hupper⟩ := abs_le.1 hsum
  have hone : (1 : ℚ) ≤ 2 ^ count := one_le_pow₀ one_le_two
  have hsixteen : (2 : ℚ) ^ count ≤ 2 ^ 4 := pow_le_pow_right₀ one_le_two h.count_le
  have hproduct : result.toRat ≤ result.toRat * 2 ^ count :=
    le_mul_of_one_le_right (by linarith) hone
  refine ⟨⟨by linarith, ?_⟩, fun k hk hx => ?_⟩
  · calc result.toRat * 2 ^ count ≤ 12 / 100 * 2 ^ 4 :=
          mul_le_mul (by linarith) hsixteen (by positivity) (by norm_num)
      _ ≤ 2 := by norm_num
  · have hplace : 10 ^ k ≤ y.toRat := by
      obtain rfl | hhundredth := h.start
      · exact hx
      · refine (zpow_le_zpow_right₀ (by norm_num) hk).trans (le_trans ?_ hhundredth)
        norm_num
    linarith

/-- The arc tangent of a number up to one is not much smaller than the number. -/
theorem atanUpToOne_bounds (hprecision : 8 ≤ ctx.precision) (hdigits : x.digitCount ≤ ctx.precision)
    (hlower : 0 < x.toRat) (hupper : x.toRat ≤ 1) (hplaces : -places ≤ x.exponent)
    (hroom : (16 * ctx.precision + places + 200 : Int) ≤ Word.greatest) :
    Succeeds (ctx.atanUpToOne x) fun angle => (0 ≤ angle.toRat ∧ angle.toRat ≤ 2) ∧
      ∀ k : Int, k ≤ -2 → 10 ^ k ≤ x.toRat → 8 / 10 * 10 ^ k ≤ angle.toRat := by
  have hroomy : ctx.Roomy (ctx.precision + 3) := ⟨by omega, by push_cast; omega⟩
  obtain ⟨y, count, sum, hhalving, hsum, hresult⟩ : ctx.AtanUpToOneEnds x (ctx.precision + 5) :=
    Context.atanUpToOne_ends hroomy (by omega) le_rfl hdigits hlower.le hupper hplaces (by omega)
  obtain ⟨y', count', hhalved⟩ :=
    Context.exists_halved hroomy le_rfl hdigits hlower.le hupper hplaces
  -- the halving ends in one place, so both tell of the same halved number
  obtain ⟨rfl, rfl⟩ := Prod.mk.inj (hhalving.unique hhalved.ends)
  have hy : 0 < y.toRat := by
    obtain rfl | hhundredth := hhalved.start
    · exact hlower
    · linarith
  have hnear := atanSeries_near (small_of_halved hhalved hprecision (by omega)) hy hsum
  obtain ⟨⟨hnonneg, htwo⟩, hplace⟩ := scaled_sum_bounds hhalved hnear
  have hfactor : (((Nat.pow 2 count : Nat) : Int) : ℚ) = 2 ^ count := by exact_mod_cast rfl
  have hvalue : (ctx.mul sum (ofNat (Nat.pow 2 count))).toRat =
      ctx.rounded (sum.toRat * 2 ^ count) := by
    rw [← hfactor]
    refine ctx.value_mul_ofInt (m := 1) ?_ (by decide)
    rw [hfactor, abs_of_nonneg hnonneg]
    linarith
  refine ⟨_, hresult, ?_, fun k hk hx => ?_⟩ <;> rw [hvalue]
  · have htwo' : Rounding.Short ctx.precision (2 : ℚ) :=
      Rounding.short_of_digit (n := 2) (k := 0) ctx.precision_pos (by decide) (by norm_num)
    exact Context.rounded_bounds Rounding.short_zero htwo' ⟨hnonneg, htwo⟩
  · refine Rounding.Short.le_significant ?_ ctx.precision_pos (hplace k hk hx)
    refine Rounding.short_of_digit (n := 8) (k := k - 1) ctx.precision_pos (by decide) ?_
    rw [zpow_sub_one₀ (by norm_num)]
    ring

end Atan

end Reckoner
