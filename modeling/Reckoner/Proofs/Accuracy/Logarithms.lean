import Mathlib.Analysis.Complex.ExponentialBounds
import Reckoner.Proofs.Accuracy.AtanhSeries

/-!
# Logarithms of numbers up to ten

Five square roots bring a number up to ten near one, and the logarithm of what is left is the sum of a
series. Each root doubles the errors before it, so the result is off by as many roundings as there are
terms, a few times over. The sign is not touched by any of them.
-/

namespace Reckoner

open Integer Decimal

/-! ## Logarithms of numbers that are close -/

/-- Numbers that are off by a small factor have logarithms that are off by twice that. -/
theorem abs_log_sub_log_le {a b ε : ℝ} (hb : 0 < b) (hε : ε ≤ 1 / 2) (h : |a - b| ≤ ε * b) :
    |Real.log a - Real.log b| ≤ 2 * ε := by
  obtain ⟨hlower, hupper⟩ := abs_le.1 h
  have hhalf : ε * b ≤ 1 / 2 * b := mul_le_mul_of_nonneg_right hε hb.le
  have hε0 : 0 ≤ ε := nonneg_of_mul_nonneg_left ((abs_nonneg _).trans h) hb
  have ha : 0 < a := by linarith
  have hab := Real.log_le_sub_one_of_pos (div_pos ha hb)
  have hba := Real.log_le_sub_one_of_pos (div_pos hb ha)
  rw [Real.log_div ha.ne' hb.ne', div_sub_one hb.ne'] at hab
  rw [Real.log_div hb.ne' ha.ne', div_sub_one ha.ne'] at hba
  have hab' : (a - b) / b ≤ ε := (div_le_iff₀ hb).2 (by linarith)
  have hba' : (b - a) / a ≤ 2 * ε := by
    rw [div_le_iff₀ ha]
    nlinarith
  exact abs_le.2 ⟨by linarith, by linarith⟩

/-- Numbers up to a tenth that are close have inverse hyperbolic tangents that are close. -/
theorem abs_logRatio_sub_logRatio_le {y z : ℝ} (hy : |y| ≤ 1 / 10) (hclose : |z - y| ≤ 1 / 10) :
    |logRatio z - logRatio y| ≤ 8 * |z - y| := by
  obtain ⟨hlower, hupper⟩ := abs_le.1 hy
  have hnonneg := abs_nonneg (z - y)
  have hplus : |Real.log (1 + z) - Real.log (1 + y)| ≤ 2 * (2 * |z - y|) := by
    refine abs_log_sub_log_le (by linarith) (by linarith) ?_
    rw [add_sub_add_left_eq_sub]
    nlinarith
  have hminus : |Real.log (1 - z) - Real.log (1 - y)| ≤ 2 * (2 * |z - y|) := by
    refine abs_log_sub_log_le (by linarith) (by linarith) ?_
    rw [sub_sub_sub_cancel_left, abs_sub_comm]
    nlinarith
  rw [logRatio, logRatio, sub_sub_sub_comm]
  exact (abs_sub _ _).trans (by linarith)

/-- A logarithm is that of a ratio. -/
theorem logRatio_eq_log {v : ℝ} (hv : 0 < v) : logRatio ((v - 1) / (v + 1)) = Real.log v := by
  have hsum : 0 < v + 1 := by linarith
  have hplus : 1 + (v - 1) / (v + 1) = 2 * v / (v + 1) := by
    field_simp
    ring
  have hminus : 1 - (v - 1) / (v + 1) = 2 / (v + 1) := by
    field_simp
    ring
  rw [logRatio, hplus, hminus, Real.log_div (by positivity) hsum.ne',
    Real.log_div two_ne_zero hsum.ne', Real.log_mul two_ne_zero hv.ne']
  ring

/-- The reciprocal of a number counts its errors twice. -/
theorem Near.inv {K : Type*} [Field K] [LinearOrder K] [IsStrictOrderedRing K] {u x q : K} {k : Nat}
    (hu : 0 ≤ u) (hk : k * u ≤ 1 / 4) (hq : q ≠ 0) (h : Near u k x q) :
    Near u (2 * k) x⁻¹ q⁻¹ := by
  have hgrowth := growth_le hu (hk.trans (by norm_num))
  have hdouble : (1 + u) ^ (2 * k) - 1 = 2 * ((1 + u) ^ k - 1) + ((1 + u) ^ k - 1) ^ 2 := by
    rw [mul_comm, pow_mul]
    ring
  refine (abs_inv_sub_le (by linarith) h hq).trans (mul_le_mul_of_nonneg_right ?_ (abs_nonneg _))
  rw [hdouble]
  exact le_add_of_nonneg_right (sq_nonneg _)

namespace Context

variable {ctx : Context} {x m value z : Decimal} {n passes : Nat}

/-! ## Square roots -/

/-- What is known of a number after so many roots. The bounds and the errors are those of numbers up to
ten. -/
structure Rooted (ctx : Context) (m : Decimal) (j : Nat) (y : Decimal) : Prop where
  digits : y.digitCount ≤ ctx.precision + m.digitCount
  one_le : 1 ≤ y.toRat
  upper : y.toRat ≤ 10 ^ (m.digitCount + 1)
  strict : 1 < m.toRat → 1 < y.toRat
  bound : m.toRat ≤ 10 → j ≤ 5 ∧ y.toRat ≤ Traced.rootBound (5 - j)
  log_near : |2 ^ j * Real.log y.toRat - Real.log m.toRat| ≤ 2 ^ (j + 2) * (ctx.roundoff : ℝ)

theorem rooted_zero (hm : Traced.Leading m) : ctx.Rooted m 0 m where
  digits := Nat.le_add_left _ _
  one_le := hm.lower
  upper := hm.upper.le
  strict := id
  bound h := ⟨Nat.zero_le 5, h.trans (by norm_num [Traced.rootBound])⟩
  log_near := by
    have hpos : (0 : ℝ) < (ctx.roundoff : ℚ) := by exact_mod_cast ctx.roundoff_pos
    rw [pow_zero, one_mul, sub_self, abs_zero]
    positivity

theorem Rooted.within {j : Nat} {y : Decimal} (h : ctx.Rooted m j y) :
    y.Within (ctx.precision + 2 * m.digitCount + 1) := by
  refine (within_of_pos (m.digitCount + 1) h.digits ?_ h.upper).mono (by omega)
  exact (div_le_one_of_le₀ (one_le_pow₀ (by norm_num)) (by positivity)).trans h.one_le

/-- One more root halves the logarithm, but for one rounding. -/
theorem abs_log_root_sub_le {y : ℚ} {r : Decimal} (hprecision : 2 ≤ ctx.precision) (hy : 0 < y)
    (hr : (r.toRat : ℝ) = ctx.rounded √(y : ℝ)) :
    |2 * Real.log r.toRat - Real.log y| ≤ 4 * (ctx.roundoff : ℝ) := by
  have hpos : (0 : ℝ) < y := by exact_mod_cast hy
  have hroundoff : ((ctx.roundoff : ℚ) : ℝ) = 10 ^ (1 - ctx.precision : Int) := by
    rw [roundoff]
    push_cast
    rfl
  have hsmall : ((ctx.roundoff : ℚ) : ℝ) ≤ 1 / 2 := by
    rw [hroundoff]
    refine (zpow_le_zpow_right₀ (by norm_num) (show 1 - (ctx.precision : Int) ≤ -1 by omega)).trans ?_
    norm_num
  have hroot := Real.sqrt_pos.2 hpos
  have herror : |(r.toRat : ℝ) - √(y : ℝ)| ≤ (ctx.roundoff : ℝ) * √(y : ℝ) := by
    rw [hr, hroundoff, mul_comm]
    refine (Rounding.abs_significant_sub_le _).trans_eq ?_
    rw [abs_of_pos hroot]
  have hlog := abs_log_sub_log_le hroot hsmall herror
  rw [Real.log_sqrt hpos.le] at hlog
  rw [show 2 * Real.log r.toRat - Real.log y = 2 * (Real.log r.toRat - Real.log y / 2) by ring,
    abs_mul, abs_two]
  linarith

theorem Rooted.log_step {j : Nat} {y r : Decimal} (h : ctx.Rooted m j y)
    (hprecision : 2 ≤ ctx.precision) (hr : (r.toRat : ℝ) = ctx.rounded √(y.toRat : ℝ)) :
    |2 ^ (j + 1) * Real.log r.toRat - Real.log m.toRat| ≤ 2 ^ (j + 1 + 2) * (ctx.roundoff : ℝ) := by
  have hroot := abs_log_root_sub_le hprecision (zero_lt_one.trans_le h.one_le) hr
  have hsplit : 2 ^ (j + 1) * Real.log r.toRat - Real.log m.toRat =
      2 ^ j * (2 * Real.log r.toRat - Real.log y.toRat) +
        (2 ^ j * Real.log y.toRat - Real.log m.toRat) := by ring
  rw [hsplit]
  calc |2 ^ j * (2 * Real.log r.toRat - Real.log y.toRat) +
        (2 ^ j * Real.log y.toRat - Real.log m.toRat)|
      ≤ |2 ^ j * (2 * Real.log r.toRat - Real.log y.toRat)| +
          |2 ^ j * Real.log y.toRat - Real.log m.toRat| := abs_add_le _ _
    _ ≤ 2 ^ j * (4 * (ctx.roundoff : ℝ)) + 2 ^ (j + 2) * (ctx.roundoff : ℝ) := by
        rw [abs_mul, abs_of_pos (show (0 : ℝ) < 2 ^ j by positivity)]
        exact add_le_add (mul_le_mul_of_nonneg_left hroot (by positivity)) h.log_near
    _ = 2 ^ (j + 1 + 2) * (ctx.roundoff : ℝ) := by ring

/-- No root of a number that is still far from one is rounded below this. -/
theorem short_start (hprecision : 3 ≤ ctx.precision) :
    Rounding.Short ctx.precision (104 / 100 : ℚ) := by
  refine ⟨104, -2, by norm_num, ?_⟩
  calc |(104 : Int)| < 10 ^ 3 := by decide
    _ ≤ 10 ^ ctx.precision := pow_le_pow_right₀ (by decide) hprecision

/-- A number that is still far from one meets the next of its bounds. -/
theorem Rooted.bound_step {j : Nat} {y r : Decimal} (h : ctx.Rooted m j y)
    (hprecision : 3 ≤ ctx.precision) (hfar : 11 / 10 < y.toRat)
    (hr : (r.toRat : ℝ) = ctx.rounded √(y.toRat : ℝ)) (hten : m.toRat ≤ 10) :
    j + 1 ≤ 5 ∧ r.toRat ≤ Traced.rootBound (5 - (j + 1)) := by
  obtain ⟨hj, hbound⟩ := h.bound hten
  obtain ⟨left, hleft⟩ : ∃ left, 5 - j = left + 1 := by
    refine Nat.exists_eq_succ_of_ne_zero fun hlast => ?_
    rw [hlast, Traced.rootBound] at hbound
    linarith
  rw [hleft] at hbound
  have hbounds := rounded_sqrt_bounds hr (short_start hprecision)
    (Traced.short_rootBound (by omega) left) (zero_le_one.trans (Traced.one_le_rootBound left))
    (by linarith) (hbound.trans (Traced.rootBound_succ_le left))
  refine ⟨by omega, ?_⟩
  rw [show 5 - (j + 1) = left by omega]
  exact hbounds.2

theorem Rooted.step {j : Nat} {y : Decimal} (h : ctx.Rooted m j y) (hprecision : 3 ≤ ctx.precision)
    (hroom : ctx.Roomy (ctx.precision + 2 * m.digitCount + 1)) (hfar : 11 / 10 < y.toRat) :
    Succeeds (ctx.sqrt y) (ctx.Rooted m (j + 1)) := by
  have hpos : 0 < y.toRat := by linarith
  have hplaces : Rounding.Short ctx.precision ((10 : ℚ) ^ (m.digitCount + 1)) := by
    exact_mod_cast Rounding.short_pow (K := ℚ) ctx.precision_pos (m.digitCount + 1 : Nat)
  have hr := value_sqrt h.within hroom hpos
  have hdigits : (ctx.wholeRoot y 2).digitCount ≤ ctx.precision := digitCount_wholeRoot_le
  have hbounds := rounded_sqrt_bounds hr (short_start hprecision) hplaces (by positivity)
    (by linarith) (h.upper.trans (le_self_pow₀ (one_le_pow₀ (by norm_num)) two_ne_zero))
  exact ⟨_, sqrt_of_pos hpos, by omega, by linarith [hbounds.1], hbounds.2,
    fun _ => by linarith [hbounds.1], h.bound_step hprecision hfar hr, h.log_step (by omega) hr⟩

theorem rooted_of_ends (hm : Traced.Leading m) (hprecision : 3 ≤ ctx.precision)
    (hroom : ctx.Roomy (ctx.precision + 2 * m.digitCount + 1)) {count : Nat}
    (hends : EndsWithin (Reduction.rooting ctx).pass passes (m, 0) (value, count)) :
    ctx.Rooted m count value ∧ value.toRat ≤ 11 / 10 := by
  refine hends.of_invariant (i := 0) (I := fun j state => state.2 = j ∧ ctx.Rooted m j state.1)
    (Q := fun r => ctx.Rooted m r.2 r.1 ∧ r.1.toRat ≤ 11 / 10) ?_ ⟨rfl, rooted_zero hm⟩
  rintro j ⟨y, count⟩ - ⟨rfl, hrooted⟩
  cases hfar : (Reduction.rooting ctx).isFar y with
  | false =>
    rw [Reduction.pass_of_near hfar]
    rw [← Bool.not_eq_true, Reduction.isFar_rooting, not_or, not_lt] at hfar
    simpa using ⟨hrooted, hfar.1⟩
  | true =>
    have hlarge : 11 / 10 < y.toRat := by
      refine (Reduction.isFar_rooting.1 hfar).resolve_right ?_
      rw [not_lt]
      linarith [hrooted.one_le]
    obtain ⟨r, hr, hnext⟩ := hrooted.step hprecision hroom hlarge
    rw [Reduction.pass_of_far hfar hr]
    simpa using hnext

/-! ## The argument of the series -/

theorem atanh_argument_near (hprecision : 2 ≤ ctx.precision) (hwithin : value.Within n)
    (h : ctx.Roomy (6 * n + 10)) (hn : ctx.precision ≤ n) (hvalue : 1 ≤ value.toRat)
    (hz : ctx.div (ctx.sub value 1) (ctx.add value 1) = .ok z) :
    Near ctx.roundoff 4 z.toRat ((value.toRat - 1) / (value.toRat + 1)) := by
  have hpos := ctx.roundoff_pos.le
  have hroom : ctx.Roomy n := h.mono (by omega) hn
  have hone : (1 : Decimal).Within n :=
    within_ofNat (by omega) (Nat.one_lt_pow (by omega) (by decide))
  obtain ⟨hdifferenceFits, hdifferenceWithin⟩ := add_of_within hwithin hone.neg hroom
  obtain ⟨hsumFits, hsumWithin⟩ := add_of_within hwithin hone hroom
  have hdifference := near_rounded ctx (value.toRat + (-1 : Decimal).toRat)
  rw [← value_add hdifferenceFits, toRat_neg, toRat_one, ← sub_eq_add_neg] at hdifference
  have hsum := near_rounded ctx (value.toRat + (1 : Decimal).toRat)
  rw [← value_add hsumFits, toRat_one] at hsum
  have hsmall : (1 : Nat) * ctx.roundoff ≤ 1 / 4 := by
    rw [Nat.cast_one, one_mul]
    refine (zpow_le_zpow_right₀ (by norm_num) (show 1 - (ctx.precision : Int) ≤ -1 by omega)).trans ?_
    norm_num
  have hquotient := hdifference.mul hpos (hsum.inv hpos hsmall (by linarith))
  have hlast := (near_rounded ctx _).trans hpos hquotient
  rw [← div_eq_mul_inv, ← div_eq_mul_inv, ← value_div (fits_div hdifferenceWithin hsumWithin h) hz]
    at hlast
  exact hlast

theorem sign_argument (hvalue : 1 ≤ value.toRat)
    (hz : ctx.div (ctx.sub value 1) (ctx.add value 1) = .ok z) : z.sign = (ctx.sub value 1).sign := by
  have hsum : 0 < (ctx.add value 1).toRat := toRat_add_pos (by rw [toRat_one]; linarith)
  obtain ⟨w, hw, hsign⟩ := div_sign ctx (ctx.sub value 1) (y := ctx.add value 1)
    (by rw [sign_of_pos hsum]; decide)
  obtain rfl : w = z := Except.ok.inj (hw.symm.trans hz)
  rw [hsign, sign_of_pos hsum, mul_one]

theorem argument_nonneg (hvalue : 1 ≤ value.toRat)
    (hz : ctx.div (ctx.sub value 1) (ctx.add value 1) = .ok z) : 0 ≤ z.toRat := by
  rw [← sign_nonneg_iff, sign_argument hvalue hz, sign_nonneg_iff]
  exact toRat_sub_nonneg (by rwa [toRat_one])

theorem argument_pos (hvalue : 1 < value.toRat)
    (hz : ctx.div (ctx.sub value 1) (ctx.add value 1) = .ok z) : 0 < z.toRat := by
  rw [← sign_pos_iff, sign_argument hvalue.le hz, sign_pos_iff]
  exact toRat_sub_pos (by rwa [toRat_one])

/-- The quotient is at most a twentieth, so its errors come to less than half a roundoff. -/
theorem abs_argument_sub_le (hprecision : 8 ≤ ctx.precision)
    (hvalue : 1 ≤ value.toRat ∧ value.toRat ≤ 11 / 10) {y : ℚ}
    (hy : y = (value.toRat - 1) / (value.toRat + 1)) (hnear : Near ctx.roundoff 4 z.toRat y) :
    0 ≤ y ∧ y ≤ 1 / 20 ∧ |z.toRat - y| ≤ 2 / 5 * ctx.roundoff := by
  have hpos := ctx.roundoff_pos
  have hsmall := roundoff_le hprecision
  have hsum : 0 < value.toRat + 1 := by linarith [hvalue.1]
  have hnonneg : 0 ≤ y := hy ▸ div_nonneg (by linarith [hvalue.1]) hsum.le
  have hupper : y ≤ 1 / 20 := by
    rw [hy, div_le_iff₀ hsum]
    linarith [hvalue.1, hvalue.2]
  have herror := hnear.abs_sub_le_mul hpos.le (by push_cast; linarith)
  rw [abs_of_nonneg hnonneg] at herror
  push_cast at herror
  exact ⟨hnonneg, hupper, by nlinarith⟩

theorem abs_logRatio_sub_log_le (hprecision : 8 ≤ ctx.precision)
    (hvalue : 1 ≤ value.toRat ∧ value.toRat ≤ 11 / 10)
    (hnear : Near ctx.roundoff 4 z.toRat ((value.toRat - 1) / (value.toRat + 1))) :
    |logRatio z.toRat - Real.log value.toRat| ≤ 16 / 5 * (ctx.roundoff : ℝ) := by
  obtain ⟨y, hy⟩ : ∃ y, y = (value.toRat - 1) / (value.toRat + 1) := ⟨_, rfl⟩
  rw [← hy] at hnear
  obtain ⟨hnonneg, hupper, hclose⟩ := abs_argument_sub_le hprecision hvalue hy hnear
  have hlog : logRatio (y : ℝ) = Real.log value.toRat := by
    rw [hy]
    push_cast
    exact logRatio_eq_log (by exact_mod_cast (by linarith [hvalue.1] : 0 < value.toRat))
  have hnonneg' : (0 : ℝ) ≤ y := by exact_mod_cast hnonneg
  have hupper' : (y : ℝ) ≤ ((1 / 20 : ℚ) : ℝ) := by exact_mod_cast hupper
  have hclose' : |(z.toRat : ℝ) - y| ≤ ((2 / 5 * ctx.roundoff : ℚ) : ℝ) := by exact_mod_cast hclose
  have hsmall : (ctx.roundoff : ℝ) ≤ ((1 / 1000 : ℚ) : ℝ) := by exact_mod_cast roundoff_le hprecision
  push_cast at hupper' hclose' hsmall
  rw [← hlog]
  refine (abs_logRatio_sub_logRatio_le ?_ (by linarith)).trans (by linarith)
  rw [abs_of_nonneg hnonneg']
  linarith

/-- Five roots take back an error at most thirty-two times. -/
theorem abs_scaled_sub_le {count : Nat} {a b c δ ε : ℝ} (hcount : count ≤ 5) (hab : |a - b| ≤ δ)
    (hbc : |2 ^ count * b - c| ≤ ε) : |2 ^ count * a - c| ≤ 32 * δ + ε := by
  have hpow : (2 : ℝ) ^ count ≤ 32 := by
    calc (2 : ℝ) ^ count ≤ 2 ^ 5 := pow_le_pow_right₀ (by norm_num) hcount
      _ = 32 := by norm_num
  calc |2 ^ count * a - c| ≤ |2 ^ count * a - 2 ^ count * b| + |2 ^ count * b - c| :=
        abs_sub_le _ _ _
    _ ≤ 32 * δ + ε := by
        rw [← mul_sub, abs_mul, abs_of_pos (show (0 : ℝ) < 2 ^ count by positivity)]
        exact add_le_add (mul_le_mul hpow hab (abs_nonneg _) (by norm_num)) hbc

/-- The roots and the quotient cost a fixed number of roundings, where the roots are at most five. -/
theorem abs_log_argument_sub_le {count : Nat} (hprecision : 8 ≤ ctx.precision)
    (hrooted : ctx.Rooted m count value) (hcount : count ≤ 5) (hupper : value.toRat ≤ 11 / 10)
    (hnear : Near ctx.roundoff 4 z.toRat ((value.toRat - 1) / (value.toRat + 1))) :
    |2 ^ count * logRatio z.toRat - Real.log m.toRat| ≤ 232 * (ctx.roundoff : ℝ) := by
  have hquotient := abs_logRatio_sub_log_le hprecision ⟨hrooted.one_le, hupper⟩ hnear
  have hpow : (2 : ℝ) ^ (count + 2) ≤ 128 := by
    calc (2 : ℝ) ^ (count + 2) ≤ 2 ^ 7 := pow_le_pow_right₀ (by norm_num) (by omega)
      _ = 128 := by norm_num
  have hpos : (0 : ℝ) < ctx.roundoff := by exact_mod_cast ctx.roundoff_pos
  calc |2 ^ count * logRatio z.toRat - Real.log m.toRat|
      ≤ 32 * (16 / 5 * (ctx.roundoff : ℝ)) + 2 ^ (count + 2) * (ctx.roundoff : ℝ) :=
        abs_scaled_sub_le hcount hquotient hrooted.log_near
    _ ≤ 32 * (16 / 5 * (ctx.roundoff : ℝ)) + 128 * (ctx.roundoff : ℝ) :=
        add_le_add_right (mul_le_mul_of_nonneg_right hpow hpos.le) _
    _ ≤ 232 * (ctx.roundoff : ℝ) := by linarith

/-! ## Numbers up to ten -/

theorem log_ten_bounds : 2 ≤ Real.log 10 ∧ Real.log 10 ≤ 14 / 5 := by
  have height := Real.log_le_log (by norm_num) (show (2 : ℝ) ^ 3 ≤ 10 by norm_num)
  have hsixteen := Real.log_le_log (by norm_num) (show (10 : ℝ) ≤ 2 ^ 4 by norm_num)
  rw [Real.log_pow] at height hsixteen
  push_cast at height hsixteen
  constructor <;> linarith [Real.log_two_gt_d9, Real.log_two_lt_d9]

theorem log_bounds (hlower : 1 ≤ m.toRat) (hten : m.toRat ≤ 10) :
    0 ≤ Real.log m.toRat ∧ Real.log m.toRat ≤ 14 / 5 := by
  have hlower' : (1 : ℝ) ≤ m.toRat := by exact_mod_cast hlower
  have hten' : (m.toRat : ℝ) ≤ 10 := by exact_mod_cast hten
  exact ⟨Real.log_nonneg hlower', (Real.log_le_log (by linarith) hten').trans log_ten_bounds.2⟩

/-- The sum times the power of two that the roots have taken off, before it is rounded. -/
theorem abs_exact_multiple_sub_le {count : Nat} {sum : Decimal} (hcount : count ≤ 5)
    (hargument : |2 ^ count * logRatio z.toRat - Real.log m.toRat| ≤ 232 * (ctx.roundoff : ℝ))
    (hsum : |(2 * sum.toRat : ℚ) - logRatio z.toRat| ≤
      (((ctx.precision + 2 : Nat) : ℚ) * ctx.roundoff / 4 : ℚ)) :
    |((sum.toRat * (Nat.pow 2 (count + 1) : Int) : ℚ) : ℝ) - Real.log m.toRat| ≤
      ((8 * ctx.precision + 248) * ctx.roundoff : ℚ) := by
  have hfactor : ((sum.toRat * (Nat.pow 2 (count + 1) : Int) : ℚ) : ℝ) =
      2 ^ count * (2 * sum.toRat : ℚ) := by
    rw [Nat.pow_eq]
    push_cast
    ring
  rw [hfactor]
  refine (abs_scaled_sub_le hcount hsum hargument).trans_eq ?_
  push_cast
  ring

theorem abs_multiple_sub_le {count : Nat} {sum : Decimal} (hprecision : 8 ≤ ctx.precision)
    (hcount : count ≤ 5) (hm : 1 ≤ m.toRat ∧ m.toRat ≤ 10)
    (hargument : |2 ^ count * logRatio z.toRat - Real.log m.toRat| ≤ 232 * (ctx.roundoff : ℝ))
    (hsum : |(2 * sum.toRat : ℚ) - logRatio z.toRat| ≤
      (((ctx.precision + 2 : Nat) : ℚ) * ctx.roundoff / 4 : ℚ)) :
    |((ctx.mul sum (ofNat (Nat.pow 2 (count + 1)))).toRat : ℝ) - Real.log m.toRat| ≤
      ((8 * ctx.precision + 251 : ℚ) * ctx.roundoff : ℚ) := by
  have hpos := ctx.roundoff_pos
  obtain ⟨hlog, hlogUpper⟩ := log_bounds hm.1 hm.2
  have hexact := abs_exact_multiple_sub_le hcount hargument hsum
  obtain ⟨q, hq⟩ : ∃ q : ℚ, q = sum.toRat * (Nat.pow 2 (count + 1) : Int) := ⟨_, rfl⟩
  rw [← hq] at hexact
  have hsize : |q| ≤ 3 := by
    have hslack : ((8 * ctx.precision + 248) * ctx.roundoff : ℚ) ≤ 1 / 1000 := by
      linarith [digits_mul_roundoff_le hprecision]
    have hslack' : |(q : ℝ) - Real.log m.toRat| ≤ ((1 / 1000 : ℚ) : ℝ) :=
      hexact.trans (by exact_mod_cast hslack)
    have htriangle := abs_sub_abs_le_abs_sub (q : ℝ) (Real.log m.toRat)
    rw [abs_of_nonneg hlog] at htriangle
    have hreal : |(q : ℝ)| ≤ ((3 : ℚ) : ℝ) := by
      push_cast at hslack' ⊢
      linarith
    exact_mod_cast hreal
  have hrounded : |(ctx.mul sum (ofNat (Nat.pow 2 (count + 1)))).toRat - q| ≤ 3 * ctx.roundoff := by
    rw [hq] at hsize ⊢
    exact ctx.abs_mul_ofInt_sub_le hsize (by norm_num)
  have hrounded' : |((ctx.mul sum (ofNat (Nat.pow 2 (count + 1)))).toRat : ℝ) - q| ≤
      ((3 * ctx.roundoff : ℚ) : ℝ) := by
    exact_mod_cast hrounded
  refine (abs_sub_le _ (q : ℝ) _).trans ((add_le_add hrounded' hexact).trans_eq ?_)
  push_cast
  ring

/-- An argument that does not come out as zero is one that the series is summed for. -/
theorem regular_argument {z : Decimal} (hprecision : 8 ≤ ctx.precision)
    (hwithin : value.Within (ctx.precision + m.digitCount + 1))
    (h : ctx.Roomy (56 * ctx.precision + 48 * m.digitCount + 161))
    (hvalue : 1 ≤ value.toRat ∧ value.toRat ≤ 11 / 10)
    (hz : ctx.div (ctx.sub value 1) (ctx.add value 1) = .ok z) (hzero : z.isZero ≠ true) :
    Atanh.Regular ctx z (14 * ctx.precision + 12 * m.digitCount + 40) := by
  obtain ⟨z', hz', hsize, hdigits, hleast⟩ :=
    atanh_argument_bounds hwithin (h.mono (by omega) (by omega)) (by omega) hvalue
  obtain rfl : z = z' := Except.ok.inj (hz.symm.trans hz')
  have hleast := hleast.resolve_left hzero
  have hnonneg := argument_nonneg hvalue.1 hz
  rw [abs_of_nonneg hnonneg, zpow_neg_one, ← one_div] at hsize
  refine ⟨hprecision, h.mono (by omega) (by omega), hdigits, ?_, hsize, ?_⟩
  · exact hnonneg.lt_of_ne' fun h0 => hzero (isZero_iff.2 h0)
  · push_cast at hleast ⊢
    omega

/-- The logarithm of a number up to ten, with what it costs. -/
theorem lnUpToTen_near (hm : Traced.Leading m) (hten : m.toRat ≤ 10) (hprecision : 4 ≤ ctx.precision)
    (h : ctx.Roomy (60 * (ctx.precision + m.digitCount + 10))) :
    Succeeds (ctx.lnUpToTen m) fun y => |(y.toRat : ℝ) - Real.log m.toRat| ≤
      ((8 * ctx.precision + 283 : ℚ) * (ctx.wider 4).roundoff : ℚ) := by
  have hwide : (ctx.wider 4).precision = ctx.precision + 4 := rfl
  have hroom := h.room
  have hpos := (ctx.wider 4).roundoff_pos
  obtain ⟨value, count, z, hrooting, hz, hrest⟩ :=
    lnUpToTen_ends hm (h.mono (by omega) (by omega))
  obtain ⟨hrooted, hupper⟩ := rooted_of_ends hm (by omega)
    ⟨by omega, by rw [hwide]; push_cast at hroom ⊢; omega⟩ hrooting
  have hwithin : value.Within ((ctx.wider 4).precision + m.digitCount + 1) :=
    within_of_pos 1 hrooted.digits (by linarith [hrooted.one_le]) (by linarith)
  have hargumentRoom : (ctx.wider 4).Roomy (6 * ((ctx.wider 4).precision + m.digitCount + 1) + 10) :=
    ⟨by omega, by rw [hwide]; push_cast at hroom ⊢; omega⟩
  have hnear := atanh_argument_near (by omega) hwithin hargumentRoom (by omega) hrooted.one_le hz
  have hcount := (hrooted.bound hten).1
  have hargument := abs_log_argument_sub_le (by omega) hrooted hcount hupper hnear
  -- the roots may have reached one, and then there is no series to sum
  split at hrest
  · next hzero =>
    rw [isZero_iff] at hzero
    rw [hzero, logRatio, Rat.cast_zero, add_zero, sub_zero, Real.log_one, sub_self, mul_zero]
      at hargument
    rw [← Rat.cast_zero, ← toRat_zero] at hargument
    refine ⟨0, hrest, hargument.trans ?_⟩
    have hle : 232 * (ctx.wider 4).roundoff ≤ (8 * ctx.precision + 283) * (ctx.wider 4).roundoff :=
      mul_le_mul_of_nonneg_right (by linarith [(Nat.cast_nonneg ctx.precision : (0 : ℚ) ≤ _)]) hpos.le
    exact_mod_cast hle
  · next hzero =>
    obtain ⟨sum, hsum, hresult⟩ := hrest
    have hregular := regular_argument (by omega) hwithin
      ⟨by omega, by rw [hwide]; push_cast at hroom ⊢; omega⟩ ⟨hrooted.one_le, hupper⟩ hz hzero
    refine ⟨_, hresult, ?_⟩
    have hmultiple := abs_multiple_sub_le (by omega) hcount ⟨hm.lower, hten⟩ hargument
      (Atanh.sum_near hregular hsum)
    rw [hwide] at hmultiple
    refine hmultiple.trans_eq ?_
    push_cast
    ring

/-! ### Signs -/

/-- The logarithm of a number from one on is not negative, and only that of one may be zero. -/
theorem lnUpToTen_sign (hm : Traced.Leading m)
    (h : ctx.Roomy (60 * (ctx.precision + m.digitCount + 10))) :
    Succeeds (ctx.lnUpToTen m) fun y => 0 ≤ y.toRat ∧ (1 < m.toRat → 0 < y.toRat) := by
  have hpos := ctx.precision_pos
  have hwide : (ctx.wider 4).precision = ctx.precision + 4 := rfl
  have hroom := h.room
  obtain ⟨value, count, z, hrooting, hz, hrest⟩ :=
    lnUpToTen_ends hm (h.mono (by omega) (by omega))
  obtain ⟨hrooted, -⟩ := rooted_of_ends hm (by omega)
    ⟨by omega, by rw [hwide]; push_cast at hroom ⊢; omega⟩ hrooting
  split at hrest
  · next hzero =>
    refine ⟨0, hrest, toRat_zero.ge, fun hlarge => ?_⟩
    have hargument := argument_pos (hrooted.strict hlarge) hz
    exact absurd (isZero_iff.1 hzero) hargument.ne'
  · next hzero =>
    obtain ⟨sum, hsum, hresult⟩ := hrest
    have hargument : 0 < z.toRat :=
      (argument_nonneg hrooted.one_le hz).lt_of_ne' fun h0 => hzero (isZero_iff.2 h0)
    have hproduct : 0 < ((ctx.wider 4).mul sum (ofNat (Nat.pow 2 (count + 1)))).toRat := by
      refine toRat_mul_pos (Atanh.sum_pos hargument hsum) ?_
      rw [toRat_ofNat, Nat.pow_eq]
      positivity
    exact ⟨_, hresult, hproduct.le, fun _ => hproduct⟩

end Context

end Reckoner
