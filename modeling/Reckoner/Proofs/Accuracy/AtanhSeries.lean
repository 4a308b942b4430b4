import Mathlib.Analysis.SpecialFunctions.Log.Deriv
import Reckoner.Proofs.Accuracy.SeriesSums
import Reckoner.Proofs.Loops.Exponentials

/-!
# The series of the inverse hyperbolic tangent

Twice its sum is the logarithm of a ratio. For arguments up to a tenth the terms fall so fast that a
pass costs less than an eighth of the roundoff.
-/

namespace Reckoner

open Integer Decimal

/-! ## Exact sums -/

def atanhTerm (z : ℚ) (k : Nat) : ℚ := z ^ (2 * k + 1) / (2 * k + 1)

def atanhSum (z : ℚ) (n : Nat) : ℚ := ∑ k ∈ Finset.range n, atanhTerm z k

/-- Twice the inverse hyperbolic tangent. -/
noncomputable def logRatio (z : ℝ) : ℝ := Real.log (1 + z) - Real.log (1 - z)

section Exact

variable {z : ℚ} {n : Nat}

theorem atanhSum_succ (z : ℚ) (n : Nat) : atanhSum z (n + 1) = atanhSum z n + atanhTerm z n :=
  Finset.sum_range_succ _ n

theorem atanhTerm_nonneg (hz : 0 ≤ z) (k : Nat) : 0 ≤ atanhTerm z k :=
  div_nonneg (pow_nonneg hz _) (by positivity)

theorem hasSum_logRatio (hz : |z| < 1) :
    HasSum (fun k => ((2 * atanhTerm z k : ℚ) : ℝ)) (logRatio z) := by
  have hreal : |(z : ℝ)| < 1 := by exact_mod_cast hz
  refine (Real.hasSum_log_sub_log_of_abs_lt_one hreal).congr_fun fun k => ?_
  unfold atanhTerm
  push_cast
  ring

theorem logRatio_le {y : ℝ} (hy : 0 ≤ y) (hten : y ≤ 1 / 10) : logRatio y ≤ 2 / 9 := by
  have hminus : 0 < 1 - y := by linarith
  have hlog := Real.log_le_sub_one_of_pos (div_pos (show 0 < 1 + y by linarith) hminus)
  rw [Real.log_div (by linarith) hminus.ne', div_sub_one hminus.ne'] at hlog
  refine hlog.trans ((div_le_iff₀ hminus).2 ?_)
  linarith

theorem atanhSum_bounds (hz : 0 ≤ z) (hten : z ≤ 1 / 10) (n : Nat) :
    0 ≤ atanhSum z n ∧ atanhSum z n ≤ 1 / 9 := by
  refine ⟨Finset.sum_nonneg fun k _ => atanhTerm_nonneg hz k, ?_⟩
  have hsum := hasSum_logRatio (show |z| < 1 by rw [abs_of_nonneg hz]; linarith)
  have hle := sum_le_hasSum (Finset.range n) (fun k _ => by
    exact_mod_cast mul_nonneg zero_le_two (atanhTerm_nonneg hz k)) hsum
  have hratio : logRatio z ≤ 2 / 9 :=
    logRatio_le (by exact_mod_cast hz) (by
      have hreal : (z : ℝ) ≤ ((1 / 10 : ℚ) : ℝ) := by exact_mod_cast hten
      norm_num at hreal ⊢
      exact hreal)
  have htwice : ((2 * atanhSum z n : ℚ) : ℝ) ≤ ((2 / 9 : ℚ) : ℝ) := by
    rw [atanhSum, Finset.mul_sum, Rat.cast_sum]
    refine hle.trans (hratio.trans_eq ?_)
    norm_num
  have htwice' : 2 * atanhSum z n ≤ 2 / 9 := by exact_mod_cast htwice
  linarith

/-- From any term on, each is at most half the one before. -/
theorem atanhTerm_add_le (hz : 0 ≤ z) (hhalf : z ≤ 1 / 2) (n i : Nat) :
    atanhTerm z (i + n) ≤ atanhTerm z n * (1 / 2) ^ i := by
  have hsquare : z ^ 2 ≤ 1 / 2 := by nlinarith
  have hpow : z ^ (2 * (i + n) + 1) = z ^ (2 * n + 1) * (z ^ 2) ^ i := by ring
  rw [atanhTerm, atanhTerm, hpow, div_mul_eq_mul_div]
  have hdivisor : (2 * (n : ℚ) + 1) ≤ 2 * ((i + n : Nat) : ℚ) + 1 := by
    push_cast
    linarith [(Nat.cast_nonneg i : (0 : ℚ) ≤ i)]
  refine div_le_div₀ (by positivity) ?_ (by positivity) hdivisor
  exact mul_le_mul_of_nonneg_left (pow_le_pow_left₀ (sq_nonneg z) hsquare i) (by positivity)

theorem abs_logRatio_sub_le (hz : 0 ≤ z) (hten : z ≤ 1 / 10) (n : Nat) :
    |logRatio z - (2 * atanhSum z n : ℚ)| ≤ (4 * atanhTerm z n : ℚ) := by
  have hsum := hasSum_logRatio (show |z| < 1 by rw [abs_of_nonneg hz]; linarith)
  have htail := (hasSum_nat_add_iff' n).2 hsum
  have hbound := hasSum_geometric_two.mul_left ((2 * atanhTerm z n : ℚ) : ℝ)
  have hpartial : ((2 * atanhSum z n : ℚ) : ℝ) =
      ∑ k ∈ Finset.range n, ((2 * atanhTerm z k : ℚ) : ℝ) := by
    rw [atanhSum, Finset.mul_sum, Rat.cast_sum]
  rw [← hpartial] at htail
  refine (htail.norm_le_of_bounded hbound fun i => ?_).trans_eq (by push_cast; ring)
  have hterm := atanhTerm_add_le hz (by linarith) n i
  have hle : 2 * atanhTerm z (i + n) ≤ 2 * atanhTerm z n * (1 / 2) ^ i := by linarith
  rw [Real.norm_eq_abs, abs_of_nonneg (by
    exact_mod_cast mul_nonneg zero_le_two (atanhTerm_nonneg hz (i + n)))]
  calc ((2 * atanhTerm z (i + n) : ℚ) : ℝ)
      ≤ ((2 * atanhTerm z n * (1 / 2) ^ i : ℚ) : ℝ) := by exact_mod_cast hle
    _ = ((2 * atanhTerm z n : ℚ) : ℝ) * (1 / 2) ^ i := by push_cast; rfl

end Exact

/-! ## Computed sums -/

namespace Atanh

variable {ctx : Context} {z power sum term y : Decimal} {n i passes : Nat}

/-- A small positive argument, with the room that the powers in its series take. -/
structure Regular (ctx : Context) (z : Decimal) (n : Nat) : Prop where
  precision : 8 ≤ ctx.precision
  roomy : ctx.Roomy (4 * n + 1)
  digits : z.digitCount ≤ ctx.precision
  pos : 0 < z.toRat
  upper : z.toRat ≤ 1 / 10
  places : 2 * ctx.precision + 2 - 2 * z.exponent ≤ n

/-- What is known before each pass. -/
structure Follows (ctx : Context) (z : Decimal) (n i : Nat) (power sum : Decimal) : Prop where
  within : power.Within n
  near : Near ctx.roundoff (2 * i) power.toRat (z.toRat ^ (2 * i + 1))
  sum_near : |sum.toRat - atanhSum z.toRat (i + 1)| ≤ i * ctx.roundoff / 8

theorem Regular.pow_exponent_le (h : Regular ctx z n) : (10 : ℚ) ^ z.exponent ≤ z.toRat := by
  rw [← abs_of_pos h.pos]
  exact pow_exponent_le_abs fun h0 => h.pos.ne' (toRat_eq_zero.2 h0)

theorem Regular.exponent_neg (h : Regular ctx z n) : z.exponent ≤ -1 := by
  refine (zpow_le_zpow_iff_right₀ (show (1 : ℚ) < 10 by norm_num)).1 ?_
  rw [zpow_neg_one, ← one_div]
  exact h.pow_exponent_le.trans h.upper

theorem Regular.within_of_bounds (h : Regular ctx z n) (hdigits : y.digitCount ≤ ctx.precision)
    (hlower : (10 : ℚ) ^ (2 * z.exponent - ctx.precision - 2) ≤ |y.toRat|) (hupper : |y.toRat| ≤ 1) :
    y.Within n := by
  have hexponent := h.exponent_neg
  have hplaces := h.places
  obtain ⟨places, hequal⟩ := Int.eq_ofNat_of_zero_le
    (show 0 ≤ ctx.precision + 2 - 2 * z.exponent by omega)
  refine (Decimal.within_of_bounds places hdigits ?_ ?_).mono (by omega)
  · rwa [← hequal, show -(ctx.precision + 2 - 2 * z.exponent) = 2 * z.exponent - ctx.precision - 2 by
      ring]
  · exact hupper.trans (one_le_zpow₀ (by norm_num) (Int.natCast_nonneg places))

theorem Regular.abs_le_one (h : Regular ctx z n) : |z.toRat| ≤ 1 := by
  rw [abs_of_pos h.pos]
  linarith [h.upper]

theorem Regular.within (h : Regular ctx z n) : z.Within n := by
  have hexponent := h.exponent_neg
  refine h.within_of_bounds h.digits ?_ h.abs_le_one
  rw [abs_of_pos h.pos]
  exact (zpow_le_zpow_right₀ (by norm_num) (by omega)).trans h.pow_exponent_le

theorem Regular.roomy_within (h : Regular ctx z n) : ctx.Roomy n := by
  have hplaces := h.places
  have hexponent := h.exponent_neg
  exact h.roomy.mono (by omega) (by omega)

theorem Regular.square (h : Regular ctx z n) :
    (ctx.mul z z).Within n ∧ Near ctx.roundoff 1 (ctx.mul z z).toRat (z.toRat ^ 2) := by
  have hpos := ctx.precision_pos
  have hfits := (Context.mul_of_within h.within h.within h.roomy_within).1
  have hnear := Context.near_mul hfits (Near.refl ctx.roundoff _) (Near.refl ctx.roundoff _)
  rw [← sq, add_zero, add_zero] at hnear
  refine ⟨h.within_of_bounds Context.digitCount_mul_le ?_ ?_, hnear⟩ <;> rw [Context.value_mul hfits]
  · refine (Rounding.short_pow hpos _).le_abs_significant hpos ?_
    rw [abs_mul_self]
    refine (zpow_le_zpow_right₀ (by norm_num) (show _ ≤ z.exponent + z.exponent by omega)).trans ?_
    rw [zpow_add₀ (by norm_num)]
    exact mul_le_mul h.pow_exponent_le h.pow_exponent_le (by positivity) h.pos.le
  · refine Context.abs_rounded_le (Rounding.short_one hpos) ?_
    rw [abs_mul]
    exact mul_le_one₀ h.abs_le_one (abs_nonneg _) h.abs_le_one

theorem Regular.errors_le (h : Regular ctx z n) {k : Nat} (hk : k ≤ 2 * ctx.precision + 7) :
    k * ctx.roundoff ≤ 1 / 1000 :=
  Context.count_mul_roundoff_le h.precision (by omega)

/-! ### One pass -/

theorem next_power (h : Regular ctx z n) (hfollows : Follows ctx z n i power sum) :
    (ctx.mul power (ctx.mul z z)).Within (4 * n + 1) ∧
      Near ctx.roundoff (2 * (i + 1)) (ctx.mul power (ctx.mul z z)).toRat
        (z.toRat ^ (2 * (i + 1) + 1)) := by
  obtain ⟨hsquareWithin, hsquare⟩ := h.square
  obtain ⟨hfits, hwithin⟩ := Context.mul_of_within hfollows.within hsquareWithin h.roomy_within
  have hnear := Context.near_mul hfits hfollows.near hsquare
  rw [← pow_add, show 2 * i + 1 + 2 = 2 * (i + 1) + 1 by ring,
    show 1 + (2 * i + 1) = 2 * (i + 1) by ring] at hnear
  exact ⟨hwithin, hnear⟩

theorem next_term (h : Regular ctx z n) (hi : i ≤ ctx.precision + 1)
    (hwithin : power.Within (4 * n + 1))
    (hnear : Near ctx.roundoff (2 * (i + 1)) power.toRat (z.toRat ^ (2 * (i + 1) + 1))) :
    Succeeds (ctx.div power (ofNat (2 * (i + 1) + 1))) fun term =>
      Near ctx.roundoff (2 * i + 3) term.toRat (atanhTerm z.toRat (i + 1)) := by
  have hdivisor : (ofNat (2 * (i + 1) + 1)).Within (4 * n + 1) := by
    have hprecision := h.precision
    have hplaces := h.places
    have hexponent := h.exponent_neg
    refine within_ofNat (by omega) (lt_of_lt_of_le (b := 2 ^ (4 * n + 1)) ?_ ?_)
    · exact (show 2 * (i + 1) + 1 ≤ 4 * n + 1 by omega).trans_lt Nat.lt_two_pow_self
    · exact Nat.pow_le_pow_left (by decide) _
  have hfits := Context.fits_div hwithin hdivisor h.roomy
  obtain ⟨term, hterm, -⟩ : IsDefined (ctx.div power (ofNat (2 * (i + 1) + 1))) :=
    Context.div_ofNat_isDefined (by omega)
  have hquotient := Context.near_div_ofNat hfits hterm hnear
  rw [show 1 + 2 * (i + 1) = 2 * i + 3 by ring] at hquotient
  refine ⟨term, hterm, ?_⟩
  convert hquotient using 1
  rw [atanhTerm]
  push_cast
  rfl

/-- The index divides the error of a term, which has grown with it. -/
theorem abs_term_sub_le (h : Regular ctx z n) (hi : i ≤ ctx.precision + 1) {q : ℚ}
    (hnear : Near ctx.roundoff (2 * i + 3) q (atanhTerm z.toRat (i + 1))) :
    |q - atanhTerm z.toRat (i + 1)| ≤ ctx.roundoff / 500 := by
  have hpos := ctx.roundoff_pos
  have hsmall := h.errors_le (k := 2 * i + 3) (by omega)
  have herror := hnear.abs_sub_le_mul hpos.le (by linarith)
  have hpower : z.toRat ^ (2 * (i + 1) + 1) ≤ 1 / 1000 := by
    calc z.toRat ^ (2 * (i + 1) + 1) ≤ z.toRat ^ 3 :=
          pow_le_pow_of_le_one h.pos.le (by linarith [h.upper]) (by omega)
      _ ≤ (1 / 10) ^ 3 := pow_le_pow_left₀ h.pos.le h.upper 3
      _ = 1 / 1000 := by norm_num
  calc |q - atanhTerm z.toRat (i + 1)|
      ≤ 2 * ((2 * i + 3 : Nat) * ctx.roundoff) * |atanhTerm z.toRat (i + 1)| := herror
    _ = 2 * ctx.roundoff * z.toRat ^ (2 * (i + 1) + 1) := by
        rw [abs_of_nonneg (atanhTerm_nonneg h.pos.le _), atanhTerm]
        push_cast
        field_simp
        ring
    _ ≤ ctx.roundoff / 500 := by nlinarith

/-- A sum that has been followed is within the room of the passes that are left. -/
theorem Follows.add (h : Regular ctx z n) (hi : i ≤ ctx.precision + 1)
    (hfollows : Follows ctx z n i power sum)
    (hnear : Near ctx.roundoff (2 * i + 3) term.toRat (atanhTerm z.toRat (i + 1))) :
    |(ctx.add sum term).toRat - atanhSum z.toRat (i + 2)| ≤
      ((i + 1 : Nat) : ℚ) * ctx.roundoff / 8 := by
  have hpos := ctx.roundoff_pos
  have hterm := abs_term_sub_le h hi hnear
  have hpasses := h.errors_le (k := i) (by omega)
  have hone := h.errors_le (k := 1) (by omega)
  rw [Nat.cast_one, one_mul] at hone
  obtain ⟨hsumLower, hsumUpper⟩ := atanhSum_bounds h.pos.le h.upper (i + 1)
  obtain ⟨hnextLower, hnextUpper⟩ := atanhSum_bounds h.pos.le h.upper (i + 2)
  have htermNonneg := atanhTerm_nonneg h.pos.le (i + 1)
  have hsucc := atanhSum_succ z.toRat (i + 1)
  have hadd := ctx.abs_add_sub_le_of_size 0 hfollows.sum_near hterm
    (by rw [abs_of_nonneg hsumLower]; linarith) (by rw [abs_of_nonneg htermNonneg]; linarith)
    (by decide)
  rw [← hsucc, abs_of_nonneg hnextLower] at hadd
  have hrest : atanhSum z.toRat (i + 1 + 1) + (i * ctx.roundoff / 8 + ctx.roundoff / 500) ≤
      1 / 8 - 1 / 500 := by linarith
  have hshare := mul_le_mul_of_nonneg_left hrest hpos.le
  push_cast
  linarith

/-- Where the first term left out is negligible, so is the rest of the series. -/
theorem Follows.result_near (h : Regular ctx z n) (hi : i ≤ ctx.precision + 1)
    (hfollows : Follows ctx z n i power sum)
    (hnear : Near ctx.roundoff (2 * i + 3) term.toRat (atanhTerm z.toRat (i + 1)))
    (hnegligible : ctx.isNegligible term z = true) :
    |(2 * sum.toRat : ℚ) - logRatio z.toRat| ≤ ((i + 1 : Nat) * ctx.roundoff / 4 : ℚ) := by
  have hpos := ctx.roundoff_pos
  have hexponent := h.exponent_neg
  have hlast := Context.abs_le_of_isNegligible hnegligible (by omega)
  have hterm : atanhTerm z.toRat (i + 1) ≤ ctx.roundoff / 50 := by
    have hsmall := h.errors_le (k := 2 * i + 3) (by omega)
    have hhalf := half_abs_le (by linarith) (hnear.abs_sub_le_mul hpos.le (by linarith))
    rw [abs_of_nonneg (atanhTerm_nonneg h.pos.le _)] at hhalf
    linarith
  -- the terms fall like powers, so all that are left out are within twice the first of them
  have htail := abs_logRatio_sub_le h.pos.le h.upper (i + 1)
  have htail' : |logRatio z.toRat - (2 * atanhSum z.toRat (i + 1) : ℚ)| ≤
      (ctx.roundoff * 2 / 25 : ℚ) := by
    refine htail.trans ?_
    exact_mod_cast (by linarith : 4 * atanhTerm z.toRat (i + 1) ≤ ctx.roundoff * 2 / 25)
  have hsum : |((2 * sum.toRat : ℚ) : ℝ) - (2 * atanhSum z.toRat (i + 1) : ℚ)| ≤
      (i * ctx.roundoff / 4 : ℚ) := by
    have htwice : |2 * sum.toRat - 2 * atanhSum z.toRat (i + 1)| ≤ i * ctx.roundoff / 4 := by
      rw [← mul_sub, abs_mul, abs_two]
      linarith [hfollows.sum_near]
    exact_mod_cast htwice
  have hbudget : (i * ctx.roundoff / 4 : ℚ) + (ctx.roundoff * 2 / 25 : ℚ) ≤
      ((i + 1 : Nat) * ctx.roundoff / 4 : ℚ) := by
    push_cast
    linarith
  have htriangle := abs_sub_le ((2 * sum.toRat : ℚ) : ℝ) (2 * atanhSum z.toRat (i + 1) : ℚ)
    (logRatio z.toRat)
  rw [abs_sub_comm ((2 * atanhSum z.toRat (i + 1) : ℚ) : ℝ)] at htriangle
  refine htriangle.trans ((add_le_add hsum htail').trans ?_)
  exact_mod_cast hbudget

/-! ### Whole runs -/

theorem follows_first (h : Regular ctx z n) : Follows ctx z n 0 z z where
  within := h.within
  near := by
    rw [mul_zero, zero_add, pow_one]
    exact .refl _ _
  sum_near := by simp [atanhSum, atanhTerm]

/-- A power whose term counts is not a speck. -/
theorem le_abs_of_counts (h : Regular ctx z n) (hi : i ≤ ctx.precision + 1)
    (hpower : Near ctx.roundoff (2 * (i + 1)) power.toRat (z.toRat ^ (2 * (i + 1) + 1)))
    (hterm : Near ctx.roundoff (2 * i + 3) term.toRat (atanhTerm z.toRat (i + 1)))
    (hcounts : ¬ ctx.isNegligible term z = true) :
    (10 : ℚ) ^ (2 * z.exponent - ctx.precision - 2) ≤ |power.toRat| := by
  have hroom := h.roomy.room
  have hexponent := h.exponent_neg
  have hplaces := h.places
  have hpos := ctx.roundoff_pos
  -- a term that counts reaches the last place that is kept, and its power is no smaller
  have hlower : (10 : ℚ) ^ (z.exponent - ctx.precision) ≤ |term.toRat| := by
    obtain ⟨hne, hscale⟩ := Context.scale_le_of_not_isNegligible (by omega) hcounts
    exact (zpow_le_zpow_right₀ (by norm_num) (by omega)).trans (pow_le_abs_toRat hne)
  have hupper : |term.toRat| ≤ 2 * atanhTerm z.toRat (i + 1) := by
    have hsmall := h.errors_le (k := 2 * i + 3) (by omega)
    have herror := hterm.abs_sub_le_mul hpos.le (by linarith)
    have hnonneg := atanhTerm_nonneg h.pos.le (i + 1)
    have htriangle := abs_sub_abs_le_abs_sub term.toRat (atanhTerm z.toRat (i + 1))
    rw [abs_of_nonneg hnonneg] at herror htriangle
    nlinarith
  have hshare : atanhTerm z.toRat (i + 1) ≤ z.toRat ^ (2 * (i + 1) + 1) := by
    refine div_le_self (pow_nonneg h.pos.le _) ?_
    linarith [(Nat.cast_nonneg (i + 1) : (0 : ℚ) ≤ (i + 1 : Nat))]
  have hhalf : z.toRat ^ (2 * (i + 1) + 1) / 2 ≤ |power.toRat| := by
    have hsmall := h.errors_le (k := 2 * (i + 1)) (by omega)
    have hkept := half_abs_le (by linarith) (hpower.abs_sub_le_mul hpos.le (by linarith))
    rwa [abs_of_nonneg (pow_nonneg h.pos.le _)] at hkept
  have hunit : (0 : ℚ) < 10 ^ (z.exponent - ctx.precision) := by positivity
  calc (10 : ℚ) ^ (2 * z.exponent - ctx.precision - 2)
      ≤ 10 ^ (z.exponent - ctx.precision - 1) := zpow_le_zpow_right₀ (by norm_num) (by omega)
    _ = 10 ^ (z.exponent - ctx.precision) / 10 := zpow_sub_one₀ (by norm_num) _
    _ ≤ |power.toRat| := by linarith

theorem Follows.step (h : Regular ctx z n) (hi : i ≤ ctx.precision + 1)
    (hfollows : Follows ctx z n i power sum)
    (hpower : Near ctx.roundoff (2 * (i + 1)) (ctx.mul power (ctx.mul z z)).toRat
      (z.toRat ^ (2 * (i + 1) + 1)))
    (hterm : Near ctx.roundoff (2 * i + 3) term.toRat (atanhTerm z.toRat (i + 1)))
    (hcounts : ¬ ctx.isNegligible term z = true) :
    Follows ctx z n (i + 1) (ctx.mul power (ctx.mul z z)) (ctx.add sum term) where
  within := by
    refine h.within_of_bounds Context.digitCount_mul_le (le_abs_of_counts h hi hpower hterm hcounts)
      ?_
    have hsmall := h.errors_le (k := 2 * (i + 1)) (by omega)
    have herror := hpower.abs_sub_le_mul ctx.roundoff_pos.le (by linarith)
    have htriangle := abs_sub_abs_le_abs_sub (ctx.mul power (ctx.mul z z)).toRat
      (z.toRat ^ (2 * (i + 1) + 1))
    have htenth : |z.toRat ^ (2 * (i + 1) + 1)| ≤ 1 / 10 := by
      rw [abs_of_nonneg (pow_nonneg h.pos.le _)]
      exact (pow_le_of_le_one h.pos.le (by linarith [h.upper]) (by omega)).trans h.upper
    nlinarith [abs_nonneg (z.toRat ^ (2 * (i + 1) + 1))]
  near := hpower
  sum_near := hfollows.add h hi hterm

/-- No more passes than digits, and two. -/
theorem Regular.ends (h : Regular ctx z n) :
    ∃ sum, EndsWithin (ctx.seriesPass (ctx.atanhSeries z)) (ctx.precision + 2) (1, z, z) sum := by
  have hroom := h.roomy.room
  have hplaces := h.places
  have hexponent := h.exponent_neg
  have hspacious : ctx.Spacious ctx.precision (z.exponent - ctx.precision) :=
    ⟨le_rfl, by push_cast at hroom; omega⟩
  have htenth : |z.toRat| ≤ 10 ^ (-1 : Int) := by
    rw [abs_of_pos h.pos, zpow_neg_one, ← one_div]
    exact h.upper
  have hfirst : |z.toRat| ≤ 10 ^ (z.exponent + (1 : Nat)) :=
    (abs_toRat_lt_exponent (hexponent.trans_lt (by decide))).le
  exact Context.series_ends
    (Context.atanhSeries_shrinks hspacious (by have := h.precision; omega) htenth h.digits)
    (fun _ => rfl) (by push_cast at hroom; omega) hfirst h.digits

/-- The computed sum is off by a quarter of the roundoff for each pass. -/
theorem sum_near (h : Regular ctx z n) {result : Decimal}
    (hends : EndsWithin (ctx.seriesPass (ctx.atanhSeries z)) passes (1, z, z) result) :
    |(2 * result.toRat : ℚ) - logRatio z.toRat| ≤
      (((ctx.precision + 2 : Nat) : ℚ) * ctx.roundoff / 4 : ℚ) := by
  obtain ⟨sum, hsum⟩ := h.ends
  obtain rfl := hends.unique hsum
  refine Context.sum_of_invariant (J := Follows ctx z n) (Q := fun sum =>
    |(2 * sum.toRat : ℚ) - logRatio z.toRat| ≤
      (((ctx.precision + 2 : Nat) : ℚ) * ctx.roundoff / 4 : ℚ)) hsum ?_ (follows_first h)
  intro i power sum hi hfollows
  obtain ⟨hwithin, hpower⟩ := next_power h hfollows
  obtain ⟨term, hterm, hnear⟩ := next_term h (by omega) hwithin hpower
  refine ⟨_, term, rfl, hterm, fun hnegligible => ?_,
    hfollows.step h (by omega) hpower hnear⟩
  refine (hfollows.result_near h (by omega) hnear hnegligible).trans ?_
  have hcount : ((i + 1 : Nat) : ℚ) ≤ (ctx.precision + 2 : Nat) := by exact_mod_cast (by omega)
  exact_mod_cast div_le_div_of_nonneg_right
    (mul_le_mul_of_nonneg_right hcount ctx.roundoff_pos.le) (by norm_num)

/-! ### Signs -/

/-- All terms of a positive number are positive, whatever becomes of their scales. -/
theorem sum_pos (hz : 0 < z.toRat) {result : Decimal}
    (hends : EndsWithin (ctx.seriesPass (ctx.atanhSeries z)) passes (1, z, z) result) :
    0 < result.toRat := by
  refine Context.sum_of_invariant (J := fun _ power sum => 0 < power.toRat ∧ 0 < sum.toRat)
    (Q := fun sum => 0 < sum.toRat) hends ?_ ⟨hz, hz⟩
  rintro i power sum - ⟨hpower, hsum⟩
  have hnext : 0 < (ctx.mul power (ctx.mul z z)).toRat :=
    Context.toRat_mul_pos hpower (Context.toRat_mul_pos hz hz)
  obtain ⟨term, hterm, hpos⟩ : Succeeds
      (ctx.div (ctx.mul power (ctx.mul z z)) (ofNat (2 * (i + 1) + 1))) fun term => 0 < term.toRat :=
    Context.toRat_div_pos (.inl ⟨hnext, by rw [toRat_ofNat]; positivity⟩)
  exact ⟨_, term, rfl, hterm, fun _ => hsum, fun _ =>
    ⟨hnext, Context.toRat_add_pos (add_pos hsum hpos)⟩⟩

end Atanh

end Reckoner
