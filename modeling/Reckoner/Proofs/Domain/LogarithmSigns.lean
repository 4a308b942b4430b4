import Reckoner.Proofs.Accuracy.Logarithms

/-!
# Signs of logarithms

The logarithm of a number below one is the difference of two logarithms of numbers from one to ten.
Next to one it is less than the errors of these two, and then they decide its sign.
-/

namespace Reckoner

open Integer Decimal

namespace Context

variable {ctx : Context} {x base result lnTen : Decimal}

/-- Numbers so close below one that the errors may decide the sign of the logarithm. -/
def NextBelowOne (ctx : Context) (x : Decimal) : Prop :=
  x.toRat < 1 ∧ 1 - x.toRat < (ctx.precision + 110) * 10 ^ (-(ctx.precision + 12 : Int))

/-! ## The two parts -/

/-- The context of the two logarithms, with the digits of the multiple. -/
def lnContext (ctx : Context) (x : Decimal) : Context :=
  ctx.guarded.wider (ofInt x.exponent).digitCount

/-- The logarithms of the leading digits and of ten. -/
structure LnParts (ctx : Context) (x result lnTen : Decimal) : Prop where
  leading : (ctx.lnContext x).lnUpToTen (x.movePoint (-x.exponent)) = .ok result
  ten : (ctx.lnContext x).lnUpToTen 10 = .ok lnTen

theorem ln_of_one (hone : x.toRat = 1) : ctx.ln x = .ok 0 := by
  have hpositive : x.isPositive = true := by
    rw [isPositive_iff, hone]
    exact one_pos
  rw [ln, if_neg (by simp [hpositive]), if_pos (sameValue_iff.2 (hone.trans toRat_one.symm))]

/-- What the two parts add up to. A number from one to ten has no use for the second. -/
def lnSum (ctx : Context) (x result lnTen : Decimal) : Decimal :=
  if x.exponent = 0 then result
  else (ctx.lnContext x).add result ((ctx.lnContext x).mul lnTen (ofInt x.exponent))

theorem ln_of_parts (hx : 0 < x.toRat) (hone : x.toRat ≠ 1) (h : ctx.LnParts x result lnTen) :
    ctx.ln x = .ok (ctx.round (ctx.lnSum x result lnTen)) := by
  have hsame : ¬ x.sameValue 1 = true := by rwa [sameValue_iff, toRat_one]
  have hleading := h.leading
  have hten := h.ten
  unfold lnSum lnContext at *
  rw [ln, if_neg (by simpa [isPositive_iff] using hx), if_neg hsame]
  simp only [hleading, hten, Traced.ok_bind]
  split <;> rfl

theorem lnContext_roomy (h : ctx.Ample x.digitCount 0) {m : Decimal}
    (hdigits : m.digitCount ≤ x.digitCount + 2) :
    (ctx.lnContext x).Roomy (60 * ((ctx.lnContext x).precision + m.digitCount + 10)) := by
  have hplaces := digitCount_exponent_le x
  have hwide : (ctx.lnContext x).precision =
      ctx.precision + 10 + (ofInt x.exponent).digitCount := rfl
  unfold Ample at h
  exact ⟨by omega, by push_cast [hwide]; omega⟩

theorem leading_of_ample (hx : 0 < x.toRat) (h : ctx.Ample x.digitCount 0) :
    Traced.Leading (x.movePoint (-x.exponent)) :=
  leading_of_positive (toRat_pos.1 hx) (by unfold Ample at h; omega)

/-- Neither part is negative. That of the leading digits is zero for a power of ten only. -/
theorem lnParts_succeed (hx : 0 < x.toRat) (h : ctx.Ample x.digitCount 0) :
    ∃ result lnTen, ctx.LnParts x result lnTen ∧ 0 ≤ result.toRat ∧
      (1 < (x.movePoint (-x.exponent)).toRat → 0 < result.toRat) ∧ 0 < lnTen.toRat := by
  obtain ⟨result, hresult, hnonneg, hstrict⟩ :=
    lnUpToTen_sign (leading_of_ample hx h) (lnContext_roomy h (Nat.le_add_right _ 2))
  obtain ⟨lnTen, hlnTen, -, hten⟩ :=
    lnUpToTen_sign leading_ten (lnContext_roomy h ((digitCount_pow 1).trans_le (by omega)))
  refine ⟨result, lnTen, ⟨hresult, hlnTen⟩, hnonneg, hstrict, hten ?_⟩
  rw [show (10 : Decimal).toRat = 10 from toRat_ofNat 10]
  norm_num

theorem toRat_leading (hx : 0 < x.unscaled) (hexponent : x.exponent ≤ 0) :
    (x.movePoint (-x.exponent)).toRat = x.toRat * 10 ^ (-x.exponent) := by
  refine Traced.toRat_movePoint_eq (Traced.fits_ofScaled.2 ?_)
  rw [sub_neg_eq_add]
  exact fits_scale_add_exponent hx.ne' (.inr hexponent)

/-! ## Numbers above one -/

theorem ln_pos (hx : 1 < x.toRat) (h : ctx.Ample x.digitCount 0) :
    Succeeds (ctx.ln x) fun y => 0 < y.toRat := by
  have hpos : 0 < x.toRat := by linarith
  obtain ⟨result, lnTen, hparts, hnonneg, hstrict, hten⟩ := lnParts_succeed hpos h
  refine ⟨_, ln_of_parts hpos hx.ne' hparts, sign_pos_iff.1 ?_⟩
  rw [sign_round, sign_pos_iff, lnSum]
  have hexponent : 0 ≤ x.exponent :=
    Decimal.le_exponent (by decide) (by rw [zpow_zero, abs_of_pos hpos]; exact hx.le)
  split
  · next hzero =>
    refine hstrict ?_
    rwa [toRat_leading (toRat_pos.1 hpos) hzero.le, hzero, neg_zero, zpow_zero, mul_one]
  · next hne =>
    have hmultiple : 0 < ((ctx.lnContext x).mul lnTen (ofInt x.exponent)).toRat := by
      refine toRat_mul_pos hten ?_
      rw [toRat_ofInt]
      exact_mod_cast hexponent.lt_of_ne' hne
    exact toRat_add_pos (by linarith)

/-! ## Numbers below one -/

/-- What each of the two parts is off by, at most. -/
def partError (ctx : Context) (x : Decimal) : ℚ :=
  (8 * (ctx.lnContext x).precision + 283) * ((ctx.lnContext x).wider 4).roundoff

theorem partError_le (ctx : Context) (x : Decimal) : ctx.partError x ≤ 1 / 1000 := by
  have hwide : ((ctx.lnContext x).wider 4).precision = (ctx.lnContext x).precision + 4 := rfl
  have hprecision : (ctx.lnContext x).precision =
      ctx.precision + 10 + (ofInt x.exponent).digitCount := rfl
  have hdigits := digits_mul_roundoff_le (show 8 ≤ ((ctx.lnContext x).wider 4).precision by omega)
  have hpos := ((ctx.lnContext x).wider 4).roundoff_pos
  rw [hwide] at hdigits
  push_cast at hdigits
  unfold partError
  linarith

/-- Either part is the real logarithm, up to that. -/
theorem part_near (h : ctx.Ample x.digitCount 0) {m : Decimal} (hm : Traced.Leading m)
    (hten : m.toRat ≤ 10) (hdigits : m.digitCount ≤ x.digitCount + 2)
    (hresult : (ctx.lnContext x).lnUpToTen m = .ok result) :
    |(result.toRat : ℝ) - Real.log m.toRat| ≤ ctx.partError x := by
  have hprecision : (ctx.lnContext x).precision =
      ctx.precision + 10 + (ofInt x.exponent).digitCount := rfl
  obtain ⟨result', hresult', hnear⟩ := lnUpToTen_near hm hten (by omega) (lnContext_roomy h hdigits)
  obtain rfl : result' = result := Except.ok.inj (hresult'.symm.trans hresult)
  exact hnear

theorem exponent_neg_of_lt_one (hx : 0 < x.toRat) (hless : x.toRat < 1) : x.exponent < 0 :=
  exponent_lt_of_abs_lt (toRat_pos.1 hx).ne' (by rwa [abs_of_pos hx, zpow_zero])

theorem leading_le_ten (hx : 0 < x.toRat) (hexponent : x.exponent < 0) :
    (x.movePoint (-x.exponent)).toRat ≤ 10 := by
  have hlt := abs_toRat_lt_exponent (hexponent.trans (by decide))
  rw [abs_of_pos hx, zpow_add_one₀ (by norm_num)] at hlt
  rw [toRat_leading (toRat_pos.1 hx) hexponent.le]
  calc x.toRat * 10 ^ (-x.exponent) ≤ 10 ^ x.exponent * 10 * 10 ^ (-x.exponent) :=
        mul_le_mul_of_nonneg_right hlt.le (by positivity)
    _ = 10 := by
        rw [mul_right_comm, ← zpow_add₀ (by norm_num), add_neg_cancel, zpow_zero, one_mul]

theorem log_leading (hx : 0 < x.toRat) (hexponent : x.exponent < 0) :
    Real.log (x.movePoint (-x.exponent)).toRat = Real.log x.toRat - x.exponent * Real.log 10 := by
  have hreal : (0 : ℝ) < x.toRat := by exact_mod_cast hx
  rw [toRat_leading (toRat_pos.1 hx) hexponent.le, Rat.cast_mul, Rat.cast_zpow, Rat.cast_ofNat,
    Real.log_mul hreal.ne' (zpow_pos (by norm_num) _).ne', Real.log_zpow]
  push_cast
  ring

/-- The two parts, with the logarithm that they add up to. -/
structure NearParts (ctx : Context) (x result lnTen : Decimal) : Prop where
  result_le : (result.toRat : ℝ) ≤ Real.log x.toRat - x.exponent * Real.log 10 + ctx.partError x
  result_lt_three : result.toRat < 3
  le_ten : Real.log 10 - ctx.partError x ≤ lnTen.toRat
  ten_bounds : 3 / 2 ≤ lnTen.toRat ∧ lnTen.toRat ≤ 3

theorem nearParts (hx : 0 < x.toRat) (hless : x.toRat < 1) (h : ctx.Ample x.digitCount 0)
    (hparts : ctx.LnParts x result lnTen) : ctx.NearParts x result lnTen := by
  have hexponent := exponent_neg_of_lt_one hx hless
  have hleading := leading_of_ample hx h
  have hten := leading_le_ten hx hexponent
  have htenValue : (10 : Decimal).toRat = 10 := toRat_ofNat 10
  have hresult := part_near h hleading hten (Nat.le_add_right _ 2) hparts.leading
  have hlnTen := part_near h leading_ten htenValue.le ((digitCount_pow 1).trans_le (by omega))
    hparts.ten
  have hleadingLog := (log_bounds hleading.lower hten).2
  rw [log_leading hx hexponent] at hresult hleadingLog
  rw [htenValue, Rat.cast_ofNat] at hlnTen
  obtain ⟨-, hupper⟩ := abs_le.1 hresult
  obtain ⟨htenLower, htenUpper⟩ := abs_le.1 hlnTen
  have herror : (ctx.partError x : ℝ) ≤ ((1 / 1000 : ℚ) : ℝ) := by exact_mod_cast ctx.partError_le x
  push_cast at herror
  obtain ⟨htwo, hthree⟩ := log_ten_bounds
  refine ⟨by linarith, ?_, by linarith, ?_, ?_⟩
  · have hreal : (result.toRat : ℝ) < (3 : ℚ) := by
      push_cast
      linarith
    exact_mod_cast hreal
  · have hreal : ((3 / 2 : ℚ) : ℝ) ≤ lnTen.toRat := by
      push_cast
      linarith
    exact_mod_cast hreal
  · have hreal : (lnTen.toRat : ℝ) ≤ (3 : ℚ) := by
      push_cast
      linarith
    exact_mod_cast hreal

theorem multiple_value (h : ctx.NearParts x result lnTen) :
    ((ctx.lnContext x).mul lnTen (ofInt x.exponent)).toRat =
      (ctx.lnContext x).rounded (lnTen.toRat * x.exponent) := by
  have hexponent : |((x.exponent : Int) : ℚ)| ≤ 10 ^ 19 := by
    refine (abs_unscaled_lt (ofInt x.exponent)).le.trans ?_
    rw [← zpow_natCast]
    exact zpow_le_zpow_right₀ (by norm_num) (by exact_mod_cast digitCount_exponent_le x)
  refine value_mul_ofInt (m := 20) _ ?_ (by decide)
  obtain ⟨hlower, hupper⟩ := h.ten_bounds
  rw [abs_mul, abs_of_pos (show 0 < lnTen.toRat by linarith)]
  calc lnTen.toRat * |((x.exponent : Int) : ℚ)| ≤ 3 * 10 ^ 19 :=
        mul_le_mul hupper hexponent (abs_nonneg _) (by norm_num)
    _ ≤ 10 ^ 20 := by norm_num

/-- Below a tenth the multiple is far greater than the other part. -/
theorem lnSum_neg_of_far (h : ctx.NearParts x result lnTen) (hexponent : x.exponent ≤ -2) :
    (ctx.lnSum x result lnTen).toRat < 0 := by
  have hpos := (ctx.lnContext x).precision_pos
  have hmultiple : ((ctx.lnContext x).mul lnTen (ofInt x.exponent)).toRat ≤ -3 := by
    have hthree : Rounding.Short (ctx.lnContext x).precision (-3 : ℚ) :=
      Rounding.short_of_digit (n := -3) (k := 0) hpos (by decide) (by norm_num)
    rw [multiple_value h]
    refine hthree.significant_le hpos ?_
    have hexponent' : (x.exponent : ℚ) ≤ -2 := by exact_mod_cast hexponent
    nlinarith [h.ten_bounds.1]
  rw [lnSum, if_neg (by omega)]
  exact toRat_add_neg (by linarith [h.result_lt_three])

/-! ### From a tenth on -/

section Tenth

variable (hexponent : x.exponent = -1)
include hexponent

theorem precision_of_tenth : (ctx.lnContext x).precision = ctx.precision + 11 := by
  have hdigits : (ofInt (-1)).digitCount = 1 := by decide +kernel
  rw [← hexponent] at hdigits
  change ctx.precision + 10 + (ofInt x.exponent).digitCount = _
  rw [hdigits]

/-- The errors in units of the place that the distance from one is counted in. -/
theorem partError_of_tenth (ctx : Context) : ctx.partError x =
    (8 * ctx.precision + 371) / 100 * 10 ^ (-(ctx.precision + 12 : Int)) := by
  rw [partError, roundoff, show ((ctx.lnContext x).wider 4).precision =
      (ctx.lnContext x).precision + 4 from rfl, precision_of_tenth hexponent,
    show 1 - ((ctx.precision + 11 + 4 : Nat) : Int) = -2 + -(ctx.precision + 12 : Int) by
      push_cast; ring, zpow_add₀ (by norm_num)]
  push_cast
  norm_num
  ring

theorem multiple_of_tenth (h : ctx.NearParts x result lnTen) :
    ((ctx.lnContext x).mul lnTen (ofInt x.exponent)).toRat ≤
      -lnTen.toRat + 100 * 10 ^ (-(ctx.precision + 12 : Int)) := by
  have hunit : (10 : ℚ) ^ (1 - ((ctx.lnContext x).precision : Int)) =
      100 * 10 ^ (-(ctx.precision + 12 : Int)) := by
    rw [precision_of_tenth hexponent,
      show 1 - ((ctx.precision + 11 : Nat) : Int) = 2 + -(ctx.precision + 12 : Int) by
        push_cast; ring, zpow_add₀ (by norm_num)]
    norm_num
  obtain ⟨hlower, hupper⟩ := h.ten_bounds
  have hsize : |-lnTen.toRat| = lnTen.toRat := by
    rw [abs_neg]
    exact abs_of_pos (by linarith)
  rw [multiple_value h, hexponent, Int.cast_neg, Int.cast_one, mul_neg_one, ← hunit]
  have herror : |(ctx.lnContext x).rounded (-lnTen.toRat) - -lnTen.toRat| ≤ _ :=
    Rounding.abs_significant_sub_le_unit _
  rw [Rounding.unit_of_one_le (by linarith) (by linarith)] at herror
  linarith [(abs_le.1 herror).2]

/-- The two parts may cancel, and what is left has to be greater than their errors. -/
theorem lnSum_neg_of_tenth (h : ctx.NearParts x result lnTen) (hx : 0 < x.toRat)
    (hfar : (ctx.precision + 110) * 10 ^ (-(ctx.precision + 12 : Int)) ≤ 1 - x.toRat) :
    (ctx.lnSum x result lnTen).toRat < 0 := by
  have herror := ctx.partError_of_tenth hexponent
  have hmultiple := multiple_of_tenth hexponent h
  obtain ⟨place, hplace⟩ : ∃ place : ℚ, place = 10 ^ (-(ctx.precision + 12 : Int)) := ⟨_, rfl⟩
  rw [← hplace] at hfar hmultiple herror
  have hplacePos : 0 < place := hplace ▸ zpow_pos (by norm_num) _
  have hlog : Real.log x.toRat ≤ x.toRat - 1 :=
    Real.log_le_sub_one_of_pos (by exact_mod_cast hx)
  have hresult := h.result_le
  rw [hexponent] at hresult
  have hdifference : ((result.toRat - lnTen.toRat : ℚ) : ℝ) ≤
      ((x.toRat - 1 + 2 * ctx.partError x : ℚ) : ℝ) := by
    push_cast at hresult ⊢
    linarith [h.le_ten]
  have hdifference' : result.toRat - lnTen.toRat ≤ x.toRat - 1 + 2 * ctx.partError x := by
    exact_mod_cast hdifference
  have hprecisionPos : (0 : ℚ) ≤ ctx.precision * place := by positivity
  rw [lnSum, if_neg (by omega)]
  refine toRat_add_neg ?_
  rw [herror] at hdifference'
  linarith

end Tenth

theorem ln_neg (hx : 0 < x.toRat) (hless : x.toRat < 1) (hfar : ¬ ctx.NextBelowOne x)
    (h : ctx.Ample x.digitCount 0) : Succeeds (ctx.ln x) fun y => y.toRat < 0 := by
  obtain ⟨result, lnTen, hparts, -⟩ := lnParts_succeed hx h
  have hnear := nearParts hx hless h hparts
  have hexponent := exponent_neg_of_lt_one hx hless
  refine ⟨_, ln_of_parts hx hless.ne hparts, sign_neg_iff.1 ?_⟩
  rw [sign_round, sign_neg_iff]
  obtain htenth | htenth : x.exponent = -1 ∨ x.exponent ≤ -2 := by omega
  · exact lnSum_neg_of_tenth htenth hnear hx (not_lt.1 fun hclose => hfar ⟨hless, hclose⟩)
  · exact lnSum_neg_of_far hnear htenth

/-! ## Quotients of logarithms -/

/-- A quotient of logarithms fails where the one of the base comes out as zero, and nowhere else. -/
theorem log_of_ln {denominator : Decimal} (hx : 0 < x.toRat)
    (hbase : ctx.guarded.ln base = .ok denominator) :
    (denominator.toRat = 0 → ctx.log base x = .error .divisionByZero) ∧
      (denominator.toRat ≠ 0 → IsDefined (ctx.log base x)) := by
  obtain ⟨numerator, hnumerator, -⟩ : IsDefined (ctx.guarded.ln x) := ln_isDefined hx
  have hlog : ctx.log base x = ctx.div numerator denominator := by
    rw [log]
    simp only [hbase, hnumerator, Traced.ok_bind]
  rw [hlog]
  exact ⟨fun hzero => div_zero (toRat_eq_zero.1 hzero), div_isDefined⟩

/-- A logarithm comes out, after so many passes of its loops. It is zero for one and positive above
one, and below one it is negative unless the argument is next to one. Bases other than one are divided by
unless they are next to one. -/
theorem ln_sign (ctx : Context) (base x : Decimal) (hx : 0 < x.toRat) (hbase : 0 < base.toRat)
    (hroom : ctx.guarded.Ample x.digitCount 0) (hbaseRoom : ctx.guarded.Ample base.digitCount 0) :
    (x.toRat ≠ 1 → ctx.LnEnds x (ctx.precision + x.digitCount + 50)) ∧
    (∃ y, ctx.ln x = .ok y ∧ (x.toRat = 1 → y.toRat = 0) ∧ (1 < x.toRat → 0 < y.toRat) ∧
      (x.toRat < 1 → ¬ ctx.NextBelowOne x → y.toRat < 0)) ∧
    (base.toRat = 1 → ctx.log base x = .error .divisionByZero) ∧
    (base.toRat ≠ 1 → ¬ ctx.guarded.NextBelowOne base → IsDefined (ctx.log base x)) := by
  have hroom' : ctx.Ample x.digitCount 0 := by
    have hwide : ctx.guarded.precision = ctx.precision + 10 := rfl
    unfold Ample at *
    omega
  refine ⟨fun _ => ln_ends (isPositive_iff.2 hx) hroom', ?_, fun hone => ?_, fun hone hfar => ?_⟩
  · obtain hless | hone | hlarge := lt_trichotomy x.toRat 1
    · by_cases hfar : ctx.NextBelowOne x
      · obtain ⟨y, hy, -⟩ : IsDefined (ctx.ln x) := ln_isDefined hx
        exact ⟨y, hy, fun hone => absurd hone hless.ne, fun hlarge => absurd hlarge hless.not_gt,
          fun _ hnot => absurd hfar hnot⟩
      · obtain ⟨y, hy, hneg⟩ := ln_neg hx hless hfar hroom'
        exact ⟨y, hy, fun hone => absurd hone hless.ne, fun hlarge => absurd hlarge hless.not_gt,
          fun _ _ => hneg⟩
    · exact ⟨0, ln_of_one hone, fun _ => toRat_zero, fun hlarge => absurd hone hlarge.ne',
        fun hless => absurd hone hless.ne⟩
    · obtain ⟨y, hy, hpos⟩ := ln_pos hlarge hroom'
      exact ⟨y, hy, fun hone => absurd hone hlarge.ne', fun _ => hpos,
        fun hless => absurd hless hlarge.not_gt⟩
  · exact (log_of_ln hx (ln_of_one hone)).1 toRat_zero
  · have hsign : Succeeds (ctx.guarded.ln base) fun y => y.toRat ≠ 0 := by
      obtain hless | hlarge := lt_or_gt_of_ne hone
      · exact (ln_neg hbase hless hfar hbaseRoom).imp fun y hy => hy.ne
      · exact (ln_pos hlarge hbaseRoom).imp fun y hy => hy.ne'
    obtain ⟨denominator, hdenominator, hne⟩ := hsign
    exact (log_of_ln hx hdenominator).2 hne

theorem ln_sign_of_half :
    0 < (ofScaled 5 1).toRat ∧ 0 < (10 : Decimal).toRat ∧
      Context.standard.guarded.Ample (ofScaled 5 1).digitCount 0 ∧
      Context.standard.guarded.Ample (10 : Decimal).digitCount 0 ∧
      ¬ Context.standard.NextBelowOne (ofScaled 5 1) ∧
      ∃ y, Context.standard.ln (ofScaled 5 1) = .ok y ∧ y.toRat < 0 := by
  have hvalue : (ofScaled 5 1).toRat = 1 / 2 := by
    rw [toRat_ofScaled _ (by decide)]
    norm_num
  have hten : (10 : Decimal).toRat = 10 := toRat_ofNat 10
  have hprecision : Context.standard.precision = 34 := rfl
  have hfar : ¬ Context.standard.NextBelowOne (ofScaled 5 1) := by
    unfold NextBelowOne
    rw [hvalue, hprecision]
    norm_num
  have hx : 0 < (ofScaled 5 1).toRat := by rw [hvalue]; norm_num
  have hbase : 0 < (10 : Decimal).toRat := by rw [hten]; norm_num
  have hroom : Context.standard.guarded.Ample (ofScaled 5 1).digitCount 0 := by
    rw [show (ofScaled 5 1).digitCount = 1 by decide +kernel]
    unfold Ample
    decide
  have hbaseRoom : Context.standard.guarded.Ample (10 : Decimal).digitCount 0 := by
    rw [show (10 : Decimal).digitCount = 2 from digitCount_pow 1]
    unfold Ample
    decide
  obtain ⟨-, ⟨y, hy, -, -, hneg⟩, -⟩ := ln_sign .standard 10 (ofScaled 5 1) hx hbase hroom hbaseRoom
  exact ⟨hx, hbase, hroom, hbaseRoom, hfar, y, hy, hneg (by rw [hvalue]; norm_num) hfar⟩

/-- Twelve nines behind the point, for an answer of one digit, and a base that is divided by as if it
were one. -/
theorem ln_next_to_one_positive :
    (ofScaled 999999999999 12).toRat < 1 ∧
      (∃ y, Context.ln ⟨1, .halfEven, by decide⟩ (ofScaled 999999999999 12) = .ok y ∧ 0 < y.toRat) ∧
    (ofScaled 999999999999999999999999999999999992199 39).toRat ≠ 1 ∧
      Context.log ⟨14, .ceiling, by decide⟩ (ofScaled 999999999999999999999999999999999992199 39) 2 =
        .error .divisionByZero := by
  have hvalue : (ofScaled 3 12).toRat = 3 * 10 ^ (-12 : Int) := toRat_ofScaled 3 (by decide)
  refine ⟨?_, ⟨ofScaled 3 12, by decide +kernel, by rw [hvalue]; positivity⟩, ?_, by decide +kernel⟩
  · rw [toRat_ofScaled _ (by decide)]
    norm_num
  · rw [toRat_ofScaled _ (by decide)]
    norm_num

end Context

end Reckoner
