import Reckoner.Proofs.Accuracy.CircleConstant
import Reckoner.Proofs.Accuracy.SmallAngles
import Reckoner.Proofs.Domain.LogarithmSigns
import Reckoner.Proofs.Rounding.Projection

/-!
# Inverse cotangents

The arc cotangent is the difference of two numbers near a quarter turn, and its hyperbolic
counterpart the logarithm of a ratio near one. Both are computed with ten digits more than the result,
however large the argument is. That is enough for arguments that have no more than eight digits more
than the result before their point. Further out the difference sinks into its errors, and the ratio
may be rounded to one.
-/

namespace Reckoner

open Integer Decimal

namespace Context

variable {ctx wide : Context} {x y : Decimal} {q : ℚ}

/-! ## What is left of a quarter turn -/

/-- The rounding of a difference that has been computed with some digits more. -/
theorem abs_round_sub_le (hwide : wide.roundoff ≤ ctx.roundoff / 1000) (hx : |x.toRat| ≤ 2)
    (hy : |y.toRat| ≤ 2) (hdifference : |x.toRat - y.toRat| ≤ 158 / 100) :
    |(ctx.round (wide.sub x y)).toRat - (x.toRat - y.toRat)| ≤ 16 / 10 * ctx.roundoff := by
  have hone := ctx.roundoff_le_one
  have hpos := ctx.roundoff_pos
  have hsub : |(wide.sub x y).toRat - (x.toRat - y.toRat)| ≤ 158 / 100 * wide.roundoff := by
    rw [value_sub_of_abs_le (m := 1) wide (by linarith) (by linarith) (by decide)]
    exact (Rounding.abs_significant_sub_le _).trans
      (mul_le_mul_of_nonneg_right hdifference wide.roundoff_pos.le)
  have hsize : |(wide.sub x y).toRat| ≤ 1582 / 1000 := by
    have htriangle := abs_sub_abs_le_abs_sub (wide.sub x y).toRat (x.toRat - y.toRat)
    linarith
  have hround : |(ctx.round (wide.sub x y)).toRat - (wide.sub x y).toRat| ≤
      1582 / 1000 * ctx.roundoff := by
    rw [toRat_round_eq (Traced.fits_round_of_abs_le (m := 1) (by linarith) (by decide))]
    exact (Rounding.abs_significant_sub_le _).trans (mul_le_mul_of_nonneg_right hsize hpos.le)
  have htriangle := abs_sub_le (ctx.round (wide.sub x y)).toRat (wide.sub x y).toRat
    (x.toRat - y.toRat)
  linarith

theorem quarter_bounds {quarter ε : ℚ} (hε : ε ≤ 1 / 1000)
    (h : |(quarter : ℝ) - Real.pi / 2| ≤ (18 / 10 * ε : ℚ)) : 156 / 100 ≤ quarter ∧ quarter ≤ 158 / 100 := by
  obtain ⟨hlower, hupper⟩ := abs_le.1 h
  have hε' : (ε : ℝ) ≤ ((1 / 1000 : ℚ) : ℝ) := by exact_mod_cast hε
  have hpi := Real.pi_gt_d2
  have hpi' := Real.pi_lt_d2
  push_cast at hlower hupper hε'
  have hreal : ((156 / 100 : ℚ) : ℝ) ≤ quarter ∧ (quarter : ℝ) ≤ ((158 / 100 : ℚ) : ℝ) := by
    push_cast
    constructor <;> linarith
  exact_mod_cast hreal

/-- So much is left between an arc tangent and a quarter turn. -/
def Leaves (x : Decimal) (rest : ℚ) : Prop :=
  0 ≤ rest ∧ ∀ k : Int, k ≤ -2 → x.toRat ≤ 10 ^ (-k) → 8 / 10 * 10 ^ k ≤ rest

theorem atanOfInverse_leaves {places : Nat} (hx : 1 < x.toRat) (hprecision : 8 ≤ ctx.precision)
    (hplaces : x.exponent.natAbs ≤ places)
    (hroom : (16 * (ctx.precision + x.digitCount) + places + 300 : Int) ≤ Word.greatest) :
    ∃ inverse rest, ctx.div 1 x = .ok inverse ∧ ctx.atanUpToOne inverse = .ok rest ∧
      rest.toRat ≤ 2 ∧ Leaves x rest.toRat := by
  obtain ⟨inverse, hinverse, hvalue, ⟨hpos, hle⟩, hleast, hdigits⟩ :=
    inverse_bounds (n := ctx.precision + x.digitCount) places hx (Nat.le_add_left _ _)
      (Nat.le_add_right ctx.precision _) hplaces (by push_cast; omega)
  obtain ⟨rest, hrest, ⟨hlower, hupper⟩, hplace⟩ :=
    Atan.atanUpToOne_bounds hprecision hdigits hpos hle hleast (by push_cast; omega)
  refine ⟨inverse, rest, hinverse, hrest, hupper, hlower, fun k hk hle => hplace k hk ?_⟩
  rw [hvalue]
  refine (Rounding.short_pow ctx.precision_pos k).le_significant ctx.precision_pos ?_
  rw [zpow_neg] at hle
  rw [← inv_inv ((10 : ℚ) ^ k), ← one_div]
  exact one_div_le_one_div_of_le (by linarith) hle

theorem atan_of_large {inverse quarter rest : Decimal} (hx : 1 < x.toRat)
    (hinverse : ctx.guarded.div 1 x = .ok inverse) (hquarter : ctx.guarded.quarterTurn = .ok quarter)
    (hrest : ctx.guarded.atanUpToOne inverse = .ok rest) :
    ctx.atan x = .ok (ctx.round (ctx.guarded.sub quarter rest)) := by
  have hlarge : 1 < x := by rwa [lt_iff, toRat_one]
  rw [atan, if_neg (by rw [isZero_iff]; linarith), if_neg (by rw [isNegative_iff]; linarith),
    atanOfPositive]
  simp only [if_pos hlarge, hinverse, hquarter, hrest, Traced.ok_bind]
  rfl

/-- An arc tangent is below a quarter turn by what it leaves, up to two units of its last digit. -/
theorem atan_le_quarter (ctx : Context) (hx : 1 < x.toRat) (hprecision : ctx.precision ≤ 10 ^ 9 + 10)
    (h : ctx.Ample x.digitCount x.exponent.natAbs) :
    Succeeds (ctx.atan x) fun angle => |angle.toRat| ≤ 4 ∧ ∃ rest, Leaves x rest ∧
      (angle.toRat : ℝ) ≤ Real.pi / 2 - rest + (17 / 10 * ctx.roundoff : ℚ) := by
  unfold Ample at h
  have hwide : ctx.guarded.precision = ctx.precision + 10 := rfl
  have hone := ctx.roundoff_le_one
  have hpos := ctx.roundoff_pos
  have hguarded := ctx.roundoff_guarded
  obtain ⟨inverse, rest, hinverse, hrest, hrestUpper, hleaves⟩ :=
    atanOfInverse_leaves hx (show 8 ≤ ctx.guarded.precision by omega) le_rfl (by omega)
  obtain ⟨quarter, hquarter, hnear⟩ :=
    quarterTurn_near (show 2 ≤ ctx.guarded.precision by omega) (by omega)
  obtain ⟨hquarterLower, hquarterUpper⟩ := quarter_bounds (by linarith) hnear
  have hrestLower := hleaves.1
  have hround : |(ctx.round (ctx.guarded.sub quarter rest)).toRat - (quarter.toRat - rest.toRat)| ≤
      16 / 10 * ctx.roundoff := by
    refine abs_round_sub_le (by linarith) ?_ ?_ ?_ <;> rw [abs_le] <;> constructor <;> linarith
  obtain ⟨hroundLower, hroundUpper⟩ := abs_le.1 hround
  refine ⟨_, atan_of_large hx hinverse hquarter hrest, ?_, rest.toRat, hleaves, ?_⟩
  · rw [abs_le]
    constructor <;> linarith
  · have hangle : (ctx.round (ctx.guarded.sub quarter rest)).toRat ≤
        quarter.toRat - rest.toRat + 16 / 10 * ctx.roundoff := by linarith
    have hangle' := (Rat.cast_le (K := ℝ)).2 hangle
    -- the error of the quarter turn is one of guard digits
    have hguarded' : ((18 / 10 * ctx.guarded.roundoff : ℚ) : ℝ) ≤ (1 / 10 * ctx.roundoff : ℚ) := by
      exact_mod_cast (show (18 / 10 * ctx.guarded.roundoff : ℚ) ≤ 1 / 10 * ctx.roundoff by linarith)
    have hupper := (abs_le.1 hnear).2
    push_cast at hangle' hguarded' hupper ⊢
    linarith

/-! ## The arc cotangent -/

theorem roundoff_of_acot (ctx : Context) : ctx.guarded.roundoff = 10 ^ (-(ctx.precision + 9) : Int) := by
  rw [roundoff, show ctx.guarded.precision = ctx.precision + 10 from rfl]
  congr 1

theorem acot_value (ctx : Context) {quarter angle : Decimal} (hquarter : |quarter.toRat| ≤ 4)
    (hangle : |angle.toRat| ≤ 4) :
    (ctx.round (ctx.guarded.sub quarter angle)).toRat =
      ctx.rounded (ctx.guarded.rounded (quarter.toRat - angle.toRat)) := by
  have hvalue := value_sub_of_abs_le (m := 1) ctx.guarded (hquarter.trans (by norm_num))
    (hangle.trans (by norm_num)) (by decide)
  rw [← hvalue]
  refine toRat_round_eq (Traced.fits_round_of_abs_le (m := 1) ?_ (by decide))
  have hten : Rounding.Short ctx.guarded.precision (10 ^ 1 : ℚ) := by
    exact_mod_cast Rounding.short_pow (K := ℚ) ctx.guarded.precision_pos 1
  rw [hvalue]
  refine abs_rounded_le hten ?_
  linarith [abs_sub quarter.toRat angle.toRat]

/-- The errors of the two numbers near a quarter turn come to less than four units of the last guard
digit. -/
theorem acot_bounds (hx : 1 < x.toRat) (hprecision : ctx.precision ≤ 10 ^ 9)
    (h : ctx.guarded.Ample x.digitCount x.exponent.natAbs) :
    Succeeds (ctx.acot x) fun y => -(4 * 10 ^ (-(ctx.precision + 9) : Int)) ≤ y.toRat ∧
      (x.toRat ≤ 10 ^ (ctx.precision + 8) → 0 < y.toRat) := by
  have hwide : ctx.guarded.precision = ctx.precision + 10 := rfl
  have hone : ctx.guarded.roundoff ≤ 1 / 1000 := roundoff_le (by omega)
  have hpos := ctx.guarded.roundoff_pos
  obtain ⟨quarter, hquarter, hnear⟩ :=
    quarterTurn_near (show 2 ≤ ctx.guarded.precision by omega) (by omega)
  obtain ⟨angle, hangle, hangleSize, rest, ⟨hrest, hplace⟩, hupper⟩ :=
    atan_le_quarter ctx.guarded hx (by omega) h
  obtain ⟨hquarterLower, hquarterUpper⟩ := quarter_bounds hone hnear
  -- both errors together, in units of the guard digits
  have hdifference : rest - 35 / 10 * ctx.guarded.roundoff ≤ quarter.toRat - angle.toRat := by
    have hlower := (abs_le.1 hnear).1
    have hreal : ((rest - 35 / 10 * ctx.guarded.roundoff : ℚ) : ℝ) ≤
        ((quarter.toRat - angle.toRat : ℚ) : ℝ) := by
      push_cast at hlower hupper ⊢
      linarith
    exact_mod_cast hreal
  refine ⟨ctx.round (ctx.guarded.sub quarter angle), ?_, ?_, fun hle => ?_⟩
  · simp only [acot, hquarter, hangle]
    rfl
  · have hquarterSize : |quarter.toRat| ≤ 4 := by
      rw [abs_of_pos] <;> linarith
    have hshort (digits : Nat) (hdigits : 0 < digits) :
        Rounding.Short digits (-(4 * ctx.guarded.roundoff)) :=
      Rounding.short_of_digit (n := -4) (k := -(ctx.precision + 9)) hdigits (by decide)
        (by rw [roundoff_of_acot]; norm_num)
    rw [← roundoff_of_acot, acot_value ctx hquarterSize hangleSize]
    refine (hshort _ ctx.precision_pos).le_significant ctx.precision_pos ?_
    refine (hshort _ ctx.guarded.precision_pos).le_significant ctx.guarded.precision_pos ?_
    linarith
  · have hleast : 8 / 10 * 10 ^ (-(ctx.precision + 8) : Int) ≤ rest := by
      refine hplace _ (by have := ctx.precision_pos; omega) ?_
      rw [neg_neg]
      exact_mod_cast hle
    have htenth : (10 : ℚ) ^ (-(ctx.precision + 8) : Int) = 10 * ctx.guarded.roundoff := by
      rw [roundoff_of_acot, ← zpow_one_add₀ (by norm_num)]
      congr 1
    rw [← sign_pos_iff, sign_round, sign_pos_iff]
    exact toRat_sub_pos (by linarith)

/-! ## The ratio of the neighbours -/

/-- The quotient of the neighbours of a number, with the three roundings on the way. -/
def neighbourRatio (ctx : Context) (q : ℚ) : ℚ :=
  ctx.rounded (ctx.rounded (q + 1) / ctx.rounded (q - 1))

theorem one_le_neighbourRatio (ctx : Context) (hlower : 0 < ctx.rounded (q - 1)) :
    1 ≤ ctx.neighbourRatio q := by
  refine (Rounding.short_one ctx.precision_pos).le_significant ctx.precision_pos ?_
  rw [one_le_div hlower]
  exact rounded_mono ctx (by linarith)

/-- As long as the last digit of a number is far below one, its rounded neighbours differ by more than
their quotient is rounded. -/
theorem one_lt_neighbourRatio (hprecision : 3 ≤ ctx.precision) (hq : 1 < q)
    (hle : q ≤ 10 ^ (ctx.precision - 2 : Int)) (hlower : 0 < ctx.rounded (q - 1)) :
    1 < ctx.neighbourRatio q := by
  have hpos := ctx.roundoff_pos
  have hroundoff : ctx.roundoff ≤ 1 / 100 := by
    refine (zpow_le_zpow_right₀ (by norm_num) (show (1 - ctx.precision : Int) ≤ -2 by omega)).trans ?_
    norm_num
  have hunit : ctx.roundoff * q ≤ 1 / 10 := by
    refine (mul_le_mul_of_nonneg_left hle hpos.le).trans_eq ?_
    rw [roundoff, ← zpow_add₀ (by norm_num),
      show (1 - ctx.precision + (ctx.precision - 2) : Int) = -1 by ring, zpow_neg_one, one_div]
  have hupperNear : |ctx.rounded (q + 1) - (q + 1)| ≤ (q + 1) * ctx.roundoff := by
    refine (Rounding.abs_significant_sub_le _).trans_eq ?_
    rw [abs_of_pos (by linarith), roundoff]
  have hlowerNear : |ctx.rounded (q - 1) - (q - 1)| ≤ (q - 1) * ctx.roundoff := by
    refine (Rounding.abs_significant_sub_le _).trans_eq ?_
    rw [abs_of_pos (by linarith), roundoff]
  have hupperLe := (abs_le.1 hupperNear).1
  have hlowerLe := (abs_le.1 hlowerNear).2
  refine (lt_add_of_pos_right 1 hpos).trans_le ?_
  refine (Rounding.short_next_to_one ctx.precision_pos).le_significant ctx.precision_pos ?_
  rw [← roundoff, le_div_iff₀ hlower]
  calc (1 + ctx.roundoff) * ctx.rounded (q - 1)
      ≤ (1 + ctx.roundoff) * ((q - 1) * (1 + ctx.roundoff)) :=
        mul_le_mul_of_nonneg_left (by linarith) (by linarith)
    _ ≤ (q + 1) * (1 - ctx.roundoff) := by nlinarith
    _ ≤ ctx.rounded (q + 1) := by linarith

/-- A number above one is no nearer to it than its last digit. -/
theorem pow_le_sub_one (hx : 1 < x.toRat) : 10 ^ (-x.digitCount : Int) ≤ x.toRat - 1 := by
  have hscale : x.scale ≤ x.digitCount := Reduction.scale_le_of_half_lt (by linarith)
  obtain ⟨k, hk⟩ := Int.eq_ofNat_of_zero_le (show 0 ≤ (x.digitCount : Int) - x.scale by omega)
  have hwhole : (x.toRat - 1) * 10 ^ x.digitCount =
      ((x.unscaled * 10 ^ k - 10 ^ x.digitCount : Int) : ℚ) := by
    have hshifted : x.toRat * 10 ^ x.digitCount = x.unscaled * 10 ^ k := by
      rw [toRat, mul_assoc, ← zpow_natCast, ← zpow_natCast, ← zpow_add₀ (by norm_num),
        neg_add_eq_sub, hk]
    rw [sub_mul, one_mul, hshifted]
    push_cast
    rfl
  have hpos : (0 : ℚ) < (x.toRat - 1) * 10 ^ x.digitCount := mul_pos (by linarith) (by positivity)
  have hone : (1 : ℚ) ≤ (x.toRat - 1) * 10 ^ x.digitCount := by
    rw [hwhole] at hpos ⊢
    exact_mod_cast hpos
  rwa [zpow_neg, zpow_natCast, inv_le_iff_one_le_mul₀ (by positivity)]

theorem exponent_nonneg (hx : 1 < x.toRat) : 0 ≤ x.exponent :=
  Decimal.le_exponent (by decide) (by rw [zpow_zero, abs_of_pos (by linarith)]; exact hx.le)

theorem pow_exponent_le_sub_one (hx : 1 < x.toRat) :
    10 ^ (x.exponent - 1 - x.digitCount) ≤ x.toRat - 1 := by
  have hpos : 0 < x.toRat := by linarith
  obtain hzero | hten := (exponent_nonneg hx).eq_or_lt
  · exact (zpow_le_zpow_right₀ (by norm_num) (by omega)).trans (pow_le_sub_one hx)
  · have hplace := pow_exponent_le_abs fun hzero => hpos.ne' (toRat_eq_zero.2 hzero)
    rw [abs_of_pos hpos] at hplace
    have hlarge : (10 : ℚ) ^ (1 : Int) ≤ 10 ^ x.exponent := zpow_le_zpow_right₀ (by norm_num) hten
    have htenth : (10 : ℚ) ^ (x.exponent - 1 - x.digitCount) ≤ 10 ^ x.exponent * 10⁻¹ := by
      rw [← zpow_sub_one₀ (by norm_num)]
      exact zpow_le_zpow_right₀ (by norm_num) (by omega)
    rw [zpow_one] at hlarge
    linarith

/-- The rounded neighbours of a number are no further from each other than its digits are long. -/
theorem rounded_neighbour_bounds (ctx : Context) (hx : 1 < x.toRat) (hgreatest : x.exponent < Word.greatest)
    (hlower : x.toRat - 1 ≤ q) (hupper : q ≤ x.toRat + 1) :
    10 ^ (x.exponent - 1 - x.digitCount) ≤ ctx.rounded q ∧ ctx.rounded q ≤ 10 ^ (x.exponent + 2) := by
  have hgap := pow_exponent_le_sub_one hx
  have hless := abs_toRat_lt_exponent hgreatest
  rw [abs_of_pos (by linarith)] at hless
  have hunit : (10 : ℚ) ^ (x.exponent + 2) = 10 ^ (x.exponent + 1) * 10 := by
    rw [← zpow_add_one₀ (by norm_num), add_assoc, one_add_one_eq_two]
  have hlarge : (1 : ℚ) ≤ 10 ^ (x.exponent + 1) :=
    one_le_zpow₀ (by norm_num) (by have := exponent_nonneg hx; omega)
  exact rounded_bounds (Rounding.short_pow ctx.precision_pos _)
    (Rounding.short_pow ctx.precision_pos _) ⟨by linarith, by linarith⟩

theorem value_neighbours (ctx : Context) (hx : 1 < x.toRat) (hgreatest : x.exponent + 4 ≤ Word.greatest) :
    (ctx.add x 1).toRat = ctx.rounded (x.toRat + 1) ∧
      (ctx.sub x 1).toRat = ctx.rounded (x.toRat - 1) := by
  have hexponent := exponent_nonneg hx
  have hsize : |x.toRat| ≤ 10 ^ (x.exponent.natAbs + 1) := by
    refine (abs_toRat_lt_exponent (by omega)).le.trans_eq ?_
    rw [← zpow_natCast]
    congr 1
    omega
  have hone : |(1 : Decimal).toRat| ≤ 10 ^ (x.exponent.natAbs + 1) := by
    rw [toRat_one, abs_one]
    exact one_le_pow₀ (by norm_num)
  have hadd := value_add_of_abs_le ctx hsize hone (by omega)
  have hsub := value_sub_of_abs_le ctx hsize hone (by omega)
  rw [toRat_one] at hadd hsub
  exact ⟨hadd, hsub⟩

theorem div_neighbours_value (hx : 1 < x.toRat) (h : ctx.Ample x.digitCount x.exponent.natAbs) :
    0 < ctx.rounded (x.toRat - 1) ∧
    Succeeds (ctx.div (ctx.add x 1) (ctx.sub x 1)) fun ratio =>
      ratio.toRat = ctx.neighbourRatio x.toRat ∧ ratio.digitCount ≤ ctx.precision := by
  unfold Ample at h
  have hexponent := exponent_nonneg hx
  obtain ⟨hadd, hsub⟩ := value_neighbours ctx hx (by omega)
  have hupperBounds :=
    rounded_neighbour_bounds ctx hx (by omega) (show _ ≤ x.toRat + 1 by linarith) le_rfl
  have hlowerBounds :=
    rounded_neighbour_bounds ctx hx (by omega) le_rfl (show x.toRat - 1 ≤ _ by linarith)
  have hupperPos := (zpow_pos (by norm_num) _).trans_le hupperBounds.1
  have hlowerPos := (zpow_pos (by norm_num) _).trans_le hlowerBounds.1
  refine ⟨hlowerPos, ?_⟩
  rw [neighbourRatio, ← hadd, ← hsub]
  rw [← hadd] at hupperBounds hupperPos
  rw [← hsub] at hlowerBounds hlowerPos
  -- the neighbours are not zero, which bounds their scales from both sides
  rw [← abs_of_pos hupperPos] at hupperBounds
  rw [← abs_of_pos hlowerPos] at hlowerBounds
  obtain ⟨hupperLeast, hupperGreatest⟩ := scale_bounds hupperBounds.1 hupperBounds.2
  obtain ⟨hlowerLeast, hlowerGreatest⟩ := scale_bounds hlowerBounds.1 hlowerBounds.2
  have hupperDigits : (ctx.add x 1).digitCount ≤ ctx.precision := digitCount_add_le
  have hlowerDigits : (ctx.sub x 1).digitCount ≤ ctx.precision := digitCount_add_le
  have hupperCount : 0 < (ctx.add x 1).digitCount := digitCount_pos _
  have hlowerCount : 0 < (ctx.sub x 1).digitCount := digitCount_pos _
  have hfits : (Traced.div ctx (ctx.add x 1) (ctx.sub x 1)).Fits :=
    fits_div_of_scales hupperDigits hlowerDigits le_rfl (by omega)
  exact div_of_fits hfits hlowerPos.ne'

/-! ## The inverse hyperbolic cotangent -/

theorem acoth_of_ratio {ratio y : Decimal} (hx : 1 < x.toRat)
    (hratio : ctx.guarded.div (ctx.guarded.add x 1) (ctx.guarded.sub x 1) = .ok ratio)
    (hy : ctx.guarded.ln ratio = .ok y) :
    Succeeds (ctx.acoth x) fun z => z.sign = y.sign := by
  have hlarge : ¬ x.abs ≤ 1 := by
    rw [le_iff, toRat_one, toRat_abs, not_le, abs_of_pos (by linarith)]
    exact hx
  refine ⟨ctx.round (ctx.guarded.mul y half), ?_, ?_⟩
  · simp only [acoth, if_neg hlarge, hratio, hy, Traced.ok_bind]
    rfl
  · change (ctx.round _).sign = _
    rw [sign_round, sign_mul, show half.sign = 1 from rfl, mul_one]

theorem acoth_bounds (hx : 1 < x.toRat) (hprecision : ctx.precision ≤ 10 ^ 9)
    (h : ctx.guarded.Ample x.digitCount x.exponent.natAbs) :
    Succeeds (ctx.acoth x) fun y => 0 ≤ y.toRat ∧
      (y.toRat = 0 ↔ ctx.guarded.neighbourRatio x.toRat = 1) := by
  have hwide : ctx.guarded.precision = ctx.precision + 10 := rfl
  obtain ⟨hlower, ratio, hratio, hvalue, hdigits⟩ := div_neighbours_value hx h
  have hone := one_le_neighbourRatio ctx.guarded hlower
  rw [← hvalue] at hone ⊢
  obtain hone | hlarge := hone.eq_or_lt
  · refine (acoth_of_ratio hx hratio (ln_of_one hone.symm)).imp fun y hy => ?_
    have hzero : y.toRat = 0 := sign_eq_zero_iff.1 hy
    exact ⟨hzero.ge, iff_of_true hzero hone.symm⟩
  · obtain ⟨z, hz, hpos⟩ :=
      ln_pos hlarge (show ctx.guarded.Ample _ 0 by unfold Ample Word.greatest; omega)
    refine (acoth_of_ratio hx hratio hz).imp fun y hy => ?_
    have hypos : 0 < y.toRat := by rwa [← sign_pos_iff, hy, sign_pos_iff]
    exact ⟨hypos.le, iff_of_false hypos.ne' hlarge.ne'⟩

/-! ## Signs -/

def AcotEnds (ctx : Context) (x : Decimal) (passes : Nat) : Prop :=
  ctx.guarded.PiEnds passes ∧ ctx.guarded.AtanEnds x passes

/-- A ratio of one has its logarithm without a loop. -/
def AcothEnds (ctx : Context) (x : Decimal) (passes : Nat) : Prop :=
  ∃ ratio, ctx.guarded.div (ctx.guarded.add x 1) (ctx.guarded.sub x 1) = .ok ratio ∧
    (ratio.toRat ≠ 1 → ctx.guarded.LnEnds ratio passes)

theorem acot_ends (hx : 1 < x.toRat) (hprecision : ctx.precision ≤ 10 ^ 9)
    (h : ctx.guarded.Ample x.digitCount x.exponent.natAbs) : ctx.AcotEnds x (ctx.precision + 32) := by
  have hwide : ctx.guarded.precision = ctx.precision + 10 := rfl
  have hzero : x.isZero = false := by
    rw [← Bool.not_eq_true, isZero_iff]
    linarith
  have hpi : ctx.guarded.PiEnds (ctx.guarded.precision + 12) :=
    (pi_ends ⟨by omega, by unfold Word.greatest; push_cast; omega⟩).1
  exact ⟨hpi.mono (by omega), atan_ends hzero le_rfl h⟩

theorem acoth_ends (hx : 1 < x.toRat) (hprecision : ctx.precision ≤ 10 ^ 9)
    (h : ctx.guarded.Ample x.digitCount x.exponent.natAbs) :
    ctx.AcothEnds x (2 * ctx.precision + 70) := by
  have hwide : ctx.guarded.precision = ctx.precision + 10 := rfl
  obtain ⟨hlower, ratio, hratio, hvalue, hdigits⟩ := div_neighbours_value hx h
  have hone := one_le_neighbourRatio ctx.guarded hlower
  rw [← hvalue] at hone
  refine ⟨ratio, hratio, fun _ => ?_⟩
  have hends := ln_ends (isPositive_iff.2 (show 0 < ratio.toRat by linarith))
    (show ctx.guarded.Ample ratio.digitCount 0 by unfold Ample Word.greatest; omega)
  exact ⟨hends.1.mono (by omega), fun hten => (hends.2 hten).mono (by omega)⟩

/-- The inverse cotangents of a number above one come out, after so many passes of their loops. They
are positive where the number has at most eight digits more before its point than the result has
digits. Beyond, the arc cotangent does not fall below zero by more than four units of the last guard
digit, and the hyperbolic one is zero exactly where the ratio of the neighbours is rounded to one. The
guard digits make up for the errors of as many passes as a thousand million digits take. -/
theorem inverse_cotangent_signs (ctx : Context) (x : Decimal) (hx : 1 < x.toRat)
    (hprecision : ctx.precision ≤ 10 ^ 9)
    (hroom : ctx.guarded.Ample x.digitCount x.exponent.natAbs) :
    ctx.AcotEnds x (ctx.precision + 32) ∧ ctx.AcothEnds x (2 * ctx.precision + 70) ∧
    ∃ y z, ctx.acot x = .ok y ∧ ctx.acoth x = .ok z ∧
      -(4 * 10 ^ (-(ctx.precision + 9) : Int)) ≤ y.toRat ∧ 0 ≤ z.toRat ∧
      (z.toRat = 0 ↔ ctx.guarded.neighbourRatio x.toRat = 1) ∧
      (x.toRat ≤ 10 ^ (ctx.precision + 8) → 0 < y.toRat ∧ 0 < z.toRat) := by
  have hwide : ctx.guarded.precision = ctx.precision + 10 := rfl
  obtain ⟨y, hy, hleast, hypos⟩ := acot_bounds hx hprecision hroom
  obtain ⟨z, hz, hnonneg, hzero⟩ := acoth_bounds hx hprecision hroom
  refine ⟨acot_ends hx hprecision hroom, acoth_ends hx hprecision hroom, y, z, hy, hz, hleast,
    hnonneg, hzero, fun hle => ⟨hypos hle, hnonneg.lt_of_ne' ?_⟩⟩
  rw [Ne, hzero]
  have hplace : x.toRat ≤ 10 ^ (ctx.guarded.precision - 2 : Int) := by
    refine hle.trans_eq ?_
    rw [← zpow_natCast]
    congr 1
    omega
  exact (one_lt_neighbourRatio (by omega) hx hplace (div_neighbours_value hx hroom).1).ne'

/-- The greatest power of ten whose inverse cotangents are sure to be positive in the standard context. -/
theorem inverse_cotangent_signs_of_standard :
    let x := ofScaled 1 (-42)
    1 < x.toRat ∧ Context.standard.precision ≤ 10 ^ 9 ∧
      Context.standard.guarded.Ample x.digitCount x.exponent.natAbs ∧
      x.toRat ≤ 10 ^ (Context.standard.precision + 8) ∧
      ∃ y z, Context.standard.acot x = .ok y ∧ Context.standard.acoth x = .ok z ∧
        0 < y.toRat ∧ 0 < z.toRat := by
  intro x
  have hvalue : x.toRat = 10 ^ 42 := by
    rw [toRat_ofScaled _ (by decide)]
    norm_num
  have hprecision : Context.standard.precision = 34 := rfl
  have hx : 1 < x.toRat := by
    rw [hvalue]
    norm_num
  have hroom : Context.standard.guarded.Ample x.digitCount x.exponent.natAbs := by
    have hdigits : x.digitCount = 1 := by decide +kernel
    have hexponent : x.exponent = 42 := by decide +kernel
    rw [hdigits, hexponent]
    unfold Ample
    decide
  have hle : x.toRat ≤ 10 ^ (Context.standard.precision + 8) := by rw [hvalue, hprecision]
  obtain ⟨-, -, y, z, hy, hz, -, -, -, hpos⟩ :=
    inverse_cotangent_signs Context.standard x hx (by rw [hprecision]; norm_num) hroom
  exact ⟨hx, by rw [hprecision]; norm_num, hroom, hle, y, z, hy, hz, hpos hle⟩

/-- A few digits further out an arc cotangent comes out negative and its hyperbolic counterpart zero. -/
theorem inverse_cotangents_not_positive :
    1 < (ofScaled 1 (-15)).toRat ∧
      (∃ y, Context.acot ⟨5, .halfDown, by decide⟩ (ofScaled 1 (-15)) = .ok y ∧ y.toRat < 0) ∧
    1 < (ofScaled 15 (-10)).toRat ∧
      ∃ y, Context.acoth ⟨1, .halfEven, by decide⟩ (ofScaled 15 (-10)) = .ok y ∧ y.toRat = 0 := by
  refine ⟨?_, ⟨ofScaled (-1) 14, by decide +kernel, ?_⟩, ?_, ⟨ofScaled 0 1, by decide +kernel, ?_⟩⟩
  all_goals rw [toRat_ofScaled _ (by decide)]; norm_num

end Context

end Reckoner
