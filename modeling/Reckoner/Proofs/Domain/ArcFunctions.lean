import Reckoner.Proofs.Loops.ArcTangents
import Reckoner.Proofs.Loops.Magnitudes
import Reckoner.Proofs.Rounding.Mirrors

/-!
# Domains of the arc sine and the arc cosine

Both functions refuse every number outside `[-1, 1]`. Inside, they divide by the root of `1 - x²`, where
the square has been rounded. The division fails for the numbers next to one whose square is rounded to
one. These have more digits than the square is rounded to, and there are none for the modes that only
take digits away.
-/

namespace Reckoner

open Integer Decimal

variable {ctx : Context} {x y : Decimal} {places : Nat}

/-! ## Numbers next to one -/

namespace Rounding

variable {digits : Nat} {q : ℚ} {mode : Rounding}

/-- Between a short number and one there is room for a unit in the last place before one. -/
theorem Short.le_one_sub (hdigits : 0 < digits) (hq : Short digits q) (h : q < 1) :
    q ≤ 1 - 1 / 10 ^ digits := by
  obtain ⟨n, k, rfl, hn⟩ := hq
  have hpow : (0 : ℚ) < 10 ^ digits := by positivity
  obtain hk | hk := le_or_gt (-digits : Int) k
  · -- such a number is a whole multiple of that unit
    obtain ⟨j, rfl⟩ : ∃ j : Nat, k = j - digits := ⟨(k + digits).toNat, by omega⟩
    have hwhole : (n : ℚ) * 10 ^ (j - digits : Int) = (n * 10 ^ j : Int) / 10 ^ digits := by
      rw [zpow_sub₀ (by norm_num), zpow_natCast, zpow_natCast, mul_div_assoc']
      push_cast
      rfl
    rw [hwhole, div_lt_one hpow] at h
    have hle : n * 10 ^ j ≤ 10 ^ digits - 1 := Int.le_sub_one_of_lt (by exact_mod_cast h)
    rw [hwhole, one_sub_div hpow.ne']
    exact div_le_div_of_nonneg_right (by exact_mod_cast hle) hpow.le
  · have hsmall : |(n : ℚ) * 10 ^ k| ≤ 10 ^ (-1 : Int) :=
      (abs_lt_of_digits rfl hn).le.trans (zpow_le_zpow_right₀ (by norm_num) (by omega))
    have hunit : (1 : ℚ) / 10 ^ digits ≤ 1 / 10 :=
      one_div_le_one_div_of_le (by norm_num) (le_self_pow₀ (by norm_num) hdigits.ne')
    rw [zpow_neg_one] at hsmall
    linarith [le_abs_self ((n : ℚ) * 10 ^ k)]

/-- The two modes that take digits away from a positive number. -/
theorem significant_le_self (hmode : mode = down ∨ mode = floor) (hq : 0 ≤ q) :
    mode.significant digits q ≤ q := by
  obtain rfl | rfl := hmode
  · have hunit := unit_pos digits q
    have hnonneg : 0 ≤ q / unit digits q := div_nonneg hq hunit.le
    rw [significant, ← le_div_iff₀ hunit, nearest_down, truncate, if_neg hnonneg.not_gt]
    exact Int.floor_le _
  · exact significant_floor_le digits q

/-- The square of a number below one that is no longer than the digits kept is not rounded to one. -/
theorem significant_square_lt_one (hdigits : 0 < digits) (hq : Short digits q) (h : |q| < 1) :
    mode.significant digits (q ^ 2) < 1 := by
  have hunit : (0 : ℚ) < 1 / 10 ^ digits := by positivity
  have habs : Short digits |q| := by
    obtain hpos | hneg := le_total 0 q
    · rwa [abs_of_nonneg hpos]
    · rw [abs_of_nonpos hneg]
      exact hq.neg
  have hless := habs.le_one_sub hdigits h
  have hbound : Short digits (1 - 1 / 10 ^ digits : ℚ) := by
    refine ⟨10 ^ digits - 1, -digits, ?_, ?_⟩
    · rw [zpow_neg, zpow_natCast]
      push_cast
      field_simp
    · have hone : (1 : Int) ≤ 10 ^ digits := one_le_pow₀ (by decide)
      rw [abs_of_nonneg (by omega)]
      omega
  have hsquare : q ^ 2 ≤ 1 - 1 / 10 ^ digits := by
    rw [← sq_abs]
    nlinarith [abs_nonneg q]
  exact (hbound.significant_le hdigits hsquare).trans_lt (by linarith)

end Rounding

namespace Context

/-- A number inside the interval whose square is rounded to its end. -/
def SquareRoundsToOne (ctx : Context) (x : Decimal) : Prop :=
  |x.toRat| < 1 ∧ ctx.rounded (x.toRat ^ 2) = 1

theorem not_squareRoundsToOne (h : ctx.rounding = .down ∨ ctx.rounding = .floor ∨
    x.digitCount ≤ ctx.precision) : ¬ ctx.SquareRoundsToOne x := by
  rintro ⟨hx, hone⟩
  have hless : ctx.rounded (x.toRat ^ 2) < 1 := by
    obtain hmode | hdigits : (ctx.rounding = .down ∨ ctx.rounding = .floor) ∨
        x.digitCount ≤ ctx.precision := by tauto
    · refine (Rounding.significant_le_self hmode (sq_nonneg _)).trans_lt ?_
      rw [← sq_abs]
      exact pow_lt_one₀ (abs_nonneg _) hx two_ne_zero
    · have hshort := short_toRat (K := ℚ) hdigits
      rw [Rat.cast_id] at hshort
      exact Rounding.significant_square_lt_one ctx.precision_pos hshort hx
  exact hless.ne hone

/-! ## Squares -/

section Squares

variable (hx : x.unscaled ≠ 0) (hinside : |x.toRat| ≤ 1)
  (hdigits : (2 * x.digitCount : Int) < Word.greatest)
include hx hinside hdigits

/-- The scale of a square only stops where the square is tiny. -/
theorem square_cases : (ctx.mul x x).toRat = ctx.rounded (x.toRat ^ 2) ∨
    |(ctx.mul x x).toRat| ≤ 1 / 10 ∧ |ctx.rounded (x.toRat ^ 2)| ≤ 1 / 10 := by
  have hleading : (x.digitCount : Int) - 1 - x.scale ≤ 0 := by
    rw [← zpow_zero (10 : ℚ)] at hinside
    exact (zpow_le_zpow_iff_right₀ (by norm_num)).1 ((pow_le_abs_toRat hx).trans hinside)
  have hpos : 0 < x.digitCount := digitCount_pos _
  -- a scale that does not fit is past the upper end, where the number is far below one
  by_cases hscale : Word.Fits (x.scale + x.scale)
  · left
    have hone : |x.toRat * x.toRat| ≤ 10 ^ 0 := by
      rw [abs_mul, pow_zero]
      exact mul_le_one₀ hinside (abs_nonneg _) hinside
    rw [value_mul (Traced.fits_mul_of_abs_le hscale hone (by decide)), sq]
  · right
    have hlarge : Word.greatest < x.scale + x.scale := by
      unfold Word.Fits Word.least Word.greatest at *
      omega
    have hshort : Rounding.Short ctx.precision (1 / 10 : ℚ) :=
      Rounding.short_of_digit (n := 1) (k := -1) ctx.precision_pos (by decide) (by norm_num)
    have htenth {k : Int} (hk : k ≤ -1) : (10 : ℚ) ^ k ≤ 1 / 10 :=
      (zpow_le_zpow_right₀ (by norm_num) hk).trans_eq (by norm_num)
    have hsquare : |x.toRat| * |x.toRat| ≤ 1 / 10 := by
      have hlt := (abs_toRat_lt_pow x).le
      refine (mul_le_mul hlt hlt (abs_nonneg _) (by positivity)).trans ?_
      rw [← zpow_add₀ (by norm_num)]
      exact htenth (by omega)
    refine ⟨abs_mul_le hshort hsquare (htenth (by omega)), abs_rounded_le hshort ?_⟩
    rwa [abs_pow, sq]

theorem square_le_one : (ctx.mul x x).toRat ≤ 1 := by
  obtain hvalue | ⟨hsmall, -⟩ : (ctx.mul x x).toRat = ctx.rounded (x.toRat ^ 2) ∨ _ :=
    square_cases hx hinside hdigits
  · rw [hvalue]
    refine (Rounding.short_one ctx.precision_pos).significant_le ctx.precision_pos ?_
    rw [← sq_abs]
    exact pow_le_one₀ (abs_nonneg _) hinside
  · linarith [le_abs_self (ctx.mul x x).toRat]

theorem square_eq_one_iff : (ctx.mul x x).toRat = 1 ↔ ctx.rounded (x.toRat ^ 2) = 1 := by
  obtain hvalue | ⟨hsmall, hsmall'⟩ : (ctx.mul x x).toRat = ctx.rounded (x.toRat ^ 2) ∨ _ :=
    square_cases hx hinside hdigits
  · rw [hvalue]
  · have hne {q : ℚ} (hq : |q| ≤ 1 / 10) : q ≠ 1 := by
      rintro rfl
      norm_num at hq
    exact iff_of_false (hne hsmall) (hne hsmall')

end Squares

/-! ## Roots -/

theorem wholeRoot_pos {degree : Nat} (hdegree : 0 < degree) (hx : x.unscaled ≠ 0) :
    0 < (ctx.wholeRoot x degree).toRat := by
  rw [← sign_pos_iff]
  unfold wholeRoot
  simp only
  generalize (ctx.precision + 2) * degree - x.digitCount = shift
  generalize (-Word.saturate (x.scale + shift) % (degree : Int)).natAbs = pad
  have hradicand : x.unscaled.natAbs * pow10 (shift + pad) ≠ 0 :=
    mul_ne_zero (Int.natAbs_ne_zero.2 hx) (pow10_pos _).ne'
  generalize x.unscaled.natAbs * pow10 (shift + pad) = radicand at *
  split
  · next hexact =>
    have hroot : floorRoot degree radicand ≠ 0 := by
      intro hzero
      rw [hzero] at hexact
      exact hradicand (hexact.symm.trans (zero_pow hdegree.ne'))
    rw [sign_strip, sign_round, sign, unscaled_ofScaled,
      Int.sign_eq_one_of_pos (by exact_mod_cast Nat.pos_of_ne_zero hroot)]
    exact one_pos
  · rw [sign_round, sign, unscaled_ofScaled, Int.sign_eq_one_of_pos (by omega)]
    exact one_pos

/-- The root of a number below one is not below the number. -/
theorem wholeRoot_bounds {n : Nat} {a : ℚ} (hx : x.Within n) (hroom : ctx.Roomy n)
    (ha : Rounding.Short ctx.precision a) (hapos : 0 < a) (hlower : a ≤ x.toRat)
    (hupper : x.toRat ≤ 1) :
    a ≤ (ctx.wholeRoot x 2).toRat ∧ (ctx.wholeRoot x 2).toRat ≤ 1 :=
  rounded_sqrt_bounds (value_sqrt hx hroom (hapos.trans_le hlower)) ha
    (Rounding.short_one ctx.precision_pos) zero_le_one (by nlinarith) (by rwa [one_pow])

/-! ## The arc sine -/

/-- The difference whose root an arc sine divides by. -/
def radicand (ctx : Context) (x : Decimal) : Decimal := ctx.sub 1 (ctx.mul x x)

/-- The argument of the arc tangent that an arc sine goes through. -/
def arcTangentArgument (ctx : Context) (x : Decimal) : Arithmetic Decimal := do
  let cosine ← ctx.sqrt (ctx.radicand x)
  ctx.div x cosine

theorem asin_of_outside (hx : 1 < |x.toRat|) :
    ctx.asin x = .error (.undefined "asin" "argument must lie in [-1, 1]") := by
  rw [asin, if_pos]
  rwa [lt_iff, toRat_one, toRat_abs]

theorem asin_of_zero (hx : x.toRat = 0) : ctx.asin x = .ok 0 := by
  rw [asin, if_neg, if_pos (isZero_iff.2 hx)]
  rw [lt_iff, toRat_one, toRat_abs, hx, abs_zero]
  norm_num

theorem asin_of_end (hx : |x.toRat| = 1) : ctx.asin x = ctx.guarded.quarterTurn >>= fun quarter =>
    .ok (ctx.round (if x.isNegative then -quarter else quarter)) := by
  have hzero : ¬ x.isZero = true := by
    rw [isZero_iff]
    intro hzero
    rw [hzero, abs_zero] at hx
    exact zero_ne_one hx
  rw [asin, if_neg (by rw [lt_iff, toRat_one, toRat_abs, hx]; exact lt_irrefl 1), if_neg hzero]
  simp only
  rw [if_pos (by rw [sameValue_iff, toRat_one, toRat_abs, hx])]
  rfl

theorem asin_of_inside (hzero : x.toRat ≠ 0) (hx : |x.toRat| < 1) :
    ctx.asin x = ctx.guarded.arcTangentArgument x >>= ctx.atan := by
  rw [asin, if_neg (by rw [lt_iff, toRat_one, toRat_abs]; exact hx.not_gt),
    if_neg (by rwa [isZero_iff])]
  simp only
  rw [if_neg (by rw [sameValue_iff, toRat_one, toRat_abs]; exact hx.ne)]
  unfold arcTangentArgument radicand
  cases ctx.guarded.sqrt (ctx.guarded.sub 1 (ctx.guarded.mul x x)) <;> rfl

section Inside

variable (hx : x.unscaled ≠ 0) (hinside : |x.toRat| ≤ 1)

section Digits

variable (hdigits : (2 * x.digitCount : Int) < Word.greatest)
include hx hinside hdigits

/-- Where the square has become one, nothing is left to divide by. -/
theorem arcTangentArgument_fails (hone : ctx.rounded (x.toRat ^ 2) = 1) :
    ctx.arcTangentArgument x = .error .divisionByZero := by
  have hsquare := (square_eq_one_iff hx hinside hdigits).2 hone
  have hzero : (ctx.radicand x).toRat = 0 := by
    rw [← sign_eq_zero_iff, radicand, sub, sign_add, sign_eq_zero_iff, Decimal.toRat_add, toRat_neg,
      toRat_one, hsquare]
    ring
  have hroot : ctx.sqrt (ctx.radicand x) = .ok 0 := by
    unfold sqrt
    rw [if_neg (by rw [isNegative_iff, hzero]; exact lt_irrefl 0), if_pos (isZero_iff.2 hzero)]
  rw [arcTangentArgument, hroot]
  rfl

theorem radicand_pos (hone : ctx.rounded (x.toRat ^ 2) ≠ 1) : 0 < (ctx.radicand x).toRat := by
  refine toRat_sub_pos ?_
  rw [toRat_one]
  exact lt_of_le_of_ne (square_le_one hx hinside hdigits)
    (mt (square_eq_one_iff hx hinside hdigits).1 hone)

/-- Everywhere else the quotient comes out. -/
theorem arcTangentArgument_isDefined (hone : ctx.rounded (x.toRat ^ 2) ≠ 1) :
    IsDefined (ctx.arcTangentArgument x) := by
  have hpos := radicand_pos hx hinside hdigits hone
  have hroot : 0 < (ctx.wholeRoot (ctx.radicand x) 2).toRat :=
    wholeRoot_pos (by decide) (mt toRat_eq_zero.2 hpos.ne')
  rw [arcTangentArgument, sqrt_of_pos hpos]
  exact div_isDefined hroot.ne'

end Digits

/-- The root that is divided by is at most as far from one as a unit in the last place is from zero. -/
theorem radicand_bounds (hdigits : (2 * x.digitCount : Int) < Word.greatest) (hx : x.unscaled ≠ 0)
    (hinside : |x.toRat| ≤ 1) (hone : ctx.rounded (x.toRat ^ 2) ≠ 1) :
    (10 : ℚ) ^ (-ctx.precision : Int) ≤ (ctx.radicand x).toRat ∧ (ctx.radicand x).toRat ≤ 1 := by
  have hpos := ctx.precision_pos
  have hnonneg := square_nonneg ctx x
  have hle : (ctx.mul x x).toRat ≤ 1 := square_le_one hx hinside hdigits
  have hlt := lt_of_le_of_ne hle (mt (square_eq_one_iff hx hinside hdigits).1 hone)
  have hlength : (ctx.mul x x).digitCount ≤ ctx.precision := digitCount_mul_le
  have hshort := short_toRat (K := ℚ) hlength
  rw [Rat.cast_id] at hshort
  have hgap := hshort.le_one_sub hpos hlt
  have hfits : (Traced.add ctx 1 (-(ctx.mul x x))).Fits := by
    refine Traced.fits_add_of_abs_le (m := 0) ?_ ?_ (by decide)
    · rw [toRat_one, abs_one, pow_zero]
    · rwa [toRat_neg, abs_neg, abs_of_nonneg hnonneg, pow_zero]
  rw [radicand, sub, value_add hfits, toRat_one, toRat_neg]
  refine rounded_bounds (Rounding.short_pow hpos _) (Rounding.short_one hpos) ?_
  rw [zpow_neg, zpow_natCast, ← one_div]
  constructor <;> linarith

end Inside

/-- The root that is divided by, and the room it takes. -/
theorem cosine_succeeds (hx : x.unscaled ≠ 0) (hinside : |x.toRat| ≤ 1)
    (hone : ctx.rounded (x.toRat ^ 2) ≠ 1)
    (hroom : (100 * (ctx.precision + x.digitCount) + 100 : Int) ≤ Word.greatest) :
    Succeeds (ctx.sqrt (ctx.radicand x)) fun cosine =>
      ((10 : ℚ) ^ (-ctx.precision : Int) ≤ cosine.toRat ∧ cosine.toRat ≤ 1) ∧
        cosine.Within (ctx.precision + ctx.precision) := by
  have hbounds := radicand_bounds (by omega) hx hinside hone
  have hsmall : (0 : ℚ) < 10 ^ (-ctx.precision : Int) := by positivity
  have hwithin {y : Decimal} (hy : y.digitCount ≤ ctx.precision)
      (h : (10 : ℚ) ^ (-ctx.precision : Int) ≤ y.toRat ∧ y.toRat ≤ 1) :
      y.Within (ctx.precision + ctx.precision) := by
    refine within_of_pos ctx.precision hy ?_ (h.2.trans (one_le_pow₀ (by norm_num)))
    rw [one_div, ← zpow_natCast, ← zpow_neg]
    exact h.1
  have hradicand : (ctx.radicand x).Within (ctx.precision + ctx.precision) :=
    hwithin digitCount_add_le hbounds
  have hcosine := wholeRoot_bounds hradicand ⟨by omega, by omega⟩
    (Rounding.short_pow ctx.precision_pos _) hsmall hbounds.1 hbounds.2
  exact ⟨_, sqrt_of_pos (hsmall.trans_le hbounds.1), hcosine,
    hwithin digitCount_wholeRoot_le hcosine⟩

/-- A quotient by a number that is not above one and not far below it. -/
theorem quotient_bounds {z : Decimal} (hx : x.unscaled ≠ 0) (hinside : |x.toRat| ≤ 1)
    (hlower : (10 : ℚ) ^ (-ctx.precision : Int) ≤ y.toRat) (hupper : y.toRat ≤ 1)
    (hz : z.toRat = ctx.rounded (x.toRat / y.toRat)) :
    (10 : ℚ) ^ x.exponent ≤ |z.toRat| ∧ |z.toRat| ≤ 10 ^ (ctx.precision : Int) := by
  have hpos := ctx.precision_pos
  have hypos : 0 < y.toRat := (zpow_pos (by norm_num) _).trans_le hlower
  have hquotient : |x.toRat / y.toRat| = |x.toRat| / y.toRat := by
    rw [abs_div, abs_of_pos hypos]
  constructor <;> rw [hz]
  · have hleading : (10 : ℚ) ^ x.exponent ≤ |x.toRat| :=
      (zpow_le_zpow_right₀ (by norm_num) (exponent_le hx)).trans (pow_le_abs_toRat hx)
    refine (Rounding.short_pow hpos _).le_abs_significant hpos ?_
    rw [hquotient]
    exact hleading.trans (le_div_self (abs_nonneg _) hypos hupper)
  · refine abs_rounded_le (Rounding.short_pow hpos _) ?_
    rw [hquotient, div_le_iff₀ hypos]
    refine hinside.trans ?_
    calc (1 : ℚ) = 10 ^ (ctx.precision : Int) * 10 ^ (-ctx.precision : Int) := by
          rw [← zpow_add₀ (by norm_num), add_neg_cancel, zpow_zero]
      _ ≤ 10 ^ (ctx.precision : Int) * y.toRat :=
          mul_le_mul_of_nonneg_left hlower (by positivity)

/-- The argument of the arc tangent is not smaller than that of the arc sine, and not much greater than
one. -/
theorem arcTangentArgument_succeeds (hx : x.unscaled ≠ 0) (hinside : |x.toRat| ≤ 1)
    (hone : ctx.rounded (x.toRat ^ 2) ≠ 1) (hplaces : x.exponent.natAbs ≤ places)
    (hroom : (100 * (ctx.precision + x.digitCount) + places + 100 : Int) ≤ Word.greatest) :
    Succeeds (ctx.arcTangentArgument x) fun tangent => tangent.isZero = false ∧
      tangent.exponent.natAbs ≤ places + ctx.precision ∧ tangent.digitCount ≤ ctx.precision := by
  have hxWithin := within_of_exponent hx hplaces (by omega)
  refine (cosine_succeeds hx hinside hone (by omega)).bind fun cosine hcosine => ?_
  obtain ⟨⟨hlower, hupper⟩, hwithin⟩ := hcosine
  have hscales : ((x.scale - cosine.scale).natAbs + 6 * (ctx.precision + ctx.precision +
      x.digitCount : Nat) + 10 : Int) ≤ Word.greatest := by
    have := hxWithin.le_scale
    have := hxWithin.scale_le
    have := hwithin.le_scale
    have := hwithin.scale_le
    omega
  have hfits : (Traced.div ctx x cosine).Fits := fits_div_of_scales
    (n := ctx.precision + ctx.precision + x.digitCount) (by omega) (hwithin.digits.trans (by omega)) (by omega) hscales
  have hpos : 0 < cosine.toRat := (zpow_pos (by norm_num) _).trans_le hlower
  refine (div_of_fits hfits hpos.ne').imp fun tangent htangent => ?_
  obtain ⟨hvalue, hlength⟩ := htangent
  obtain ⟨hleast, hgreatest⟩ := quotient_bounds hx hinside hlower hupper hvalue
  have hne : tangent.unscaled ≠ 0 := by
    intro hzero
    rw [toRat_eq_zero.2 hzero, abs_zero] at hleast
    exact absurd hleast (zpow_pos (by norm_num) _).not_ge
  refine ⟨by simpa [isZero] using hne, ?_, hlength⟩
  have hleast := Decimal.le_exponent (by omega) hleast
  have hgreatest := exponent_lt_of_abs_lt hne
    (hgreatest.trans_lt (zpow_lt_zpow_right₀ (by norm_num) (lt_add_one _)))
  omega

/-- The loops behind an arc sine: none for zero, those of the circle constant at the ends of the
interval, and those of the arc tangent between. -/
def AsinEnds (ctx : Context) (x : Decimal) (passes : Nat) : Prop :=
  (|x.toRat| = 1 → ctx.guarded.PiEnds passes) ∧
    (x.toRat ≠ 0 → |x.toRat| < 1 → ∃ tangent, ctx.guarded.arcTangentArgument x = .ok tangent ∧
      tangent.isZero = false ∧ ctx.AtanEnds tangent passes)

theorem atanEnds_of_argument {tangent : Decimal} (htangent : tangent.isZero = false)
    (hplaces : tangent.exponent.natAbs ≤ places) (hdigits : tangent.digitCount ≤ ctx.precision + 10)
    (hroom : (100 * (ctx.precision + 10) + places + 1000 : Int) ≤ Word.greatest) :
    ctx.AtanEnds tangent (ctx.precision + 22) := by
  obtain ⟨hpos, hexponent, hlength⟩ := without_sign htangent
  have hprecision := ctx.precision_pos
  have hwide : ctx.guarded.precision = ctx.precision + 10 := rfl
  refine atanOfPositive_ends (by omega) hpos (hexponent ▸ hplaces) ?_
  rw [hlength, hwide]
  omega

theorem asin_isDefined (hinside : |x.toRat| ≤ 1) (hdigits : (2 * x.digitCount : Int) < Word.greatest)
    (hone : ¬ ctx.guarded.SquareRoundsToOne x) : IsDefined (ctx.asin x) := by
  obtain hinside | hend := hinside.lt_or_eq
  · by_cases hzero : x.toRat = 0
    · rw [asin_of_zero hzero]
      exact isDefined_ok _
    · rw [asin_of_inside hzero hinside]
      exact (arcTangentArgument_isDefined (mt toRat_eq_zero.2 hzero) hinside.le hdigits
        fun hrounds => hone ⟨hinside, hrounds⟩).bind fun tangent => atan_isDefined ctx tangent
  · rw [asin_of_end hend]
    exact (quarterTurn_isDefined _).bind fun quarter => isDefined_ok _

theorem asin_ends (hone : ¬ ctx.guarded.SquareRoundsToOne x)
    (h : ctx.Ample x.digitCount x.exponent.natAbs) : ctx.AsinEnds x (ctx.precision + 22) := by
  unfold Ample at h
  have hwide : ctx.guarded.precision = ctx.precision + 10 := rfl
  have hpi : ctx.guarded.PiEnds (ctx.guarded.precision + 12) := (pi_ends ⟨by omega, by omega⟩).1
  refine ⟨fun _ => hpi.mono (by omega), fun hzero hinside => ?_⟩
  obtain ⟨tangent, htangent, hne, hexponent, hdigits⟩ :=
    arcTangentArgument_succeeds (mt toRat_eq_zero.2 hzero) hinside.le
      (fun hrounds => hone ⟨hinside, hrounds⟩) le_rfl (by omega)
  exact ⟨tangent, htangent, hne, atanEnds_of_argument hne hexponent hdigits (by omega)⟩

theorem asin_fails (hone : ctx.guarded.SquareRoundsToOne x)
    (hdigits : (2 * x.digitCount : Int) < Word.greatest) :
    ctx.asin x = .error .divisionByZero := by
  have hzero : x.toRat ≠ 0 := by
    intro hzero
    have hrounds := hone.2
    rw [hzero, zero_pow two_ne_zero, rounded, Rounding.significant_zero] at hrounds
    exact zero_ne_one hrounds
  rw [asin_of_inside hzero hone.1,
    arcTangentArgument_fails (mt toRat_eq_zero.2 hzero) hone.1.le hdigits hone.2]
  rfl

/-! ## The arc cosine -/

theorem acos_of_error {e : ArithmeticError} (h : ctx.guarded.asin x = .error e) :
    ctx.acos x = .error e := by
  obtain ⟨quarter, hquarter, -⟩ := quarterTurn_isDefined ctx.guarded
  rw [acos]
  simp only [hquarter, h]
  rfl

theorem acos_isDefined (h : IsDefined (ctx.guarded.asin x)) : IsDefined (ctx.acos x) :=
  (quarterTurn_isDefined _).bind fun _ => h.bind fun _ => isDefined_ok _

end Context

/-! ## Domains -/

inductive ArcFunction where
  | asin
  | acos

namespace ArcFunction

def apply : ArcFunction → Context → Decimal → Arithmetic Decimal
  | asin => Context.asin
  | acos => Context.acos

/-- The context in which the argument is squared. -/
def working : ArcFunction → Context → Context
  | asin, ctx => ctx.guarded
  | acos, ctx => ctx.guarded.guarded

def Ends : ArcFunction → Context → Decimal → Nat → Prop
  | asin, ctx, x, passes => ctx.AsinEnds x passes
  | acos, ctx, x, passes => ctx.guarded.PiEnds passes ∧ ctx.guarded.AsinEnds x passes

/-- The passes that are enough. -/
def passes : ArcFunction → Context → Nat
  | asin, ctx => ctx.precision + 22
  | acos, ctx => ctx.precision + 32

variable {f : ArcFunction}

theorem refuses (hx : 1 < |x.toRat|) :
    f.apply ctx x = .error (.undefined "asin" "argument must lie in [-1, 1]") := by
  cases f with
  | asin => exact Context.asin_of_outside hx
  | acos => exact Context.acos_of_error (Context.asin_of_outside hx)

theorem fails (hone : (f.working ctx).SquareRoundsToOne x)
    (hdigits : (2 * x.digitCount : Int) < Word.greatest) :
    f.apply ctx x = .error .divisionByZero := by
  cases f with
  | asin => exact Context.asin_fails hone hdigits
  | acos => exact Context.acos_of_error (Context.asin_fails hone hdigits)

theorem apply_isDefined (hinside : |x.toRat| ≤ 1)
    (hdigits : (2 * x.digitCount : Int) < Word.greatest)
    (hone : ¬ (f.working ctx).SquareRoundsToOne x) : IsDefined (f.apply ctx x) := by
  cases f with
  | asin => exact Context.asin_isDefined hinside hdigits hone
  | acos => exact Context.acos_isDefined (Context.asin_isDefined hinside hdigits hone)

theorem ends (hone : ¬ (f.working ctx).SquareRoundsToOne x)
    (h : ctx.Ample (x.digitCount + 10) x.exponent.natAbs) : f.Ends ctx x (f.passes ctx) := by
  unfold Context.Ample at h
  have hwide : ctx.guarded.precision = ctx.precision + 10 := rfl
  cases f with
  | asin => exact Context.asin_ends hone (by unfold Context.Ample; omega)
  | acos =>
    have hpi : ctx.guarded.PiEnds (ctx.guarded.precision + 12) :=
      (Context.pi_ends ⟨by omega, by omega⟩).1
    exact ⟨hpi.mono (by rw [hwide]; exact Nat.le_add_right _ 10),
      Context.asin_ends hone (by unfold Context.Ample; omega)⟩

/-- An arc sine or arc cosine is refused outside the interval. Inside, it comes out after so many
passes of its loops, unless the square of the argument is rounded to one. Then it fails as a division by
zero. That never happens to an argument with no more digits than its square is rounded to, nor for the
two modes that take digits away from a positive number. -/
theorem outcome (f : ArcFunction) (ctx : Context) (x : Decimal)
    (hroom : ctx.Ample (x.digitCount + 10) x.exponent.natAbs) :
    (1 < |x.toRat| →
      f.apply ctx x = .error (.undefined "asin" "argument must lie in [-1, 1]")) ∧
    (|x.toRat| ≤ 1 → ¬ (f.working ctx).SquareRoundsToOne x →
      IsDefined (f.apply ctx x) ∧ f.Ends ctx x (f.passes ctx)) ∧
    ((f.working ctx).SquareRoundsToOne x → f.apply ctx x = .error .divisionByZero) ∧
    (ctx.rounding = .down ∨ ctx.rounding = .floor ∨ x.digitCount ≤ (f.working ctx).precision →
      ¬ (f.working ctx).SquareRoundsToOne x) := by
  have hmode : (f.working ctx).rounding = ctx.rounding := by cases f <;> rfl
  have hdigits : (2 * x.digitCount : Int) < Word.greatest := by
    unfold Context.Ample at hroom
    omega
  refine ⟨refuses, fun hinside hone => ⟨apply_isDefined hinside hdigits hone, ends hone hroom⟩,
    fun hone => fails hone hdigits, fun h => Context.not_squareRoundsToOne ?_⟩
  rwa [hmode]

theorem outcome_of_standard :
    Context.standard.Ample ((ofScaled 5 1).digitCount + 10) (ofScaled 5 1).exponent.natAbs ∧
      IsDefined (asin.apply .standard (ofScaled 5 1)) := by
  have hroom : Context.standard.Ample ((ofScaled 5 1).digitCount + 10)
      (ofScaled 5 1).exponent.natAbs := by
    have hdigits : (ofScaled 5 1).digitCount = 1 := by decide +kernel
    have hexponent : (ofScaled 5 1).exponent = -1 := by decide +kernel
    rw [hdigits, hexponent]
    unfold Context.Ample
    decide
  obtain ⟨-, hinside, -, hone⟩ := outcome asin .standard (ofScaled 5 1) hroom
  refine ⟨hroom, (hinside ?_ (hone (.inr (.inr (by decide +kernel))))).1⟩
  rw [toRat_ofScaled _ (by decide)]
  norm_num [abs_le]

/-- Twelve nines behind the point, for an answer of one digit: the square is rounded to one. -/
theorem asin_next_to_one_fails :
    |(ofScaled 999999999999 12).toRat| ≤ 1 ∧
      Context.asin ⟨1, .halfEven, by decide⟩ (ofScaled 999999999999 12) =
        .error .divisionByZero := by
  refine ⟨?_, by decide +kernel⟩
  rw [toRat_ofScaled _ (by decide)]
  norm_num [abs_le]

end ArcFunction

end Reckoner
