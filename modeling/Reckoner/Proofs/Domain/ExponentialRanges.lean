import Reckoner.Proofs.Accuracy.SeriesSums
import Reckoner.Proofs.Loops.Exponentials
import Reckoner.Proofs.Rounding.Projection

/-!
# Ranges of exponentials

No term of the exponential series is negative, so its sums stay above one in every mode, and so do
their squares. The reciprocal of such a number is no greater than one. The hyperbolic tangent
compares two rounded neighbours of an exponential, which is not so great that one of them stops at
the lower end of the scales.
-/

namespace Reckoner

open Integer Decimal

namespace Context

variable {ctx : Context} {x y z : Decimal} {series : Series} {k : Nat}

/-! ## Sums and squares -/

/-- A bounded sum has what every pass keeps. -/
theorem sumFrom_succeeds {J : Decimal → Decimal → Prop}
    (hpass : ∀ k factor sum, 0 < k → J factor sum → Succeeds (series.next k factor) fun next =>
      Succeeds (series.term k next) fun term => J next (ctx.add sum term))
    (limit : Nat) (hk : 0 < k) {factor sum : Decimal} (h : J factor sum) :
    Succeeds (ctx.sumFrom series limit k factor sum) fun result => ∃ factor, J factor result := by
  induction limit generalizing k factor sum with
  | zero => exact succeeds_ok ⟨factor, h⟩
  | succ limit ih =>
    unfold sumFrom
    refine (hpass k factor sum hk h).bind fun next hnext => hnext.bind fun term hJ => ?_
    split
    · exact succeeds_ok ⟨factor, h⟩
    · exact ih k.succ_pos hJ

theorem expSeries_next_nonneg (ctx : Context) (hx : 0 ≤ x.toRat) (hk : 0 < k) (hy : 0 ≤ y.toRat) :
    Succeeds (ctx.div (ctx.mul y x) (ofNat k)) fun next => 0 ≤ next.toRat := by
  obtain ⟨next, hnext, -⟩ : IsDefined (ctx.div (ctx.mul y x) (ofNat k)) := div_ofNat_isDefined hk
  refine ⟨next, hnext, toRat_div_ofNat_nonneg ctx hk ?_ hnext⟩
  rw [← sign_nonneg_iff, sign_mul]
  exact mul_nonneg (sign_nonneg_iff.2 hy) (sign_nonneg_iff.2 hx)

theorem one_le_expSum (ctx : Context) (hx : 0 ≤ x.toRat) :
    Succeeds (ctx.sumSeries (ctx.expSeries x) 1) fun sum => 1 ≤ sum.toRat := by
  have hsum : Succeeds (ctx.sumSeries (ctx.expSeries x) 1) fun sum =>
      ∃ factor : Decimal, 0 ≤ factor.toRat ∧ 1 ≤ sum.toRat :=
    sumFrom_succeeds (fun k factor sum hk h => ?_) termLimit one_pos
      (by rw [toRat_one]; decide +kernel)
  · exact hsum.imp fun sum ⟨_, _, hle⟩ => hle
  · refine (expSeries_next_nonneg ctx hx hk h.1).imp fun next hnext => ?_
    exact succeeds_ok ⟨hnext, one_le_toRat_add h.2 hnext⟩

theorem halve_nonneg (hx : 0 ≤ x.toRat) (limit : Nat) : 0 ≤ (halve limit x).1.toRat := by
  induction limit generalizing x with
  | zero => exact hx
  | succ limit ih =>
    unfold halve
    split
    · refine ih ?_
      rw [← sign_nonneg_iff] at hx ⊢
      exact (mul_nonneg hx (by decide : 0 ≤ half.sign)).trans_eq
        (Int.sign_mul x.unscaled half.unscaled).symm
    · exact hx

theorem one_le_squares (hx : 1 ≤ x.toRat) (count : Nat) :
    1 ≤ (Nat.repeat (fun s => ctx.mul s s) count x).toRat := by
  induction count with
  | zero => exact hx
  | succ count ih => exact one_le_toRat_mul ih ih

theorem one_le_expOfPositive (ctx : Context) (hx : 0 ≤ x.toRat) :
    Succeeds (ctx.expOfPositive x) fun y => 1 ≤ y.toRat := by
  have hreduced := halve_nonneg hx 64
  unfold expOfPositive
  generalize halve 64 x = halved at *
  have hrounded : 0 ≤ ((ctx.wider (guardDigits + halved.2)).round halved.1).toRat :=
    toRat_round_nonneg hreduced
  refine (one_le_expSum _ hrounded).bind fun sum hsum => succeeds_ok ?_
  exact one_le_roundTo ctx.precision_pos (one_le_squares hsum _)

/-! ## The exponential function -/

theorem one_div_bounds (hprecision : ctx.precision ≤ 3 * 10 ^ 18) (hy : 1 ≤ y.toRat) :
    Succeeds (ctx.div 1 y) fun z => 0 < z.toRat ∧ z.toRat ≤ 1 := by
  have hone : (0 : ℚ) < (1 : Decimal).toRat := by rw [toRat_one]; exact one_pos
  have hypos : 0 < y.toRat := by linarith
  have hscales : Word.least ≤ (1 : Decimal).scale - y.scale := by
    have hscale := y.scale_fits.2
    change Word.least ≤ 0 - y.scale
    unfold Word.least Word.greatest at *
    omega
  have hvalue : |(1 : Decimal).toRat / y.toRat| ≤ 1 := by
    rw [toRat_one, abs_of_pos (one_div_pos.2 hypos)]
    exact (div_le_one hypos).2 hy
  have hspeck : (10 : ℚ) ^ (((ctx.precision + (1 : Decimal).digitCount + 5 : Nat) : Int) -
      Word.greatest) ≤ 1 := by
    have hdigits : (1 : Decimal).digitCount = 1 := digitCount_pow 0
    refine zpow_le_one_of_nonpos₀ (by norm_num) ?_
    rw [hdigits]
    unfold Word.greatest
    omega
  obtain ⟨z, hz, hpos⟩ : Succeeds (ctx.div 1 y) fun z => 0 < z.toRat :=
    toRat_div_pos (.inl ⟨hone, hypos⟩)
  obtain ⟨z', hz', hle, -⟩ := abs_div_le (mt toRat_eq_zero.2 hypos.ne') (fun _ => hscales)
    (Rounding.short_one ctx.precision_pos) hvalue hspeck
  obtain rfl : z = z' := Except.ok.inj (hz.symm.trans hz')
  exact ⟨z, hz, hpos, (le_abs_self _).trans hle⟩

theorem exp_of_large (h : exponentLimit < x.exponent) : ctx.exp x = .error .exponentTooLarge := by
  have hx : ¬ x.isZero = true := by
    intro hzero
    rw [exponent, if_pos (beq_iff_eq.1 hzero)] at h
    exact absurd h (by decide)
  rw [exp, if_neg hx, if_pos h]

theorem exp_succeeds (ctx : Context) (hexponent : x.exponent ≤ exponentLimit)
    (hprecision : ctx.precision ≤ 3 * 10 ^ 18) :
    Succeeds (ctx.exp x) fun y =>
      0 < y.toRat ∧ (0 ≤ x.toRat → 1 ≤ y.toRat) ∧ (x.toRat ≤ 0 → y.toRat ≤ 1) := by
  unfold exp
  split
  · refine succeeds_ok ?_
    rw [toRat_one]
    exact ⟨one_pos, fun _ => le_rfl, fun _ => le_rfl⟩
  next hzero =>
  rw [isZero_iff] at hzero
  rw [if_neg hexponent.not_gt]
  split
  · next hneg =>
    rw [isNegative_iff] at hneg
    have hpositive : 0 ≤ (-x).toRat := by rw [toRat_neg]; linarith
    refine (one_le_expOfPositive ctx.guarded hpositive).bind fun positive hle => ?_
    refine (one_div_bounds hprecision hle).imp fun y hy => ?_
    exact ⟨hy.1, fun hx => absurd hneg hx.not_gt, fun _ => hy.2⟩
  · next hneg =>
    rw [isNegative_iff, not_lt] at hneg
    refine (one_le_expOfPositive ctx hneg).imp fun y hy => ?_
    exact ⟨by linarith, fun _ => hy, fun hx => absurd (le_antisymm hx hneg) hzero⟩

theorem exp_error_iff (hprecision : ctx.precision ≤ 3 * 10 ^ 18) (error : ArithmeticError) :
    ctx.exp x = .error error ↔ error = .exponentTooLarge ∧ exponentLimit < x.exponent := by
  obtain hle | hlt := le_or_gt x.exponent exponentLimit
  · obtain ⟨y, hy, -⟩ := exp_succeeds ctx hle hprecision
    rw [hy]
    exact iff_of_false nofun fun h => hle.not_gt h.2
  · rw [exp_of_large hlt]
    exact ⟨fun h => ⟨(Except.error.inj h).symm, hlt⟩, fun h => by rw [h.1]⟩

/-! ## An upper bound -/

theorem short_of_le_precision {n : Nat} (hprecision : 2 ≤ ctx.precision)
    (hn : n ≤ ctx.precision + 70) : Rounding.Short ctx.precision (n : ℚ) := by
  obtain ⟨m, hm⟩ := Nat.exists_eq_add_of_le hprecision
  have hpow : m < 10 ^ m := Nat.lt_pow_self (by decide)
  have hle : |(n : Int)| ≤ 10 ^ ctx.precision := by
    rw [Nat.abs_cast, hm, pow_add]
    norm_cast
    omega
  have hshort := Rounding.short_of_abs_le (K := ℚ) ctx.precision_pos hle 0
  rwa [zpow_zero, mul_one, Int.cast_natCast] at hshort

/-- The terms of the series are at most one, so that its sum is no greater than their number. -/
theorem expSum_le (hprecision : 2 ≤ ctx.precision) (hlarge : ctx.precision ≤ 4 * 10 ^ 18)
    (hx : 0 ≤ x.toRat ∧ x.toRat ≤ 1) (hdigits : x.digitCount ≤ ctx.precision) {sum : Decimal}
    (hends : EndsWithin (ctx.seriesPass (ctx.expSeries x)) (ctx.precision + 66) (1, 1, 1) sum) :
    |sum.toRat| ≤ 10 ^ 19 ∧ sum.digitCount ≤ ctx.precision := by
  have hspacious : ctx.Spacious ctx.precision 0 := ⟨le_rfl, by unfold Word.greatest; omega⟩
  have hshrinks := expSeries_shrinks hspacious hx.1 hx.2 hdigits
  have hone : (1 : Decimal).digitCount ≤ ctx.precision := (digitCount_pow 0).trans_le ctx.precision_pos
  -- no factor is above one, so after `i` passes the sum is at most `i + 1`
  refine sum_of_invariant (J := fun i factor sum =>
    (|factor.toRat| ≤ 10 ^ (0 : Int) ∧ AtMost ctx.precision factor ∧ 0 ≤ factor.toRat) ∧
      0 ≤ sum.toRat ∧ sum.toRat ≤ (i + 1 : Nat) ∧ sum.digitCount ≤ ctx.precision)
    (Q := fun sum => |sum.toRat| ≤ 10 ^ 19 ∧ sum.digitCount ≤ ctx.precision) hends ?_ ?_
  · rintro i factor sum hi ⟨⟨hsize, hfactor⟩, hsum, hle, hsumDigits⟩
    obtain ⟨next, hnext, hbound, hnextDigits, hnonneg⟩ :=
      hshrinks.next i.succ_pos le_rfl hsize hfactor
    have hterm : |next.toRat| ≤ 10 ^ (0 : Int) :=
      hbound.trans (zpow_le_zpow_right₀ (by norm_num) (by split <;> omega))
    have hcount : ((i + 1 : Nat) : ℚ) ≤ 10 ^ 19 := by
      exact_mod_cast (show i + 1 ≤ 10 ^ 19 by omega)
    have hsumSize : |sum.toRat| ≤ 10 ^ 19 := by
      rw [abs_of_nonneg hsum]
      exact hle.trans hcount
    refine ⟨next, next, hnext, rfl, fun _ => ⟨hsumSize, hsumDigits⟩, fun _ => ?_⟩
    have hnextSize : |next.toRat| ≤ 10 ^ 19 := by
      refine hterm.trans ?_
      norm_num
    refine ⟨⟨hterm, hnextDigits, hnonneg⟩, toRat_add_nonneg (add_nonneg hsum hnonneg), ?_,
      digitCount_add_le⟩
    rw [value_add (Traced.fits_add_of_abs_le hsumSize hnextSize (by decide))]
    refine (short_of_le_precision hprecision (by omega)).significant_le ctx.precision_pos ?_
    rw [zpow_zero, abs_of_nonneg hnonneg] at hterm
    push_cast at hle ⊢
    linarith
  · rw [toRat_one]
    exact ⟨⟨by norm_num, hone, zero_le_one⟩, zero_le_one, by norm_num, hone⟩

/-- Each square doubles the exponent of a bound. -/
theorem squares_le (hprecision : 2 * ctx.precision ≤ 9 * 10 ^ 18) {m : Nat}
    (hx : |x.toRat| ≤ 10 ^ m) (hdigits : x.digitCount ≤ ctx.precision) (count : Nat) :
    |(Nat.repeat (fun s => ctx.mul s s) count x).toRat| ≤ 10 ^ (m * 2 ^ count) ∧
      (Nat.repeat (fun s => ctx.mul s s) count x).digitCount ≤ ctx.precision := by
  induction count with
  | zero => simpa using ⟨hx, hdigits⟩
  | succ count ih =>
    obtain ⟨hle, hcount⟩ := ih
    change |(ctx.mul _ _).toRat| ≤ _ ∧ _
    refine ⟨?_, digitCount_mul_le⟩
    rw [← zpow_natCast] at hle ⊢
    refine (mul_le_pow ctx hle hle ?_).1.trans_eq ?_
    · unfold Word.greatest
      push_cast
      have : 0 ≤ (m : Int) * 2 ^ count := by positivity
      omega
    · congr 1
      push_cast
      ring

/-- No exponential has more places before its point. -/
def exponentialPlaces : Nat := 19 * 2 ^ 55

theorem expOfPositive_le (ctx : Context) (hx : 0 ≤ x.toRat) (hexponent : x.exponent ≤ exponentLimit)
    (hdigits : (x.digitCount + 60 : Int) ≤ Word.greatest) (hprecision : ctx.precision ≤ 3 * 10 ^ 18) :
    Succeeds (ctx.expOfPositive x) fun y => |y.toRat| ≤ 10 ^ exponentialPlaces := by
  have hends : ctx.ExpOfPositiveEnds x (ctx.precision + 76) :=
    expOfPositive_ends hx hexponent hdigits (by unfold Word.greatest; omega)
  obtain ⟨reduced, count, sum, hhalving, hsum, hresult⟩ := hends
  obtain ⟨reduced', count', hhalving', hcount, hnonneg, hhalf, -⟩ :=
    Reduction.halving_ends hx hexponent hdigits
  obtain ⟨rfl, rfl⟩ := Prod.mk.inj (hhalving.unique hhalving')
  have hwide : (ctx.wider (guardDigits + count)).precision = ctx.precision + (10 + count) := rfl
  have hrounded : 0 ≤ ((ctx.wider (guardDigits + count)).round reduced).toRat :=
    toRat_round_nonneg hnonneg
  have hone : ((ctx.wider (guardDigits + count)).round reduced).toRat ≤ 1 := by
    refine (le_abs_self _).trans (abs_round_le (Rounding.short_one (precision_pos _)) ?_)
    rw [abs_of_nonneg hnonneg]
    linarith
  obtain ⟨hsumLe, hsumDigits⟩ := expSum_le (by omega) (by omega) ⟨hrounded, hone⟩
    digitCount_round_le (hsum.mono (by omega))
  refine ⟨_, hresult, abs_round_le ?_ ?_⟩
  · rw [← zpow_natCast]
    exact Rounding.short_pow ctx.precision_pos _
  · refine (squares_le (by omega) hsumLe hsumDigits count).1.trans ?_
    refine pow_le_pow_right₀ (by norm_num) (Nat.mul_le_mul_left 19 ?_)
    exact Nat.pow_le_pow_right (by decide) hcount

theorem exp_le (hdigits : (x.digitCount + 60 : Int) ≤ Word.greatest)
    (hprecision : ctx.precision ≤ 2 * 10 ^ 18 + 10) (hexponent : x.exponent ≤ exponentLimit)
    (hy : ctx.exp x = .ok y) : |y.toRat| ≤ 10 ^ exponentialPlaces := by
  have hone : (1 : ℚ) ≤ 10 ^ exponentialPlaces := one_le_pow₀ (by norm_num)
  obtain hneg | hpos := le_or_gt x.toRat 0
  · obtain ⟨z, hz, hpos, -, hle⟩ := exp_succeeds ctx hexponent (by omega)
    obtain rfl : z = y := Except.ok.inj (hz.symm.trans hy)
    rw [abs_of_pos hpos]
    exact (hle hneg).trans hone
  · unfold exp at hy
    rw [if_neg (by rw [isZero_iff]; exact hpos.ne'), if_neg hexponent.not_gt,
      if_neg (by rw [isNegative_iff]; exact hpos.not_gt)] at hy
    obtain ⟨z, hz, hle⟩ := expOfPositive_le ctx hpos.le hexponent hdigits (by omega)
    obtain rfl : z = y := Except.ok.inj (hz.symm.trans hy)
    exact hle

/-! ## The hyperbolic tangent -/

/-- What the rounded neighbours of a positive number have to do with each other. -/
structure Neighbours (ctx : Context) (x : Decimal) : Prop where
  one_le_upper : 1 ≤ (ctx.add x 1).toRat
  lower_le_upper : |(ctx.sub x 1).toRat| ≤ (ctx.add x 1).toRat
  lower_le : |(ctx.sub x 1).toRat| ≤ 10 ^ exponentialPlaces

theorem neighbours (hpos : 0 < x.toRat) (hx : |x.toRat| ≤ 10 ^ exponentialPlaces) :
    ctx.Neighbours x := by
  have hone : (1 : ℚ) ≤ 10 ^ exponentialPlaces := one_le_pow₀ (by norm_num)
  have honeSize : |(1 : Decimal).toRat| ≤ 10 ^ exponentialPlaces := by rwa [toRat_one, abs_one]
  have hadd := value_add_of_abs_le ctx hx honeSize (by decide)
  have hsub := value_sub_of_abs_le ctx hx honeSize (by decide)
  rw [toRat_one] at hadd hsub
  have hshort : Rounding.Short ctx.precision (1 : ℚ) := Rounding.short_one ctx.precision_pos
  have hupper : 1 ≤ (ctx.add x 1).toRat := by
    rw [hadd]
    exact hshort.le_significant ctx.precision_pos (by linarith)
  rw [abs_of_pos hpos] at hx
  refine ⟨hupper, ?_, ?_⟩
  · obtain hle | hlt := le_or_gt 1 x.toRat
    · rw [abs_of_nonneg (toRat_sub_nonneg (by rwa [toRat_one])), hsub, hadd]
      exact rounded_mono ctx (by linarith)
    · rw [hsub]
      refine le_trans (abs_rounded_le hshort ?_) hupper
      rw [abs_le]
      constructor <;> linarith
  · rw [hsub, ← zpow_natCast]
    refine abs_rounded_le (Rounding.short_pow ctx.precision_pos _) ?_
    rw [zpow_natCast, abs_le]
    constructor <;> linarith

/-- The quotient of the neighbours, in a context with fewer digits. -/
theorem div_neighbours {wide : Context} (h : wide.Neighbours x)
    (hprecision : ctx.precision ≤ wide.precision) (hwide : wide.precision ≤ 2 * 10 ^ 18 + 10) :
    Succeeds (ctx.div (wide.sub x 1) (wide.add x 1)) fun z =>
      |z.toRat| ≤ 1 ∧ z.sign = (wide.sub x 1).sign := by
  have hpos : 0 < (wide.add x 1).toRat := one_pos.trans_le h.one_le_upper
  have hlowerDigits : (wide.sub x 1).digitCount ≤ wide.precision := digitCount_add_le
  have hupperDigits : (wide.add x 1).digitCount ≤ wide.precision := digitCount_add_le
  -- both neighbours lie inside the places of an exponential, so their scales are not far apart
  have hscales (hne : (wide.sub x 1).unscaled ≠ 0) :
      Word.least ≤ (wide.sub x 1).scale - (wide.add x 1).scale := by
    have hupper := Reduction.scale_le_of_half_lt
      ((show (1 / 2 : ℚ) < 1 by norm_num).trans_le h.one_le_upper)
    have hlower : ((wide.sub x 1).digitCount : Int) - 1 - (wide.sub x 1).scale ≤ exponentialPlaces := by
      refine (zpow_le_zpow_iff_right₀ (show (1 : ℚ) < 10 by norm_num)).1 ?_
      rw [zpow_natCast]
      exact (pow_le_abs_toRat hne).trans h.lower_le
    have hdigit : 0 < (wide.sub x 1).digitCount := digitCount_pos _
    unfold exponentialPlaces at hlower
    unfold Word.least
    omega
  have hvalue : |(wide.sub x 1).toRat / (wide.add x 1).toRat| ≤ 1 := by
    rw [abs_div, abs_of_pos hpos]
    exact (div_le_one hpos).2 h.lower_le_upper
  have hspeck : (10 : ℚ) ^ (((ctx.precision + (wide.sub x 1).digitCount + 5 : Nat) : Int) -
      Word.greatest) ≤ 1 := by
    refine zpow_le_one_of_nonpos₀ (by norm_num) ?_
    unfold Word.greatest
    omega
  have hsign : (wide.add x 1).sign = 1 := sign_of_pos hpos
  obtain ⟨z, hz, hle, -⟩ := abs_div_le (mt toRat_eq_zero.2 hpos.ne') hscales
    (Rounding.short_one ctx.precision_pos) hvalue hspeck
  obtain ⟨z', hz', hzsign⟩ := div_sign ctx (wide.sub x 1) (y := wide.add x 1) (by rw [hsign]; decide)
  obtain rfl : z = z' := Except.ok.inj (hz.symm.trans hz')
  exact ⟨z, hz, hle, by rw [hzsign, hsign, mul_one]⟩

theorem double_neg_iff (ctx : Context) : (ctx.mul x 2).toRat < 0 ↔ x.toRat < 0 := by
  rw [← sign_neg_iff, sign_mul, show (2 : Decimal).sign = 1 from rfl, mul_one, sign_neg_iff]

/-- The exponential of a doubled argument is refused only from the greatest exponent on. -/
theorem exponent_double_le (ctx : Context) (h : x.exponent < exponentLimit) :
    (ctx.mul x 2).exponent ≤ exponentLimit := by
  have hsize : |x.toRat * (2 : Int)| ≤ 2 * 10 ^ 15 := by
    have hlt := abs_toRat_lt_exponent (h.trans (by decide))
    have hle : (10 : ℚ) ^ (x.exponent + 1) ≤ 10 ^ (15 : Int) := zpow_le_zpow_right₀ (by norm_num) h
    rw [Int.cast_ofNat, abs_mul, abs_two]
    linarith [show (10 : ℚ) ^ (15 : Int) = 10 ^ 15 from rfl]
  have hshort : Rounding.Short ctx.precision (2 * 10 ^ 15 : ℚ) :=
    Rounding.short_of_digit (n := 2) (k := 15) ctx.precision_pos (by decide) (by norm_num)
  have hvalue : (ctx.mul x 2).toRat = _ :=
    ctx.value_mul_ofInt (m := 16) (hsize.trans (by norm_num)) (by decide)
  have hdouble : |(ctx.mul x 2).toRat| < 10 ^ (16 : Int) := by
    rw [hvalue]
    exact (abs_rounded_le hshort hsize).trans_lt (by norm_num)
  exact Int.lt_add_one_iff.1 (exponent_lt_of_abs_lt_pow (by decide) hdouble)

/-- Behind the exponential of the doubled argument nothing fails. -/
theorem tanh_succeeds (hprecision : ctx.precision ≤ 10 ^ 18) (hplaces : -10 ^ 18 ≤ x.exponent)
    (hexponent : ((ctx.forCancellation x).mul x 2).exponent ≤ exponentLimit) :
    Succeeds (ctx.tanh x) fun y => |y.toRat| ≤ 1 ∧ 0 ≤ x.toRat * y.toRat := by
  have hwide : (ctx.forCancellation x).precision = ctx.precision + 10 + (-x.exponent).toNat := rfl
  unfold tanh
  split
  · refine succeeds_ok ?_
    rw [toRat_zero, abs_zero, mul_zero]
    exact ⟨zero_le_one, le_rfl⟩
  simp only
  generalize ctx.forCancellation x = wide at *
  have hdigits : (wide.mul x 2).digitCount ≤ wide.precision := digitCount_mul_le
  obtain ⟨grow, hgrow, hpos, hlower, hupper⟩ := exp_succeeds wide hexponent (by omega)
  have hbound := exp_le (by unfold Word.greatest; omega) (by omega) hexponent hgrow
  rw [hgrow]
  refine (div_neighbours (neighbours hpos hbound) (by omega) (by omega)).imp fun y hy => ⟨hy.1, ?_⟩
  obtain hneg | hnonneg := lt_or_ge x.toRat 0
  · have hdouble := (double_neg_iff wide).2 hneg
    have hle : (wide.sub grow 1).toRat ≤ 0 :=
      toRat_sub_nonpos (by rw [toRat_one]; exact hupper hdouble.le)
    refine mul_nonneg_of_nonpos_of_nonpos hneg.le ?_
    rwa [← not_lt, ← sign_pos_iff, hy.2, sign_pos_iff, not_lt]
  · have hdouble := not_lt.1 ((double_neg_iff wide).not.2 hnonneg.not_gt)
    have hle : 0 ≤ (wide.sub grow 1).toRat :=
      toRat_sub_nonneg (by rw [toRat_one]; exact hlower hdouble)
    refine mul_nonneg hnonneg ?_
    rwa [← sign_nonneg_iff, hy.2, sign_nonneg_iff]

theorem tanh_of_large (hx : x.isZero = false)
    (h : exponentLimit < ((ctx.forCancellation x).mul x 2).exponent) :
    ctx.tanh x = .error .exponentTooLarge := by
  rw [tanh, if_neg (by rw [hx]; decide)]
  simp only [exp_of_large h]
  rfl

/-! ## Ranges -/

end Context

end Reckoner
