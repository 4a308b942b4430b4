import Mathlib.Analysis.Complex.ExponentialBounds
import Mathlib.Analysis.SpecialFunctions.Trigonometric.Series
import Reckoner.Context.Angle
import Reckoner.Proofs.Accuracy.SeriesSums
import Reckoner.Proofs.Loops.Angles

/-!
# Series of the functions of an angle

The Taylor sums of sine and cosine between -10 and 10, and how far the computed sums are from them. No
Taylor sum is greater than one by more than a multiple of the first term that it leaves out, so all
errors together are counted in units of one rounding: two for each pass, and a constant.
-/

namespace Reckoner

open Decimal
open scoped Nat

/-- The functions whose series alternate in the powers of an angle. -/
inductive AngleFunction where
  | sin
  | cos

namespace AngleFunction

def apply : AngleFunction → Context → Decimal → Arithmetic Decimal
  | sin => Context.sin
  | cos => Context.cos

def series : AngleFunction → Context → Decimal → Series
  | sin => Context.sinSeries
  | cos => Context.cosSeries

/-- The term before the first pass. -/
def first : AngleFunction → Decimal → Decimal
  | sin, x => x
  | cos, _ => 1

/-- The exponent of the first term. -/
def parity : AngleFunction → Nat
  | sin => 1
  | cos => 0

noncomputable def value : AngleFunction → ℝ → ℝ
  | sin => Real.sin
  | cos => Real.cos

/-! ## Taylor sums -/

variable {f : AngleFunction} {x : ℚ} {n : Nat}

def taylorTerm (f : AngleFunction) (x : ℚ) (k : Nat) : ℚ :=
  (-1) ^ k * x ^ (2 * k + f.parity) / (2 * k + f.parity)!

def taylorSum (f : AngleFunction) (x : ℚ) (n : Nat) : ℚ := ∑ k ∈ Finset.range n, f.taylorTerm x k

/-- The two factors that the factorial gains. -/
def divisor (f : AngleFunction) (k : Nat) : Nat := (2 * k + f.parity + 1) * (2 * k + f.parity + 2)

theorem taylorTerm_succ (f : AngleFunction) (x : ℚ) (k : Nat) :
    f.taylorTerm x (k + 1) = -(f.taylorTerm x k * x ^ 2 / f.divisor k) := by
  have hfactorial : ((2 * (k + 1) + f.parity)! : ℚ) =
      (2 * k + f.parity + 2) * ((2 * k + f.parity + 1) * (2 * k + f.parity)!) := by
    rw [show 2 * (k + 1) + f.parity = 2 * k + f.parity + 1 + 1 by ring, Nat.factorial_succ,
      Nat.factorial_succ]
    push_cast
    ring
  rw [taylorTerm, taylorTerm, hfactorial, divisor]
  push_cast
  have h1 : (2 * k + f.parity + 1 : ℚ) ≠ 0 := by positivity
  have h2 : (2 * k + f.parity + 2 : ℚ) ≠ 0 := by positivity
  field_simp
  ring

theorem taylorSum_succ (f : AngleFunction) (x : ℚ) (n : Nat) :
    f.taylorSum x (n + 1) = f.taylorSum x n + f.taylorTerm x n := Finset.sum_range_succ _ n

/-! ### Sizes -/

/-- A bound on all terms with an exponent. -/
def termBound (m : Nat) : ℚ := 10 ^ m / m !

theorem termBound_nonneg (m : Nat) : 0 ≤ termBound m := by
  unfold termBound
  positivity

theorem exp_ten_lt : Real.exp 10 < 22027 := by
  rw [show (10 : ℝ) = (10 : Nat) * 1 by norm_num, Real.exp_nat_mul]
  calc Real.exp 1 ^ 10 ≤ 2.7182818286 ^ 10 :=
        pow_le_pow_left₀ (Real.exp_pos 1).le Real.exp_one_lt_d9.le 10
    _ < 22027 := by norm_num

theorem sum_termBound_le (n : Nat) : ∑ m ∈ Finset.range n, termBound m ≤ 22027 := by
  have hexp := (Real.sum_le_exp_of_nonneg (x := 10) (by norm_num) n).trans exp_ten_lt.le
  have hcast : ((∑ m ∈ Finset.range n, termBound m : ℚ) : ℝ) =
      ∑ m ∈ Finset.range n, (10 : ℝ) ^ m / (m ! : Nat) := by
    unfold termBound
    push_cast
    rfl
  rw [← hcast] at hexp
  exact_mod_cast hexp

/-- Every other bound from one on. -/
theorem sum_termBound_every_other_le (b n : Nat) :
    ∑ k ∈ Finset.range n, termBound (2 * k + b) ≤ 22027 := by
  refine le_trans ?_ (sum_termBound_le (2 * n + b))
  induction n with
  | zero => exact Finset.sum_nonneg fun m _ => termBound_nonneg m
  | succ n ih =>
    rw [Finset.sum_range_succ, show 2 * (n + 1) + b = 2 * n + b + 1 + 1 by ring,
      Finset.sum_range_succ, Finset.sum_range_succ]
    linarith [termBound_nonneg (2 * n + b + 1)]

theorem termBound_le (m : Nat) : termBound m ≤ 22027 := by
  refine le_trans ?_ (sum_termBound_le (m + 1))
  exact Finset.single_le_sum (fun m _ => termBound_nonneg m) (Finset.self_mem_range_succ m)

theorem abs_taylorTerm (f : AngleFunction) (x : ℚ) (k : Nat) :
    |f.taylorTerm x k| = |x| ^ (2 * k + f.parity) / (2 * k + f.parity)! := by
  rw [taylorTerm, abs_div, abs_mul, abs_pow, abs_pow, abs_neg, abs_one, one_pow, one_mul,
    Nat.abs_cast]

theorem abs_taylorTerm_le (hx : |x| ≤ 10) (k : Nat) :
    |f.taylorTerm x k| ≤ termBound (2 * k + f.parity) := by
  rw [abs_taylorTerm]
  exact div_le_div_of_nonneg_right (pow_le_pow_left₀ (abs_nonneg x) hx _) (by positivity)

/-! ### Distance from the function -/

theorem hasSum_value (f : AngleFunction) (y : ℝ) :
    HasSum (fun k : Nat => (-1) ^ k * y ^ (2 * k + f.parity) / (2 * k + f.parity)!) (f.value y) := by
  cases f with
  | sin => exact Real.hasSum_sin y
  | cos => exact Real.hasSum_cos y

theorem abs_value_le_one (f : AngleFunction) (y : ℝ) : |f.value y| ≤ 1 := by
  cases f with
  | sin => exact Real.abs_sin_le_one y
  | cos => exact Real.abs_cos_le_one y

theorem cosh_le {y : ℝ} (hy : 0 ≤ y) (hten : y ≤ 10) : Real.cosh y ≤ 22027 := by
  have hdecay := Real.exp_le_exp.2 (neg_le_self hy)
  have hgrowth := Real.exp_le_exp.2 hten
  rw [Real.cosh_eq]
  linarith [exp_ten_lt]

/-- Later terms over a term are no greater than those of the hyperbolic cosine. -/
theorem later_term_le {y : ℝ} (hy : 0 ≤ y) (m i : Nat) :
    y ^ (m + 2 * i) / (m + 2 * i)! ≤ y ^ m / m ! * (y ^ (2 * i) / (2 * i)!) := by
  have hfactorial : ((m ! * (2 * i)! : Nat) : ℝ) ≤ ((m + 2 * i)! : Nat) := by
    exact_mod_cast Nat.le_of_dvd (Nat.factorial_pos _) (Nat.factorial_mul_factorial_dvd_factorial_add m _)
  rw [div_mul_div_comm, pow_add]
  refine div_le_div_of_nonneg_left (by positivity) (by positivity) ?_
  exact_mod_cast hfactorial

theorem abs_value_sub_taylorSum_le (hx : |x| ≤ 10) (n : Nat) :
    |f.value x - (f.taylorSum x n : ℚ)| ≤ 22027 * |(f.taylorTerm x n : ℚ)| := by
  have hten : |(x : ℝ)| ≤ 10 := by exact_mod_cast hx
  have hterm : ((|f.taylorTerm x n| : ℚ) : ℝ) =
      |(x : ℝ)| ^ (2 * n + f.parity) / ((2 * n + f.parity)! : Nat) := by
    rw [abs_taylorTerm]
    push_cast
    rfl
  have hsum : ((f.taylorSum x n : ℚ) : ℝ) = ∑ k ∈ Finset.range n,
      (-1) ^ k * (x : ℝ) ^ (2 * k + f.parity) / ((2 * k + f.parity)! : Nat) := by
    unfold taylorSum taylorTerm
    push_cast
    rfl
  have htail := (hasSum_nat_add_iff' n).2 (f.hasSum_value x)
  have hbound := ((Real.hasSum_cosh |(x : ℝ)|).mul_left
    (|(x : ℝ)| ^ (2 * n + f.parity) / ((2 * n + f.parity)! : Nat)))
  rw [← hsum] at htail
  rw [hterm, mul_comm]
  refine (htail.norm_le_of_bounded hbound fun i => ?_).trans ?_
  · rw [Real.norm_eq_abs, abs_div, abs_mul, abs_pow, abs_pow, abs_neg, abs_one, one_pow, one_mul,
      Nat.abs_cast, show 2 * (i + n) + f.parity = 2 * n + f.parity + 2 * i by ring]
    exact later_term_le (abs_nonneg _) _ i
  · exact mul_le_mul_of_nonneg_left (cosh_le (abs_nonneg _) hten) (by positivity)

/-- A Taylor sum is greater than one by no more than a multiple of the first term left out. -/
theorem abs_taylorSum_le (hx : |x| ≤ 10) (n : Nat) :
    |f.taylorSum x n| ≤ 1 + 22027 * |f.taylorTerm x n| := by
  have hreal : |((f.taylorSum x n : ℚ) : ℝ)| ≤ 1 + 22027 * |(f.taylorTerm x n : ℚ)| := by
    have htriangle := abs_sub_abs_le_abs_sub ((f.taylorSum x n : ℚ) : ℝ) (f.value x)
    rw [abs_sub_comm] at htriangle
    linarith [f.abs_value_sub_taylorSum_le hx n, f.abs_value_le_one x]
  exact_mod_cast hreal

/-! ## Computed sums -/

/-- The errors of so many passes, in units of one rounding. -/
def budget (f : AngleFunction) (i : Nat) : ℚ := ∑ j ∈ Finset.range i,
  (2 + 30 * termBound (2 * j + (f.parity + 1)) + 22027 * termBound (2 * j + (f.parity + 4)))

theorem budget_succ (f : AngleFunction) (i : Nat) : f.budget (i + 1) = f.budget i +
    (2 + 30 * termBound (2 * i + (f.parity + 1)) + 22027 * termBound (2 * i + (f.parity + 4))) :=
  Finset.sum_range_succ _ i

theorem budget_le (f : AngleFunction) (i : Nat) : f.budget i ≤ 2 * i + 5 * 10 ^ 8 := by
  unfold budget
  rw [Finset.sum_add_distrib, Finset.sum_add_distrib, Finset.sum_const, Finset.card_range,
    ← Finset.mul_sum, ← Finset.mul_sum, nsmul_eq_mul]
  linarith [sum_termBound_every_other_le (f.parity + 1) i,
    sum_termBound_every_other_le (f.parity + 4) i]

/-- The error of a term counts three roundings for each index, which its factorial takes back. -/
theorem index_mul_termBound_le (f : AngleFunction) (i : Nat) :
    6 * (i + 1) * termBound (2 * (i + 1) + f.parity) ≤ 30 * termBound (2 * i + (f.parity + 1)) := by
  have hbound : termBound (2 * (i + 1) + f.parity) =
      10 * termBound (2 * i + (f.parity + 1)) / (2 * i + f.parity + 2) := by
    rw [show 2 * (i + 1) + f.parity = 2 * i + (f.parity + 1) + 1 by ring, termBound, termBound,
      Nat.factorial_succ, pow_succ]
    push_cast
    field_simp
    ring
  have hparity : (0 : ℚ) ≤ f.parity := Nat.cast_nonneg _
  have hpos : (0 : ℚ) < 2 * i + f.parity + 2 := by positivity
  have hnonneg := termBound_nonneg (2 * i + (f.parity + 1))
  rw [hbound, mul_div_assoc', div_le_iff₀ hpos]
  nlinarith

variable {ctx : Context} {r factor sum : Decimal} {i passes : Nat}

/-- A reduced angle that is not a speck beside the digits of the context, with the room that the
numbers in its series take. -/
structure Regular (ctx : Context) (r : Decimal) (n : Nat) : Prop where
  precision : 11 ≤ ctx.precision
  long : 8 * ctx.precision ≤ n
  roomy : ctx.Roomy n
  within : r.Within n
  lower : (10 : ℚ) ^ (-ctx.precision : Int) ≤ |r.toRat|
  upper : |r.toRat| ≤ 10

/-- What is known before each pass. -/
structure Follows (f : AngleFunction) (ctx : Context) (r : Decimal) (n i : Nat)
    (factor sum : Decimal) : Prop where
  within : factor.Within n
  lower : (10 : ℚ) ^ (-(2 * ctx.precision : Nat) : Int) ≤ |factor.toRat|
  near : Near ctx.roundoff (3 * i) factor.toRat (f.taylorTerm r.toRat i)
  sum_near : |sum.toRat - f.taylorSum r.toRat (i + 1)| ≤ ctx.roundoff * f.budget i

/-- Numbers as long as the context that lie between two powers of ten. -/
theorem Regular.within_of_bounds {y : Decimal} (h : Regular ctx r n) {places : Nat}
    (hplaces : places ≤ 7 * ctx.precision) (hdigits : y.digitCount ≤ ctx.precision)
    (hlower : (10 : ℚ) ^ (-places : Int) ≤ |y.toRat|) (hupper : |y.toRat| ≤ 10 ^ (places : Int)) :
    y.Within n :=
  (Decimal.within_of_bounds places hdigits hlower hupper).mono (by have := h.long; omega)

theorem Regular.roundoff_le (h : Regular ctx r n) : ctx.roundoff ≤ 1 / 10 ^ 10 := by
  have hprecision := h.precision
  rw [one_div, ← zpow_natCast, ← zpow_neg]
  exact zpow_le_zpow_right₀ (by norm_num) (by push_cast; omega)

theorem Regular.mul {x y : Decimal} (h : Regular ctx r n) (hx : x.Within n) (hy : y.Within n)
    {a b c d : Int} (ha : (10 : ℚ) ^ a ≤ |x.toRat|) (hb : (10 : ℚ) ^ b ≤ |y.toRat|)
    (hc : |x.toRat| ≤ 10 ^ c) (hd : |y.toRat| ≤ 10 ^ d) :
    (Traced.mul ctx x y).Fits ∧ (10 : ℚ) ^ (a + b) ≤ |(ctx.mul x y).toRat| ∧
      |(ctx.mul x y).toRat| ≤ 10 ^ (c + d) := by
  have hpos := ctx.precision_pos
  have hfits := (Context.mul_of_within hx hy h.roomy).1
  refine ⟨hfits, ?_, ?_⟩ <;> rw [Context.value_mul hfits]
  · refine (Rounding.short_pow hpos _).le_abs_significant hpos ?_
    rw [abs_mul, zpow_add₀ (by norm_num)]
    exact mul_le_mul ha hb (by positivity) (abs_nonneg _)
  · refine Context.abs_rounded_le (Rounding.short_pow hpos _) ?_
    rw [abs_mul, zpow_add₀ (by norm_num)]
    exact mul_le_mul hc hd (abs_nonneg _) (by positivity)

theorem Regular.square (h : Regular ctx r n) :
    (ctx.mul r r).Within n ∧ (10 : ℚ) ^ (-(2 * ctx.precision : Nat) : Int) ≤ |(ctx.mul r r).toRat| ∧
      |(ctx.mul r r).toRat| ≤ 10 ^ (2 : Int) ∧
      Near ctx.roundoff 1 (ctx.mul r r).toRat (r.toRat ^ 2) := by
  have hprecision := h.precision
  have hten : |r.toRat| ≤ 10 ^ (1 : Int) := by
    rw [zpow_one]
    exact h.upper
  obtain ⟨hfits, hlower, hupper⟩ := h.mul h.within h.within h.lower h.lower hten hten
  rw [show -(ctx.precision : Int) + -ctx.precision = -(2 * ctx.precision : Nat) by push_cast; ring]
    at hlower
  have hnear := Context.near_mul hfits (Near.refl ctx.roundoff _) (Near.refl ctx.roundoff _)
  rw [← sq, add_zero, add_zero] at hnear
  refine ⟨h.within_of_bounds (by omega) Context.digitCount_mul_le hlower (hupper.trans ?_), hlower,
    hupper, hnear⟩
  exact zpow_le_zpow_right₀ (by norm_num) (by push_cast; omega)

/-! ### One pass -/

theorem series_next (f : AngleFunction) (ctx : Context) (r factor : Decimal) (i : Nat) :
    (f.series ctx r).next (i + 1) factor =
      ctx.div (ctx.mul factor (ctx.mul r r)) (ofNat (f.divisor i)) >>= fun next => .ok (-next) := by
  cases f with
  | sin =>
    have hdivisor : sin.divisor i = 2 * (i + 1) * (2 * (i + 1) + 1) := by
      change (2 * i + 1 + 1) * (2 * i + 1 + 2) = _
      ring
    rw [hdivisor]
    rfl
  | cos =>
    have hdivisor : cos.divisor i = (2 * (i + 1) - 1) * (2 * (i + 1)) := by
      change (2 * i + 0 + 1) * (2 * i + 0 + 2) = _
      rw [show 2 * (i + 1) - 1 = 2 * i + 1 by omega]
      ring
    rw [hdivisor]
    rfl

theorem series_term (f : AngleFunction) (ctx : Context) (r : Decimal) (k : Nat) (term : Decimal) :
    (f.series ctx r).term k term = .ok term := by
  cases f <;> rfl

theorem series_reference (f : AngleFunction) (ctx : Context) (r sum : Decimal) :
    (f.series ctx r).reference sum = f.first r := by
  cases f <;> rfl

theorem errors_le (h : Regular ctx r n) {k : Nat} (hk : k ≤ 4500000000) :
    k * ctx.roundoff ≤ 1 / 2 := by
  have hk' : (k : ℚ) ≤ 4500000000 := by exact_mod_cast hk
  calc k * ctx.roundoff ≤ 4500000000 * (1 / 10 ^ 10) :=
        mul_le_mul hk' h.roundoff_le ctx.roundoff_pos.le (by norm_num)
    _ ≤ 1 / 2 := by norm_num

/-- What has taken so few roundings on the way to a term is no greater than a hundred thousand. -/
theorem abs_le_of_near (h : Regular ctx r n) {k : Nat} (hk : k ≤ 4500000000) {q : ℚ}
    (hq : |q| ≤ 22027) {y : ℚ} (hy : Near ctx.roundoff k y q) : |y| ≤ 10 ^ (5 : Int) := by
  have hsmall := errors_le h hk
  have herror := hy.abs_sub_le_mul ctx.roundoff_pos.le hsmall
  have htriangle := abs_sub_abs_le_abs_sub y q
  have hbound : 2 * (k * ctx.roundoff) * |q| ≤ 22027 :=
    (mul_le_of_le_one_left (abs_nonneg q) (by linarith)).trans hq
  norm_num
  linarith

theorem divisor_pos (f : AngleFunction) (i : Nat) : 0 < f.divisor i := by
  unfold divisor
  positivity

theorem parity_le_one (f : AngleFunction) : f.parity ≤ 1 := by
  cases f <;> decide

theorem within_divisor (h : Regular ctx r n) (hi : i < 1500000000) :
    (ofNat (f.divisor i)).Within n := by
  have hprecision := h.precision
  have hlong := h.long
  have hparity := f.parity_le_one
  refine within_ofNat (by omega) (lt_of_lt_of_le (b := 10 ^ 20) ?_ ?_)
  · calc f.divisor i ≤ 3000000002 * 3000000003 := Nat.mul_le_mul (by omega) (by omega)
      _ < 10 ^ 20 := by decide
  · exact Nat.pow_le_pow_right (by decide) (by omega)

theorem next_succeeds (h : Regular ctx r n) (hi : i < 1500000000)
    (hfollows : f.Follows ctx r n i factor sum) :
    Succeeds ((f.series ctx r).next (i + 1) factor) fun next =>
      Near ctx.roundoff (3 * (i + 1)) next.toRat (f.taylorTerm r.toRat (i + 1)) ∧
        next.digitCount ≤ ctx.precision := by
  have hprecision := h.precision
  obtain ⟨hsquareWithin, hsquareLower, hsquareUpper, hsquare⟩ := h.square
  have hterm := (abs_taylorTerm_le (f := f) h.upper i).trans (termBound_le _)
  have hfactor := abs_le_of_near h (by omega) hterm hfollows.near
  obtain ⟨hfits, hlower, hupper⟩ :=
    h.mul hfollows.within hsquareWithin hfollows.lower hsquareLower hfactor hsquareUpper
  have hproduct := Context.near_mul hfits hfollows.near hsquare
  have hproductWithin : (ctx.mul factor (ctx.mul r r)).Within n := by
    refine h.within_of_bounds (show 4 * ctx.precision ≤ 7 * ctx.precision by omega)
      Context.digitCount_mul_le ((zpow_le_zpow_right₀ (by norm_num) (by omega)).trans hlower) (hupper.trans ?_)
    exact zpow_le_zpow_right₀ (by norm_num) (by omega)
  have hdivFits := Context.fits_div hproductWithin (within_divisor (f := f) h hi) h.roomy
  obtain ⟨quotient, hquotient, -⟩ : IsDefined
      (ctx.div (ctx.mul factor (ctx.mul r r)) (ofNat (f.divisor i))) :=
    Context.div_ofNat_isDefined (f.divisor_pos i)
  have hnear := (Context.near_div_ofNat hdivFits hquotient hproduct).neg
  rw [series_next, hquotient]
  refine succeeds_ok ⟨?_, ?_⟩
  · rwa [taylorTerm_succ, toRat_neg, show 3 * (i + 1) = 1 + (1 + (3 * i + 1)) by ring]
  · rw [digitCount_neg]
    exact Context.digitCount_div_le hquotient

theorem abs_next_sub_le (h : Regular ctx r n) (hi : i < 1500000000) {q : ℚ}
    (hnear : Near ctx.roundoff (3 * (i + 1)) q (f.taylorTerm r.toRat (i + 1))) :
    |q - f.taylorTerm r.toRat (i + 1)| ≤
      ctx.roundoff * (30 * termBound (2 * i + (f.parity + 1))) := by
  have hpos := ctx.roundoff_pos
  have herror := hnear.abs_sub_le_mul hpos.le (errors_le h (by omega))
  have hterm := abs_taylorTerm_le (f := f) h.upper (i + 1)
  have hcount : (0 : ℚ) ≤ 6 * (i + 1) * ctx.roundoff := by positivity
  calc |q - f.taylorTerm r.toRat (i + 1)|
      ≤ 2 * ((3 * (i + 1) : Nat) * ctx.roundoff) * |f.taylorTerm r.toRat (i + 1)| := herror
    _ = 6 * (i + 1) * ctx.roundoff * |f.taylorTerm r.toRat (i + 1)| := by push_cast; ring
    _ ≤ 6 * (i + 1) * ctx.roundoff * termBound (2 * (i + 1) + f.parity) :=
        mul_le_mul_of_nonneg_left hterm hcount
    _ = ctx.roundoff * (6 * (i + 1) * termBound (2 * (i + 1) + f.parity)) := by ring
    _ ≤ ctx.roundoff * (30 * termBound (2 * i + (f.parity + 1))) :=
        mul_le_mul_of_nonneg_left (f.index_mul_termBound_le i) hpos.le

/-- All errors together are far below one. -/
theorem roundoff_mul_budget_le (h : Regular ctx r n) (hi : i ≤ 1500000000) :
    ctx.roundoff * f.budget i ≤ 1 / 2 := by
  have hi' : (i : ℚ) ≤ 1500000000 := by exact_mod_cast hi
  calc ctx.roundoff * f.budget i ≤ ctx.roundoff * 3500000000 :=
        mul_le_mul_of_nonneg_left (by linarith [f.budget_le i]) ctx.roundoff_pos.le
    _ ≤ 1 / 10 ^ 10 * 3500000000 := mul_le_mul_of_nonneg_right h.roundoff_le (by norm_num)
    _ ≤ 1 / 2 := by norm_num

theorem abs_taylorSum_succ_le (hx : |x| ≤ 10) (i : Nat) :
    |f.taylorSum x (i + 2)| ≤ 1 + 22027 * termBound (2 * i + (f.parity + 4)) := by
  have hterm := abs_taylorTerm_le (f := f) hx (i + 2)
  rw [show 2 * (i + 2) + f.parity = 2 * i + (f.parity + 4) by ring] at hterm
  linarith [f.abs_taylorSum_le hx (i + 2)]

theorem roundoff_mul_termBound_le (h : Regular ctx r n) (k : Nat) :
    ctx.roundoff * (30 * termBound k) ≤ 1 / 2 := by
  calc ctx.roundoff * (30 * termBound k) ≤ ctx.roundoff * 660810 :=
        mul_le_mul_of_nonneg_left (by linarith [termBound_le k]) ctx.roundoff_pos.le
    _ ≤ 1 / 10 ^ 10 * 660810 := mul_le_mul_of_nonneg_right h.roundoff_le (by norm_num)
    _ ≤ 1 / 2 := by norm_num

theorem Follows.add (h : Regular ctx r n) (hi : i < 1500000000)
    (hfollows : f.Follows ctx r n i factor sum) {next : Decimal}
    (hnear : Near ctx.roundoff (3 * (i + 1)) next.toRat (f.taylorTerm r.toRat (i + 1))) :
    |(ctx.add sum next).toRat - f.taylorSum r.toRat (i + 2)| ≤
      ctx.roundoff * f.budget (i + 1) := by
  have hpos := ctx.roundoff_pos
  have hterm := (abs_taylorTerm_le (f := f) h.upper (i + 1)).trans (termBound_le _)
  have hsum := f.abs_taylorSum_le h.upper (i + 1)
  have hbudget := roundoff_mul_budget_le (f := f) h hi.le
  have hlast := roundoff_mul_termBound_le h (2 * i + (f.parity + 1))
  have hadd := ctx.abs_add_sub_le_of_size 9 hfollows.sum_near (abs_next_sub_le h hi hnear)
    (by linarith) (by linarith) (by decide)
  have hsize := f.abs_taylorSum_succ_le h.upper i
  rw [← taylorSum_succ] at hadd
  -- what is rounded is the exact sum and less than one more
  have hsmall : ctx.roundoff * f.budget i +
      ctx.roundoff * (30 * termBound (2 * i + (f.parity + 1))) ≤ 1 := by linarith
  calc |(ctx.add sum next).toRat - f.taylorSum r.toRat (i + 2)|
      ≤ ctx.roundoff * f.budget i + ctx.roundoff * (30 * termBound (2 * i + (f.parity + 1))) +
          ctx.roundoff * (|f.taylorSum r.toRat (i + 2)| + (ctx.roundoff * f.budget i +
            ctx.roundoff * (30 * termBound (2 * i + (f.parity + 1))))) := hadd
    _ ≤ ctx.roundoff * f.budget i + ctx.roundoff * (30 * termBound (2 * i + (f.parity + 1))) +
          ctx.roundoff * (1 + 22027 * termBound (2 * i + (f.parity + 4)) + 1) := by
        have hle := mul_le_mul_of_nonneg_left (add_le_add hsize hsmall) hpos.le
        linarith
    _ = ctx.roundoff * f.budget (i + 1) := by
        rw [budget_succ]
        ring

/-! ### Whole runs -/

theorem first_bounds (f : AngleFunction) (h : Regular ctx r n) :
    -(ctx.precision : Int) ≤ (f.first r).exponent ∧ (f.first r).exponent ≤ 1 := by
  have hroom := h.roomy.room
  have hlong := h.long
  cases f with
  | sin =>
    refine ⟨Decimal.le_exponent (by omega) h.lower, ?_⟩
    exact Int.lt_add_one_iff.1
      (exponent_lt_of_abs_lt_pow (by decide) (h.upper.trans_lt (by norm_num)))
  | cos =>
    have hone : (1 : Decimal).exponent = 0 := by decide +kernel
    change -(ctx.precision : Int) ≤ (1 : Decimal).exponent ∧ (1 : Decimal).exponent ≤ 1
    omega

theorem follows_first (f : AngleFunction) (h : Regular ctx r n) :
    f.Follows ctx r n 0 (f.first r) (f.first r) := by
  have hlong := h.long
  have hprecision := h.precision
  have hvalue : f.taylorTerm r.toRat 0 = (f.first r).toRat := by
    cases f with
    | sin => simp [taylorTerm, parity, first]
    | cos => simp [taylorTerm, parity, first, toRat_one]
  have hsum : f.taylorSum r.toRat (0 + 1) = (f.first r).toRat := by
    rw [taylorSum_succ, hvalue]
    simp [taylorSum]
  refine ⟨?_, ?_, ?_, ?_⟩
  · cases f with
    | sin => exact h.within
    | cos => exact within_ofNat (by omega) (Nat.one_lt_pow (by omega) (by decide))
  · cases f with
    | sin => exact (zpow_le_zpow_right₀ (by norm_num) (by omega)).trans h.lower
    | cos =>
      change _ ≤ |(1 : Decimal).toRat|
      rw [toRat_one, abs_one]
      exact zpow_le_one_of_nonpos₀ (by norm_num) (by omega)
  · rw [hvalue, mul_zero]
    exact .refl _ _
  · rw [hsum, sub_self, abs_zero, budget, Finset.range_zero, Finset.sum_empty, mul_zero]

/-- A term that counts is not a speck. -/
theorem le_abs_of_counts (f : AngleFunction) (h : Regular ctx r n) {next : Decimal}
    (hcounts : ¬ ctx.isNegligible next (f.first r) = true) :
    (10 : ℚ) ^ (-(2 * ctx.precision : Nat) : Int) ≤ |next.toRat| := by
  have hroom := h.roomy.room
  have hlong := h.long
  have hfirst := (f.first_bounds h).1
  obtain ⟨hnext, hscale⟩ := Context.scale_le_of_not_isNegligible (by omega) hcounts
  exact (zpow_le_zpow_right₀ (by norm_num) (by omega)).trans (pow_le_abs_toRat hnext)

/-- Where the first term left out is negligible, so is its distance from the function. -/
theorem Follows.abs_result_le (h : Regular ctx r n) (hi : i < passes) (hpasses : passes ≤ 1500000000)
    (hfollows : f.Follows ctx r n i factor sum) {next : Decimal}
    (hnear : Near ctx.roundoff (3 * (i + 1)) next.toRat (f.taylorTerm r.toRat (i + 1)))
    (hnegligible : ctx.isNegligible next (f.first r) = true) :
    |sum.toRat| ≤ 1 + ctx.roundoff * (2 * passes + 10 ^ 9) := by
  have hpos := ctx.roundoff_pos
  have hnext : |next.toRat| ≤ ctx.roundoff := by
    have hfirst := (f.first_bounds h).2
    refine (Context.abs_lt_of_isNegligible hnegligible).le.trans ?_
    exact zpow_le_zpow_right₀ (by norm_num) (by omega)
  have hterm : |f.taylorTerm r.toRat (i + 1)| ≤ 10 * ctx.roundoff := by
    have herror := hnear.abs_sub_le_mul hpos.le (errors_le h (by omega))
    have hcount : ((3 * (i + 1) : Nat) : ℚ) * ctx.roundoff ≤ 45 / 100 := by
      have hi' : ((3 * (i + 1) : Nat) : ℚ) ≤ 4500000000 := by exact_mod_cast (by omega)
      calc ((3 * (i + 1) : Nat) : ℚ) * ctx.roundoff ≤ 4500000000 * (1 / 10 ^ 10) :=
            mul_le_mul hi' h.roundoff_le hpos.le (by norm_num)
        _ ≤ 45 / 100 := by norm_num
    have hshare := mul_le_mul_of_nonneg_right hcount (abs_nonneg (f.taylorTerm r.toRat (i + 1)))
    have htriangle := abs_sub_abs_le_abs_sub (f.taylorTerm r.toRat (i + 1)) next.toRat
    rw [abs_sub_comm] at htriangle
    linarith
  have hsum := f.abs_taylorSum_le h.upper (i + 1)
  have htriangle := abs_sub_abs_le_abs_sub sum.toRat (f.taylorSum r.toRat (i + 1))
  have hbudget : ctx.roundoff * f.budget i ≤ ctx.roundoff * (2 * passes + 5 * 10 ^ 8) := by
    have hi' : (i : ℚ) ≤ passes := by exact_mod_cast hi.le
    exact mul_le_mul_of_nonneg_left (by linarith [f.budget_le i]) hpos.le
  linarith [hfollows.sum_near]

/-- No computed sum is greater than one by more than the errors of its passes. -/
theorem abs_sum_le_of_regular (f : AngleFunction) {result : Decimal} (h : Regular ctx r n)
    (hpasses : passes ≤ 1500000000)
    (hends : EndsWithin (ctx.seriesPass (f.series ctx r)) passes (1, f.first r, f.first r) result) :
    |result.toRat| ≤ 1 + ctx.roundoff * (2 * passes + 10 ^ 9) := by
  have hlong := h.long
  have hprecision := h.precision
  refine Context.sum_of_invariant (J := f.Follows ctx r n)
    (Q := fun sum => |sum.toRat| ≤ 1 + ctx.roundoff * (2 * passes + 10 ^ 9)) hends ?_
    (f.follows_first h)
  intro i factor sum hi hfollows
  obtain ⟨next, hnext, hnear, hdigits⟩ := next_succeeds h (by omega) hfollows
  refine ⟨next, next, hnext, f.series_term ctx r _ next, ?_, ?_⟩ <;> rw [f.series_reference]
  · exact fun hnegligible => hfollows.abs_result_le h hi hpasses hnear hnegligible
  · intro hcounts
    have hlower := f.le_abs_of_counts h hcounts
    have hterm := (abs_taylorTerm_le (f := f) h.upper (i + 1)).trans (termBound_le _)
    have hupper := abs_le_of_near h (by omega) hterm hnear
    refine ⟨h.within_of_bounds (by omega) hdigits hlower (hupper.trans ?_), hlower, hnear,
      hfollows.add h (by omega) hnear⟩
    exact zpow_le_zpow_right₀ (by norm_num) (by omega)

end AngleFunction

end Reckoner
