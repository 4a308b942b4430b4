import Reckoner.Context.Gamma
import Reckoner.Proofs.Loops.Reductions

/-!
# The recursion of factorials and the gamma function

The factorial of a fraction calls the gamma function, which calls the factorial for whole arguments
and itself for the reflected argument. The reflected argument is one half or more whatever the
rounding, so that it is not reflected again.
-/

namespace Reckoner

open Integer Decimal

variable {ctx : Context} {x y : Decimal}

/-! ## The reflected argument -/

namespace Decimal

theorem digitCount_le_scale (hx : x.unscaled ≠ 0) (h : |x.toRat| < 1) :
    (x.digitCount : Int) ≤ x.scale := by
  rw [← zpow_zero (10 : ℚ)] at h
  have := (zpow_lt_zpow_iff_right₀ (by norm_num)).1 ((pow_le_abs_toRat hx).trans_lt h)
  omega

end Decimal

namespace Context

theorem fits_round_of_lt_one (hx : x.unscaled ≠ 0) (h : |x.toRat| < 1) :
    (Traced.round ctx x).Fits := by
  have hscale := digitCount_le_scale hx h
  have hfits := x.scale_fits
  refine Traced.fits_round_of_fits ?_
  unfold Word.Fits Word.least Word.greatest at *
  omega

theorem nudged_one_lt {pad : Nat} (hpad : 0 < pad) (hfits : Word.Fits pad) :
    (ofScaled (pow10 pad - 1 : Int) pad).unscaled ≠ 0 ∧
      |(ofScaled (pow10 pad - 1 : Int) pad).toRat| < 1 := by
  have hten : 1 < pow10 pad := Nat.one_lt_pow hpad.ne' (by decide)
  refine ⟨by rw [unscaled_ofScaled]; omega, ?_⟩
  have hpow : (0 : ℚ) < 10 ^ pad := by positivity
  have hlower : (1 : ℚ) < 10 ^ pad := by exact_mod_cast hten
  rw [toRat_ofScaled _ hfits, zpow_neg, zpow_natCast, ← div_eq_mul_inv, abs_div, abs_of_pos hpow,
    div_lt_one hpow]
  have hcast : ((pow10 pad : Nat) : ℚ) = 10 ^ pad := Nat.cast_pow 10 pad
  rw [Int.cast_sub, Int.cast_natCast, hcast, Int.cast_one, abs_of_pos (by linarith)]
  linarith

/-- A sum of one and a small negative number is rounded inside the word range, for its digits are
behind the point. -/
theorem fits_one_add (hlower : -1 < y.toRat) (hupper : y.toRat < 0) : (Traced.add ctx 1 y).Fits := by
  have hy : y.unscaled ≠ 0 := fun hzero => hupper.ne (toRat_eq_zero.2 hzero)
  have hone : (1 : Decimal).digitCount = 1 := digitCount_pow 0
  have hbelow : y.exponent < 0 := by
    refine exponent_lt_of_abs_lt hy ?_
    rw [zpow_zero, abs_of_neg hupper]
    linarith
  unfold Traced.add
  rw [if_neg (by decide), if_neg (by simpa [isZero] using hy),
    if_pos (by rw [exponent_one]; exact hbelow.le)]
  simp only [hone, exponent_one]
  split
  · next hgap =>
    have hleast := neg_greatest_le_exponent y
    have hsign : y.sign = -1 := Int.sign_eq_neg_one_iff_neg.2 (toRat_lt_zero.1 hupper)
    have hfits : Word.Fits (max (ctx.precision + 2) 1 - 1 + 1 : Nat) :=
      ⟨by unfold Word.least; omega, by omega⟩
    have hnudged := nudged_one_lt (Nat.succ_pos _) hfits
    rw [Traced.fits_bind_of_ok rfl, Traced.fits_ofScaled, hsign]
    change Word.Fits (0 + _) ∧ (Traced.round ctx (ofScaled (1 * _ + -1) (0 + _))).Fits
    rw [one_mul, zero_add]
    exact ⟨hfits, fits_round_of_lt_one hnudged.1 hnudged.2⟩
  · have hsum : (1 + y).toRat = 1 + y.toRat := by rw [Decimal.toRat_add, toRat_one]
    refine fits_round_of_lt_one (x := 1 + y) (fun hzero => ?_) ?_
    · rw [toRat_eq_zero.2 hzero] at hsum
      linarith
    · rw [hsum, abs_of_pos (by linarith)]
      linarith

theorem half_le_reflected (ctx : Context) (h : x < half) : half ≤ ctx.sub 1 x := by
  rw [lt_iff, Reduction.toRat_half] at h
  rw [le_iff, Reduction.toRat_half, sub]
  obtain hneg | hpos := le_or_gt x.toRat 0
  · have hsum : 1 ≤ (ctx.add 1 (-x)).toRat :=
      one_le_toRat_add toRat_one.ge (by rw [toRat_neg]; linarith)
    linarith
  · have hhalf : Rounding.Short ctx.precision (1 / 2 : ℚ) :=
      Rounding.short_of_digit (n := 5) (k := -1) ctx.precision_pos (by decide) (by norm_num)
    have hfits : (Traced.add ctx 1 (-x)).Fits :=
      fits_one_add (by rw [toRat_neg]; linarith) (by rw [toRat_neg]; linarith)
    rw [value_add hfits, toRat_one, toRat_neg]
    exact hhalf.le_significant ctx.precision_pos (by linarith)

end Context

/-! ## The recursion -/

/-- A call of one of the two functions that call each other. -/
inductive GammaCall where
  | gamma (ctx : Context) (x : Decimal)
  | factorial (ctx : Context) (x : Decimal)

namespace GammaCall

def run : GammaCall → Arithmetic Decimal
  | gamma ctx x => ctx.gamma x
  | factorial ctx x => ctx.factorial x

/-- What the functions compute from the answers to the calls that they make of each other. -/
def body (answer : GammaCall → Arithmetic Decimal) : GammaCall → Arithmetic Decimal
  | factorial ctx x =>
    if x.isWhole then ctx.wholeFactorial x else answer (.gamma ctx (ctx.guarded.add x 1))
  | gamma ctx x =>
    if x.isWhole then
      if !x.isPositive then .error (.undefined "gamma" "poles at zero and the negative integers")
      else answer (.factorial ctx (x - 1))
    else if x < half then do
      let wide := ctx.guarded
      let pi ← wide.pi
      let sine ← wide.sin (wide.mul pi x)
      let reflected ← answer (.gamma wide (wide.sub 1 x))
      ctx.div pi (wide.mul sine reflected)
    else do
      let wide := ctx.guarded
      let result ← wide.spouge (wide.sub x 1)
      return ctx.round result

/-- The recursion ends after so many nested calls: what a deeper call would answer makes no
difference, and the result is that of the function. -/
def BottomsOut (call : GammaCall) (depth : Nat) : Prop :=
  ∀ answer, body^[depth] answer call = call.run

variable {call : GammaCall} {n : Nat}

theorem BottomsOut.mono {m : Nat} (h : call.BottomsOut n) (hnm : n ≤ m) : call.BottomsOut m := by
  intro answer
  obtain ⟨k, rfl⟩ := Nat.exists_eq_add_of_le hnm
  rw [Function.iterate_add_apply]
  exact h _

theorem isWhole_sub_one (h : x.isWhole = true) : (x - 1).isWhole = true := by
  rw [isWhole_iff] at *
  obtain ⟨n, hn⟩ := h
  exact ⟨n - 1, by rw [toRat_sub, hn, toRat_one]; push_cast; rfl⟩

theorem factorial_bottomsOut_of_whole (h : x.isWhole = true) : (factorial ctx x).BottomsOut 1 := by
  intro answer
  change (if x.isWhole then _ else _) = ctx.factorial x
  unfold Context.factorial
  rw [if_pos h, if_pos h]

theorem gamma_eq_factorial (h : x.isWhole = true) (hx : x.isPositive = true) :
    ctx.gamma x = ctx.factorial (x - 1) := by
  simp only [Context.gamma, Context.gammaAboveHalf, Context.factorial, h, hx, isWhole_sub_one h]
  rfl

theorem gamma_bottomsOut_of_whole (h : x.isWhole = true) : (gamma ctx x).BottomsOut 2 := by
  intro answer
  rw [Function.iterate_succ_apply']
  change (if x.isWhole then _ else _) = ctx.gamma x
  rw [if_pos h]
  cases hx : x.isPositive with
  | false =>
    unfold Context.gamma
    rw [h, hx]
    rfl
  | true =>
    rw [gamma_eq_factorial h hx]
    exact factorial_bottomsOut_of_whole (isWhole_sub_one h) answer

/-- From one half upward the argument is not reflected. -/
theorem gamma_eq_above_half (h : half ≤ x) : ctx.gamma x = ctx.gammaAboveHalf x := by
  have hhalf := le_iff.1 h
  rw [Reduction.toRat_half] at hhalf
  have hpositive : x.isPositive = true := isPositive_iff.2 (by linarith)
  have hlarge : ¬ x < half := by
    rw [lt_iff, Reduction.toRat_half, not_lt]
    exact hhalf
  simp only [Context.gamma, hpositive, hlarge]
  simp

theorem gamma_eq_reflected (h : x.isWhole = false) (hx : x < half) :
    ctx.gamma x = (do
      let pi ← ctx.guarded.pi
      let sine ← ctx.guarded.sin (ctx.guarded.mul pi x)
      let reflected ← ctx.guarded.gamma (ctx.guarded.sub 1 x)
      ctx.div pi (ctx.guarded.mul sine reflected)) := by
  simp only [gamma_eq_above_half (Context.half_le_reflected ctx.guarded hx)]
  unfold Context.gamma
  rw [h, if_neg (by simp), if_pos (by simpa using hx)]

theorem gamma_bottomsOut_of_half_le (h : half ≤ x) : (gamma ctx x).BottomsOut 2 := by
  cases hx : x.isWhole with
  | true => exact gamma_bottomsOut_of_whole hx
  | false =>
    intro answer
    have hlarge : ¬ x < half := by
      rw [lt_iff, not_lt]
      exact le_iff.1 h
    rw [Function.iterate_succ_apply']
    change (if x.isWhole then _ else _) = ctx.gamma x
    rw [gamma_eq_above_half h, hx, if_neg (by decide), if_neg hlarge]
    unfold Context.gammaAboveHalf
    rw [hx]
    rfl

theorem gamma_bottomsOut (ctx : Context) (x : Decimal) : (gamma ctx x).BottomsOut 3 := by
  cases hx : x.isWhole with
  | true => exact (gamma_bottomsOut_of_whole hx).mono (by decide)
  | false =>
    by_cases hsmall : x < half
    · intro answer
      have hlarge := Context.half_le_reflected ctx.guarded hsmall
      rw [Function.iterate_succ_apply']
      change (if x.isWhole then _ else _) = ctx.gamma x
      rw [hx, if_neg (by decide), if_pos hsmall]
      rw [gamma_eq_reflected hx hsmall]
      simp only [gamma_bottomsOut_of_half_le hlarge answer]
      rfl
    · refine (gamma_bottomsOut_of_half_le ?_).mono (by decide)
      rw [lt_iff, not_lt] at hsmall
      exact le_iff.2 hsmall

/-- No call of the two functions nests more than four calls. -/
theorem bottomsOut (call : GammaCall) : call.BottomsOut 4 := by
  cases call with
  | gamma ctx x => exact (gamma_bottomsOut ctx x).mono (by decide)
  | factorial ctx x =>
    cases hx : x.isWhole with
    | true => exact (factorial_bottomsOut_of_whole hx).mono (by decide)
    | false =>
      intro answer
      rw [Function.iterate_succ_apply']
      change (if x.isWhole then _ else _) = ctx.factorial x
      unfold Context.factorial
      rw [hx, if_neg (by decide), if_neg (by decide)]
      exact gamma_bottomsOut ctx _ answer

end GammaCall

end Reckoner
