import Mathlib.Data.Nat.Factorial.Basic
import Reckoner.Context.Gamma
import Reckoner.Proofs.Accuracy.WholePowers
import Reckoner.Proofs.Decimal.Whole
import Reckoner.Proofs.Loops.Magnitudes

/-!
# Factorials

A factorial is multiplied out one factor at a time, in as many more digits as its argument has. No
factor is rounded and there are fewer multiplications than the argument says, so the errors are those
of a whole power with the same exponent. A factorial that is short enough has been met exactly, since
the products on the way to it are smaller.
-/

namespace Reckoner.Context

open Decimal
open scoped Nat

variable {ctx : Context} {x : Decimal} {k n : Nat}

/-! ## Steps -/

/-- The first factor that is multiplied is two. -/
theorem product_succ (ctx : Context) (k : Nat) :
    ctx.product (k + 2) = ctx.mul (ctx.product (k + 1)) (ofNat (k + 2)) := rfl

/-- No factor has more than seven digits. -/
theorem factor_le (hk : k ≤ 10 ^ 7) (h : |x.toRat| ≤ 10 ^ (7 * n)) :
    |x.toRat * (k : Int)| ≤ 10 ^ (7 * (n + 1)) := by
  have hk' : (k : ℚ) ≤ 10 ^ 7 := by exact_mod_cast hk
  rw [Int.cast_natCast, abs_mul, Nat.abs_cast, mul_add, mul_one, pow_add]
  exact mul_le_mul h hk' (Nat.cast_nonneg k) (by positivity)

/-- A product is not too great for its scale, which is that of no factor. -/
theorem product_steps (ctx : Context) (hk : k < 10 ^ 7) :
    (ctx.product (k + 1)).scale ≤ 0 ∧ |(ctx.product (k + 1)).toRat| ≤ 10 ^ (7 * k) ∧
      ∀ j < k, (Traced.mul ctx (ctx.product (j + 1)) (ofNat (j + 2))).Fits := by
  induction k with
  | zero => exact ⟨le_rfl, by simp [product, toRat_one], fun j hj => absurd hj j.not_lt_zero⟩
  | succ k ih =>
    obtain ⟨hscale, hsize, hfits⟩ := ih (by omega)
    have hsize' := factor_le (k := k + 2) (by omega) hsize
    have hfactor : (ctx.product (k + 1)).scale + (ofNat (k + 2)).scale =
        (ctx.product (k + 1)).scale := add_zero _
    have hlast : (Traced.mul ctx (ctx.product (k + 1)) (ofNat (k + 2))).Fits :=
      Traced.fits_mul_ofInt hsize' (by unfold Word.greatest; omega)
    refine ⟨?_, ?_, fun j hj => ?_⟩
    · rw [product_succ]
      refine scale_roundTo_le.trans ?_
      change Word.saturate _ ≤ 0
      rwa [hfactor, Word.saturate_of_fits (ctx.product (k + 1)).scale_fits]
    · rw [product_succ, value_mul hlast, toRat_ofNat]
      have hshort := Rounding.short_pow ctx.precision_pos (7 * (k + 1) : Nat) (K := ℚ)
      rw [zpow_natCast] at hshort
      exact abs_rounded_le hshort hsize'
    · obtain hj | rfl := Nat.lt_succ_iff_lt_or_eq.1 hj
      · exact hfits j hj
      · exact hlast

theorem fits_product_step (ctx : Context) (hk : k + 1 < 10 ^ 7) :
    (Traced.mul ctx (ctx.product (k + 1)) (ofNat (k + 2))).Fits :=
  (ctx.product_steps hk).2.2 k (Nat.lt_succ_self k)

/-! ## Products -/

theorem near_product (ctx : Context) (hk : k < 10 ^ 7) :
    Near ctx.roundoff k (ctx.product (k + 1)).toRat ((k + 1)! : Nat) := by
  induction k with
  | zero => simp [Near, product, toRat_one]
  | succ k ih =>
    have hfactor : Near ctx.roundoff 0 (ofNat (k + 2)).toRat (k + 2 : Nat) := by
      rw [toRat_ofNat]
      exact .refl _ _
    have hnear := near_mul (ctx.fits_product_step hk) (ih (by omega)) hfactor
    rw [product_succ, Nat.factorial_succ, mul_comm (k + 1 + 1), Nat.cast_mul]
    rwa [add_zero, add_comm 1 k] at hnear

/-- A factorial that is short enough is not rounded. -/
theorem toRat_product (ctx : Context) (hk : k < 10 ^ 7) (hshort : (k + 1)! < 10 ^ ctx.precision) :
    (ctx.product (k + 1)).toRat = ((k + 1)! : Nat) := by
  induction k with
  | zero => simp [product, toRat_one]
  | succ k ih =>
    have hless : (k + 1)! ≤ (k + 2)! := Nat.factorial_le (by omega)
    have hexact := ih (by omega) (hless.trans_lt hshort)
    have hwhole : Rounding.Short ctx.precision (((k + 2)! : Nat) : ℚ) :=
      ⟨((k + 2)! : Nat), 0, by simp, by rw [Nat.abs_cast]; exact_mod_cast hshort⟩
    rw [product_succ, value_mul (ctx.fits_product_step hk), hexact, toRat_ofNat, ← Nat.cast_mul,
      mul_comm (k + 1)!, ← Nat.factorial_succ]
    exact hwhole.significant

/-! ## Whole arguments -/

/-- A factorial before the last rounding. -/
def factorialProduct (ctx : Context) (n : Nat) : Decimal := (ctx.forPower n).product n

theorem factorialProduct_bounds (ctx : Context) (hn : n < 10 ^ 7) :
    |(ctx.factorialProduct n).toRat| ≤ 10 ^ (7 * n) ∧
      |(ctx.factorialProduct n).toRat - (n ! : Nat)| ≤
        2 * (n * (ctx.forPower n).roundoff) * |((n ! : Nat) : ℚ)| ∧
      (n ! < 10 ^ ctx.precision → (ctx.factorialProduct n).toRat = (n ! : Nat)) := by
  cases n with
  | zero => simp [factorialProduct, product, toRat_one]
  | succ k =>
    have hguard := ctx.errors_forPower_le (k + 1)
    have hone := ctx.roundoff_le_one
    have hpos := (ctx.forPower (k + 1)).roundoff_pos
    have hcount : (k : ℚ) * (ctx.forPower (k + 1)).roundoff ≤
        (k + 1 : Nat) * (ctx.forPower (k + 1)).roundoff :=
      mul_le_mul_of_nonneg_right (by exact_mod_cast k.le_succ) hpos.le
    refine ⟨?_, ?_, fun hshort => ?_⟩
    · refine ((ctx.forPower (k + 1)).product_steps (by omega)).2.1.trans ?_
      exact pow_le_pow_right₀ (by norm_num) (by omega)
    · refine ((ctx.forPower (k + 1)).near_product (by omega)).abs_sub_le_mul hpos.le ?_ |>.trans ?_
      · linarith
      · exact mul_le_mul_of_nonneg_right (by linarith) (abs_nonneg _)
    · refine (ctx.forPower (k + 1)).toRat_product (by omega) (hshort.trans_le ?_)
      refine Nat.pow_le_pow_right (by decide) ?_
      rw [precision_forPower]
      omega

theorem round_factorialProduct (ctx : Context) (hn : n < 10 ^ 7) :
    |(ctx.round (ctx.factorialProduct n)).toRat - (n ! : Nat)| ≤
        1001 / 1000 * ctx.roundoff * (n ! : Nat) ∧
      (n ! < 10 ^ ctx.precision → (ctx.round (ctx.factorialProduct n)).toRat = (n ! : Nat)) := by
  obtain ⟨hsize, herror, hexact⟩ := ctx.factorialProduct_bounds hn
  have hguard := ctx.errors_forPower_le n
  have hpos := (ctx.forPower n).roundoff_pos
  have hfits : (Traced.round ctx (ctx.factorialProduct n)).Fits :=
    Traced.fits_round_of_abs_le hsize (by unfold Word.greatest; omega)
  rw [toRat_round_eq hfits]
  refine ⟨?_, fun hshort => ?_⟩
  · nth_rewrite 2 [← Nat.abs_cast]
    refine abs_sub_le_of_rounded ctx.roundoff_le_one (by positivity) ?_
      (Rounding.abs_significant_sub_le _) herror
    linarith [ctx.roundoff_pos]
  · have hwhole : Rounding.Short ctx.precision (((n ! : Nat)) : ℚ) :=
      ⟨(n ! : Nat), 0, by simp, by rw [Nat.abs_cast]; exact_mod_cast hshort⟩
    rw [hexact hshort]
    exact hwhole.significant

theorem factorial_eq {n : Int} (hx : x.toRat = n) : ctx.factorial x = ctx.wholeFactorial x := by
  rw [factorial, if_pos (isWhole_iff.2 ⟨n, hx⟩)]

theorem wholeFactorial_of_word {n : Int} (hx : x.toRat = n) (hword : Word.Fits n)
    (hzero : x.ZeroWithin) : ctx.wholeFactorial x =
      if n < 0 then .error (.undefined "factorial" "negative integers have no factorial")
      else if factorialLimit < n then .error .exponentTooLarge
      else .ok (ctx.round (ctx.factorialProduct n.toNat)) := by
  rw [wholeFactorial, (toWord?_eq_some_iff hzero).2 ⟨hx, hword⟩]
  simp only
  split
  · rfl
  next hnonneg =>
  split
  · rfl
  · obtain ⟨m, rfl⟩ := Int.eq_ofNat_of_zero_le (not_lt.1 hnonneg)
    rfl

theorem wholeFactorial_too_large {n : Int} (hx : x.toRat = n) (hn : factorialLimit < n) :
    ctx.wholeFactorial x = .error .exponentTooLarge := by
  have hzero : x.ZeroWithin := by
    intro hnone
    rw [hx, Int.cast_eq_zero] at hnone
    unfold factorialLimit at hn
    omega
  by_cases hword : Word.Fits n
  · have hnonneg : ¬ n < 0 := by
      unfold factorialLimit at hn
      omega
    rw [wholeFactorial_of_word hx hword hzero, if_neg hnonneg, if_pos hn]
  · have hnone : x.toWord? = none := by
      refine Option.eq_none_iff_forall_ne_some.2 fun m hm => hword ?_
      obtain ⟨hvalue, hfits⟩ := (toWord?_eq_some_iff hzero).1 hm
      obtain rfl : n = m := by exact_mod_cast hx.symm.trans hvalue
      exact hfits
    rw [wholeFactorial, hnone]

/-- The factorial of a whole number comes out for every context up to a million. It is then as near to
the exact one as one rounding allows and a thousandth part more, and it is the exact one if that has no
more digits than the context keeps. Negative numbers have none, and greater ones are refused. -/
theorem factorial_accurate (ctx : Context) (x : Decimal) (n : Int) (hx : x.toRat = n) :
    (0 ≤ n → n ≤ 1000000 → -1000000 ≤ x.scale → ∃ r, ctx.factorial x = .ok r ∧
      |r.toRat - (n.toNat ! : Nat)| ≤
        1001 / 1000 * 10 ^ (1 - ctx.precision : Int) * (n.toNat ! : Nat) ∧
      (n.toNat ! < 10 ^ ctx.precision → r.toRat = (n.toNat ! : Nat))) ∧
    (n < 0 → Word.Fits n → ctx.factorial x =
      .error (.undefined "factorial" "negative integers have no factorial")) ∧
    (1000000 < n → ctx.factorial x = .error .exponentTooLarge) := by
  rw [factorial_eq hx]
  refine ⟨fun hnonneg hlimit hscale => ?_, fun hneg hword => ?_, wholeFactorial_too_large hx⟩
  · have hword : Word.Fits n := by
      unfold Word.Fits Word.least Word.greatest
      omega
    rw [wholeFactorial_of_word hx hword fun _ => hscale, if_neg hnonneg.not_gt,
      if_neg (by unfold factorialLimit; omega)]
    exact ⟨_, rfl, ctx.round_factorialProduct (by omega)⟩
  · have hzero : x.ZeroWithin := by
      intro hnone
      rw [hx, Int.cast_eq_zero] at hnone
      omega
    rw [wholeFactorial_of_word hx hword hzero, if_pos hneg]

/-- A factorial that is rounded, one that is not, and two that are refused. -/
theorem factorial_accurate_small :
    let ctx : Context := ⟨3, .down, by decide⟩
    (∃ r, ctx.factorial 10 = .ok r ∧ |r.toRat - 3628800| ≤ 1001 / 1000 * 10 ^ (-2 : Int) * 3628800) ∧
      (∃ r, ctx.factorial 6 = .ok r ∧ r.toRat = 720) ∧
      ctx.factorial (-1) = .error (.undefined "factorial" "negative integers have no factorial") ∧
      ctx.factorial (ofInt 1000001) = .error .exponentTooLarge := by
  intro ctx
  refine ⟨?_, ?_, ?_, ?_⟩
  · obtain ⟨r, hr, hnear, -⟩ := (factorial_accurate ctx (ofInt 10) 10 (toRat_ofInt _)).1
      (by decide) (by decide) (by decide)
    exact ⟨r, hr, by simpa [Nat.factorial, ctx] using hnear⟩
  · obtain ⟨r, hr, -, hexact⟩ := (factorial_accurate ctx (ofInt 6) 6 (toRat_ofInt _)).1
      (by decide) (by decide) (by decide)
    exact ⟨r, hr, by simpa [Nat.factorial] using hexact (by decide)⟩
  · exact (factorial_accurate ctx (ofInt (-1)) (-1) (toRat_ofInt _)).2.1 (by decide) (by decide)
  · exact (factorial_accurate ctx (ofInt 1000001) 1000001 (toRat_ofInt _)).2.2 (by decide)

end Reckoner.Context
