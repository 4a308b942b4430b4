import Reckoner.Context.Series
import Reckoner.Proofs.Decimal.Canonical
import Reckoner.Proofs.Decimal.Tests
import Reckoner.Proofs.Rounding.Mirrors

/-!
# Operations on negated numbers

Five of the modes do not look at the sign. In a context with one of them every operation takes the
negatives of numbers to the negative of what it makes of the numbers themselves, in the same
representation, and a series that is summed from negated numbers runs in step with the other one.
-/

namespace Reckoner

open Integer

variable {mode : Rounding} {ctx : Context} {x y : Decimal}

/-- The context that rounds below zero as this one does above it. -/
def Context.mirror (ctx : Context) : Context := ⟨ctx.precision, ctx.rounding.mirror, ctx.precision_pos⟩

/-! ## Integers -/

theorem Rounding.quotient_neg (mode : Rounding) (v : Int) {d : Nat} (hd : 0 < d) :
    mode.quotient (-v) d = -mode.mirror.quotient v d := by
  have hd' : (0 : Int) < d := Int.natCast_pos.2 hd
  rw [quotient_eq_nearest (K := ℚ) mode _ hd', quotient_eq_nearest (K := ℚ) mode.mirror _ hd',
    Int.cast_neg, neg_div, nearest_neg]

namespace Decimal

/-! ## Rounding and stripping -/

instance : InvolutiveNeg Decimal where
  neg_neg x := (ext_iff _ _).2 ⟨neg_neg x.unscaled, rfl⟩

theorem neg_ofScaled (u s : Int) : ofScaled (-u) s = -ofScaled u s := rfl

theorem unscaled_neg (x : Decimal) : (-x).unscaled = -x.unscaled := rfl

theorem scale_neg (x : Decimal) : (-x).scale = x.scale := rfl

theorem isZero_neg (x : Decimal) : (-x).isZero = x.isZero := by
  unfold isZero
  rw [unscaled_neg, Bool.eq_iff_iff, beq_iff_eq, beq_iff_eq, neg_eq_zero]

theorem isNegative_neg (hx : ¬ x.isZero = true) : (-x).isNegative = !x.isNegative := by
  rw [isZero, beq_iff_eq] at hx
  unfold isNegative
  rw [unscaled_neg, ← decide_not]
  exact decide_eq_decide.2 (by omega)

theorem sign_neg (x : Decimal) : (-x).sign = -x.sign := Int.sign_neg _

theorem roundTo_neg (x : Decimal) (digits : Nat) (mode : Rounding) :
    (-x).roundTo digits mode = -x.roundTo digits mode.mirror := by
  unfold roundTo
  rw [isZero_neg, digitCount_neg]
  split
  · rfl
  simp only [unscaled_neg, scale_neg, Rounding.quotient_neg mode _ (pow10_pos _), neg_ofScaled,
    digitCount_neg, Int.neg_tdiv]
  split <;> rfl

theorem stripZeros_neg (lowest u s : Int) :
    stripZeros lowest (-u) s = (-(stripZeros lowest u s).1, (stripZeros lowest u s).2) := by
  fun_induction stripZeros lowest u s with
  | case1 u s h ih =>
    rw [stripZeros, if_pos (by rwa [neg_ne_zero, Int.neg_tmod, neg_eq_zero]), Int.neg_tdiv, ih]
  | case2 u s h => rw [stripZeros, if_neg (by rwa [neg_ne_zero, Int.neg_tmod, neg_eq_zero])]

theorem strip_neg (x : Decimal) (lowest : Int) : (-x).strip lowest = -x.strip lowest := by
  unfold strip
  rw [isZero_neg]
  split
  · rfl
  · simp only [unscaled_neg, scale_neg, stripZeros_neg, neg_ofScaled]

theorem wholePart_neg (x : Decimal) : (-x).wholePart = -x.wholePart := by
  unfold wholePart isBelowUnit
  rw [digitCount_neg, scale_neg]
  split
  · rfl
  split
  · rfl
  · rw [unscaled_neg, Int.neg_tdiv]
    rfl

/-! ## Exact operations -/

theorem neg_add_neg (x y : Decimal) : -x + -y = -(x + y) := by
  change ofScaled (-x.unscaled * _ + -y.unscaled * _) _ = -ofScaled (x.unscaled * _ + y.unscaled * _) _
  rw [neg_mul, neg_mul, ← neg_add, neg_ofScaled]
  rfl

theorem neg_mul_left (x y : Decimal) : -x * y = -(x * y) := by
  change ofScaled (-x.unscaled * y.unscaled) _ = -ofScaled (x.unscaled * y.unscaled) _
  rw [neg_mul, neg_ofScaled]
  rfl

theorem neg_mul_neg (x y : Decimal) : -x * -y = x * y := by
  change ofScaled (-x.unscaled * -y.unscaled) _ = ofScaled (x.unscaled * y.unscaled) _
  rw [Int.neg_mul_neg]
  rfl

end Decimal

namespace Context

open Decimal

theorem precision_mirror (ctx : Context) : ctx.mirror.precision = ctx.precision := rfl

/-! ## Rounded operations -/

theorem round_neg (ctx : Context) (x : Decimal) : ctx.round (-x) = -ctx.mirror.round x :=
  roundTo_neg x ctx.precision ctx.rounding

theorem add_neg (ctx : Context) (x y : Decimal) : ctx.add (-x) (-y) = -ctx.mirror.add x y := by
  unfold add
  rw [isZero_neg, isZero_neg, exponent_neg, exponent_neg]
  split
  · exact round_neg ctx y
  split
  · exact round_neg ctx x
  have hnudged (large small : Decimal) (pad : Nat) :
      ctx.round (ofScaled ((-large).unscaled * pow10 pad + (-small).sign) ((-large).scale + pad)) =
        -ctx.mirror.round (ofScaled (large.unscaled * pow10 pad + small.sign) (large.scale + pad)) := by
    rw [← round_neg, ← neg_ofScaled, unscaled_neg, sign_neg, scale_neg, neg_mul, neg_add]
  rw [neg_add_neg, round_neg]
  by_cases horder : y.exponent ≤ x.exponent
  · simp only [if_pos horder, exponent_neg, digitCount_neg, hnudged]
    exact (apply_ite Neg.neg _ _ _).symm
  · simp only [if_neg horder, exponent_neg, digitCount_neg, hnudged]
    exact (apply_ite Neg.neg _ _ _).symm

theorem sub_neg (ctx : Context) (x y : Decimal) : ctx.sub (-x) (-y) = -ctx.mirror.sub x y :=
  add_neg ctx x (-y)

theorem mul_neg_left (ctx : Context) (x y : Decimal) : ctx.mul (-x) y = -ctx.mirror.mul x y := by
  rw [mul, neg_mul_left, round_neg]
  rfl

theorem mul_neg_neg (ctx : Context) (x y : Decimal) : ctx.mul (-x) (-y) = ctx.mul x y := by
  rw [mul, Decimal.neg_mul_neg]
  rfl

theorem div_neg_left (ctx : Context) (x y : Decimal) :
    ctx.div (-x) y = (- ·) <$> ctx.mirror.div x y := by
  unfold div
  rw [isZero_neg, digitCount_neg, precision_mirror]
  split
  · rfl
  split
  · rfl
  next hy hx =>
  have htail : (if (-x).isNegative = y.isNegative then (1 : Int) else -1) =
      -(if x.isNegative = y.isNegative then 1 else -1) := by
    rw [isNegative_neg hx]
    cases x.isNegative <;> cases y.isNegative <;> rfl
  simp only [unscaled_neg, scale_neg, neg_mul, Int.neg_tdiv, Int.neg_tmod, neg_eq_zero, htail,
    neg_ofScaled, round_neg, strip_neg, ← neg_add]
  split <;> rfl

end Context

end Reckoner
