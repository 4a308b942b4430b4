import Reckoner.Proofs.Scales.Operations
import Reckoner.Proofs.Rounding.Modes

/-!
# Relative errors

A number that has been rounded so many times on its way, each time by a relative error of at most
`u`, is off by a factor of at most `(1 + u) ^ k`. The counts add up when such numbers are multiplied.
As long as all errors together stay below a half, they grow no faster than twice their number.
-/

namespace Reckoner

open Decimal

variable {K : Type*} [Field K] [LinearOrder K] [IsStrictOrderedRing K] {u x y q r ε δ : K}
  {k l : Nat}

/-- So many relative errors of at most `u` lie between a number and the exact one. -/
def Near (u : K) (k : Nat) (x q : K) : Prop := |x - q| ≤ ((1 + u) ^ k - 1) * |q|

/-! ## Growth -/

theorem growth_nonneg (hu : 0 ≤ u) (k : Nat) : 0 ≤ (1 + u) ^ k - 1 :=
  sub_nonneg.2 (one_le_pow₀ (by linarith))

/-- Each further factor adds no more than twice its error, while all together stay below a half. -/
theorem growth_le (hu : 0 ≤ u) (hk : k * u ≤ 1 / 2) : (1 + u) ^ k - 1 ≤ 2 * (k * u) := by
  induction k with
  | zero => simp
  | succ k ih =>
    push_cast at hk ⊢
    have hgrowth := ih (by linarith)
    calc (1 + u) ^ (k + 1) - 1 = ((1 + u) ^ k - 1) * (1 + u) + u := by ring
      _ ≤ 2 * (k * u) * (1 + u) + u := by
          have hfactor : 0 ≤ 1 + u := by linarith
          linarith [mul_le_mul_of_nonneg_right hgrowth hfactor]
      _ ≤ 2 * ((k + 1) * u) := by nlinarith

namespace Near

theorem refl (u q : K) : Near u 0 q q := by simp [Near]

theorem abs_le (h : Near u k x q) : |x| ≤ (1 + u) ^ k * |q| := by
  have htriangle := abs_sub_abs_le_abs_sub x q
  unfold Near at h
  linarith

theorem trans (hu : 0 ≤ u) (hx : Near u k x y) (hy : Near u l y q) : Near u (k + l) x q := by
  have hgrowth := growth_nonneg hu k
  calc |x - q| ≤ |x - y| + |y - q| := abs_sub_le x y q
    _ ≤ ((1 + u) ^ k - 1) * |y| + ((1 + u) ^ l - 1) * |q| := add_le_add hx hy
    _ ≤ ((1 + u) ^ k - 1) * ((1 + u) ^ l * |q|) + ((1 + u) ^ l - 1) * |q| :=
        add_le_add_left (mul_le_mul_of_nonneg_left hy.abs_le hgrowth) _
    _ = ((1 + u) ^ (k + l) - 1) * |q| := by ring

theorem mul (hu : 0 ≤ u) (hx : Near u k x q) (hy : Near u l y r) :
    Near u (k + l) (x * y) (q * r) := by
  have hgrowth := growth_nonneg hu k
  have hsplit : x * y - q * r = (x - q) * y + q * (y - r) := by ring
  calc |x * y - q * r| ≤ |x - q| * |y| + |q| * |y - r| := by
        rw [hsplit, ← abs_mul, ← abs_mul]
        exact abs_add_le _ _
    _ ≤ ((1 + u) ^ k - 1) * |q| * ((1 + u) ^ l * |r|) + |q| * (((1 + u) ^ l - 1) * |r|) :=
        add_le_add (mul_le_mul hx hy.abs_le (abs_nonneg y) (mul_nonneg hgrowth (abs_nonneg q)))
          (mul_le_mul_of_nonneg_left hy (abs_nonneg q))
    _ = ((1 + u) ^ (k + l) - 1) * |q * r| := by
        rw [abs_mul]
        ring

/-- Few enough errors stay below twice their number. -/
theorem abs_sub_le_mul (hu : 0 ≤ u) (hk : k * u ≤ 1 / 2) (h : Near u k x q) :
    |x - q| ≤ 2 * (k * u) * |q| :=
  le_trans h (mul_le_mul_of_nonneg_right (growth_le hu hk) (abs_nonneg q))

end Near

/-! ## The last step -/

/-- A number that is off by less than a half keeps half its size. -/
theorem half_abs_le (hε : ε ≤ 1 / 2) (h : |x - q| ≤ ε * |q|) : |q| / 2 ≤ |x| := by
  have htriangle := abs_sub_abs_le_abs_sub q x
  rw [abs_sub_comm] at htriangle
  linarith [mul_le_mul_of_nonneg_right hε (abs_nonneg q)]

/-- The reciprocal of a number that is off by less than a half is off by twice as much. -/
theorem abs_inv_sub_le (hε : ε ≤ 1 / 2) (h : |x - q| ≤ ε * |q|) (hq : q ≠ 0) :
    |x⁻¹ - q⁻¹| ≤ 2 * ε * |q⁻¹| := by
  have hqpos : 0 < |q| := abs_pos.2 hq
  have hhalf := half_abs_le hε h
  have hxpos : 0 < |x| := by linarith
  have hdifference : x⁻¹ - q⁻¹ = (q - x) * x⁻¹ * q⁻¹ := by
    have hx : x ≠ 0 := abs_pos.1 hxpos
    field_simp
  have hratio : |q - x| * |x|⁻¹ ≤ 2 * ε := by
    rw [← div_eq_mul_inv, div_le_iff₀ hxpos, abs_sub_comm]
    nlinarith [abs_nonneg (x - q)]
  rw [hdifference, abs_mul, abs_mul, abs_inv x]
  exact mul_le_mul_of_nonneg_right hratio (abs_nonneg _)

/-- Errors of earlier steps that are far below the last one hardly add to it. -/
theorem abs_sub_le_of_rounded {z : K} (hδ : δ ≤ 1) (hε : 0 ≤ ε) (hguard : 10000 * ε ≤ δ)
    (hz : |z - x| ≤ |x| * δ) (hx : |x - q| ≤ ε * |q|) : |z - q| ≤ 1001 / 1000 * δ * |q| := by
  have hsize : |x| ≤ (1 + ε) * |q| := by
    linarith [abs_sub_abs_le_abs_sub x q]
  have hfactor : (1 + ε) * δ + ε ≤ 1001 / 1000 * δ := by nlinarith
  calc |z - q| ≤ |z - x| + |x - q| := abs_sub_le z x q
    _ ≤ (1 + ε) * |q| * δ + ε * |q| :=
        add_le_add (hz.trans (mul_le_mul_of_nonneg_right hsize (by linarith))) hx
    _ = ((1 + ε) * δ + ε) * |q| := by ring
    _ ≤ 1001 / 1000 * δ * |q| := mul_le_mul_of_nonneg_right hfactor (abs_nonneg q)

/-! ## Operations of a context -/

namespace Context

variable {ctx : Context} {x y : Decimal} {q r : ℚ}

/-- The relative error of one rounding. -/
def roundoff (ctx : Context) : ℚ := 10 ^ (1 - ctx.precision : Int)

theorem roundoff_pos (ctx : Context) : 0 < ctx.roundoff := zpow_pos (by norm_num) _

theorem roundoff_le_one (ctx : Context) : ctx.roundoff ≤ 1 := by
  have hpos := ctx.precision_pos
  exact zpow_le_one_of_nonpos₀ (by norm_num) (by omega)

theorem roundoff_guarded (ctx : Context) : ctx.guarded.roundoff = ctx.roundoff / 10 ^ 10 := by
  rw [roundoff, roundoff, show ctx.guarded.precision = ctx.precision + 10 from rfl,
    show 1 - ((ctx.precision + 10 : Nat) : Int) = 1 - ctx.precision - 10 by push_cast; ring,
    zpow_sub₀ (by norm_num) _ (10 : Int)]
  norm_num

/-- A roundoff that is far below one over the digits. -/
theorem digits_mul_roundoff_le (h : 8 ≤ ctx.precision) :
    (8 * ctx.precision + 300) * ctx.roundoff ≤ 1 / 1000 := by
  obtain ⟨k, hk⟩ := Nat.exists_eq_add_of_le h
  have hpow (k : Nat) : 1000 * (8 * (8 + k) + 300) ≤ 10 ^ (7 + k) := by
    induction k with
    | zero => decide
    | succ k ih =>
      rw [← add_assoc 7, pow_succ]
      linarith
  rw [roundoff, hk, show (1 - (8 + k : Nat) : Int) = -((7 + k : Nat) : Int) by push_cast; ring,
    zpow_neg, zpow_natCast, ← div_eq_mul_inv, div_le_div_iff₀ (by positivity) (by norm_num)]
  push_cast
  rw [one_mul, mul_comm]
  exact_mod_cast hpow k

/-- Few enough roundings come to less than a thousandth. -/
theorem count_mul_roundoff_le (h : 8 ≤ ctx.precision) {count : Nat}
    (hcount : count ≤ 8 * ctx.precision + 300) : count * ctx.roundoff ≤ 1 / 1000 :=
  (mul_le_mul_of_nonneg_right (by exact_mod_cast hcount) ctx.roundoff_pos.le).trans
    (digits_mul_roundoff_le h)

theorem roundoff_le (h : 8 ≤ ctx.precision) : ctx.roundoff ≤ 1 / 1000 := by
  simpa using count_mul_roundoff_le h (show 1 ≤ _ by omega)

theorem near_rounded (ctx : Context) (q : ℚ) : Near ctx.roundoff 1 (ctx.rounded q) q := by
  unfold Near
  rw [pow_one, add_sub_cancel_left, mul_comm]
  exact Rounding.abs_significant_sub_le q

theorem near_mul (h : (Traced.mul ctx x y).Fits) (hx : Near ctx.roundoff k x.toRat q)
    (hy : Near ctx.roundoff l y.toRat r) :
    Near ctx.roundoff (1 + (k + l)) (ctx.mul x y).toRat (q * r) := by
  rw [value_mul h]
  exact (near_rounded ctx _).trans ctx.roundoff_pos.le (hx.mul ctx.roundoff_pos.le hy)

end Context

end Reckoner
