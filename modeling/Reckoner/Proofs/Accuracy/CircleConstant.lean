import Mathlib.Analysis.Real.Pi.Bounds
import Mathlib.Analysis.SpecialFunctions.Complex.Arctan
import Reckoner.Proofs.Accuracy.AtanhSeries
import Reckoner.Proofs.Loops.Circle

/-!
# The computed circle constant

How far the sums of Machin's two series are from the arc tangents, and so the computed `π` from the
real one. The terms are those of the inverse hyperbolic tangent with alternating signs. A pass costs
a quarter of the roundoff of the working context, which has ten digits more than the result.
-/

namespace Reckoner

open Integer Decimal

/-! ## Exact sums -/

def atanTerm (z : ℚ) (k : Nat) : ℚ := (-1) ^ k * atanhTerm z k

def atanSum (z : ℚ) (n : Nat) : ℚ := ∑ k ∈ Finset.range n, atanTerm z k

section Exact

variable {z : ℚ}

theorem atanSum_succ (z : ℚ) (n : Nat) : atanSum z (n + 1) = atanSum z n + atanTerm z n :=
  Finset.sum_range_succ _ n

theorem abs_atanTerm (hz : 0 ≤ z) (k : Nat) : |atanTerm z k| = atanhTerm z k := by
  rw [atanTerm, abs_mul, abs_pow, abs_neg, abs_one, one_pow, one_mul,
    abs_of_nonneg (atanhTerm_nonneg hz k)]

theorem hasSum_arctan (hz : 0 ≤ z) (hhalf : z ≤ 1 / 2) :
    HasSum (fun k => ((atanTerm z k : ℚ) : ℝ)) (Real.arctan z) := by
  have hnorm : ‖(z : ℝ)‖ < 1 := by
    rw [Real.norm_eq_abs]
    exact_mod_cast (abs_of_nonneg hz).trans_lt (by linarith)
  refine (Real.hasSum_arctan hnorm).congr_fun fun k => ?_
  unfold atanTerm atanhTerm
  push_cast
  ring

/-- What is left out is less than twice the first term of it. -/
theorem abs_arctan_sub_le (hz : 0 ≤ z) (hhalf : z ≤ 1 / 2) (n : Nat) :
    |Real.arctan z - (atanSum z n : ℚ)| ≤ (2 * atanhTerm z n : ℚ) := by
  have htail := (hasSum_nat_add_iff' n).2 (hasSum_arctan hz hhalf)
  have hbound := hasSum_geometric_two.mul_left ((atanhTerm z n : ℚ) : ℝ)
  have hpartial : ((atanSum z n : ℚ) : ℝ) = ∑ k ∈ Finset.range n, ((atanTerm z k : ℚ) : ℝ) := by
    rw [atanSum, Rat.cast_sum]
  rw [← hpartial] at htail
  refine (htail.norm_le_of_bounded hbound fun i => ?_).trans_eq (by push_cast; ring)
  rw [Real.norm_eq_abs, ← Rat.cast_abs, abs_atanTerm hz]
  have hterm : ((atanhTerm z (i + n) : ℚ) : ℝ) ≤ ((atanhTerm z n * (1 / 2) ^ i : ℚ) : ℝ) := by
    exact_mod_cast atanhTerm_add_le hz hhalf n i
  refine hterm.trans_eq ?_
  push_cast
  rfl

theorem abs_atanSum_succ_le (hz : 0 ≤ z) (hfifth : z ≤ 1 / 5) (n : Nat) :
    |atanSum z (n + 1)| ≤ 21 / 100 := by
  have hterm : atanhTerm z (n + 1) ≤ 1 / 375 := by
    have hpow : z ^ (2 * (n + 1) + 1) ≤ (1 / 5) ^ 3 := by
      refine (pow_le_pow_of_le_one hz (by linarith) (show 3 ≤ 2 * (n + 1) + 1 by omega)).trans ?_
      exact pow_le_pow_left₀ hz hfifth 3
    have hindex : (3 : ℚ) ≤ 2 * ((n + 1 : Nat) : ℚ) + 1 := by
      push_cast
      linarith [(Nat.cast_nonneg n : (0 : ℚ) ≤ n)]
    rw [atanhTerm, div_le_iff₀ (by linarith)]
    linarith
  have harctan : |Real.arctan z| ≤ ((1 / 5 : ℚ) : ℝ) := by
    have hz' : (0 : ℝ) ≤ z := by exact_mod_cast hz
    have hnonneg := Real.arctan_nonneg.2 hz'
    have htan := Real.le_tan hnonneg (Real.arctan_lt_pi_div_two z)
    rw [Real.tan_arctan] at htan
    rw [abs_of_nonneg hnonneg]
    refine htan.trans ?_
    exact_mod_cast hfifth
  -- the partial sums lie on both sides of the arc tangent, never farther off than the next term
  have htail := abs_arctan_sub_le hz (by linarith) (n + 1)
  have htriangle := abs_sub_abs_le_abs_sub ((atanSum z (n + 1) : ℚ) : ℝ) (Real.arctan z)
  rw [abs_sub_comm] at htriangle
  have hreal : ((|atanSum z (n + 1)| : ℚ) : ℝ) ≤ ((1 / 5 + 2 * atanhTerm z (n + 1) : ℚ) : ℝ) := by
    push_cast at *
    linarith
  have hrat : |atanSum z (n + 1)| ≤ 1 / 5 + 2 * atanhTerm z (n + 1) := by exact_mod_cast hreal
  linarith

end Exact

/-! ## Computed sums -/

namespace Reciprocal

variable {ctx : Context} {power sum term : Decimal} {n i : Nat}

/-- A number whose reciprocal is small, with the room that the powers in its series take. -/
structure Regular (ctx : Context) (n : Nat) : Prop where
  lower : 5 ≤ n
  upper : n < 1000
  precision : 8 ≤ ctx.precision
  roomy : ctx.Roomy (8 * ctx.precision + 40)

/-- The running factor before a pass. -/
structure IsPower (ctx : Context) (n i : Nat) (power : Decimal) : Prop where
  digits : power.digitCount ≤ ctx.precision
  near : Near ctx.roundoff (i + 1) power.toRat ((1 / n) ^ (2 * i + 1))

/-- What is known before each pass. -/
structure Follows (ctx : Context) (n i : Nat) (power sum : Decimal) : Prop where
  power : IsPower ctx n i power
  sum_near : |sum.toRat - atanSum (1 / n) (i + 1)| ≤ (i + 1) * ctx.roundoff / 4

theorem Regular.nonneg (_ : Regular ctx n) : (0 : ℚ) ≤ 1 / n := by positivity

theorem Regular.le_fifth (h : Regular ctx n) : (1 / n : ℚ) ≤ 1 / 5 := by
  have hlower : (5 : ℚ) ≤ n := by exact_mod_cast h.lower
  exact one_div_le_one_div_of_le (by norm_num) hlower

theorem Regular.thousandth_le (h : Regular ctx n) : (1 / 1000 : ℚ) ≤ 1 / n := by
  have hupper : (n : ℚ) ≤ 1000 := by exact_mod_cast h.upper.le
  have hpos : (0 : ℚ) < n := by exact_mod_cast (show 0 < n by have := h.lower; omega)
  exact one_div_le_one_div_of_le hpos hupper

theorem Regular.errors_le (h : Regular ctx n) {k : Nat} (hk : k ≤ ctx.precision + 300) :
    k * ctx.roundoff ≤ 1 / 1000 :=
  Context.count_mul_roundoff_le h.precision (by omega)

/-- No power comes near the ends of the word range. -/
theorem IsPower.within (h : Regular ctx n) (hi : i ≤ ctx.precision + 2)
    (hpower : IsPower ctx n i power) : power.Within (8 * ctx.precision + 40) := by
  have hpos := ctx.roundoff_pos
  have hsmall := h.errors_le (k := i + 1) (by omega)
  have hnonneg : (0 : ℚ) ≤ (1 / n) ^ (2 * i + 1) := pow_nonneg h.nonneg _
  have herror := hpower.near.abs_sub_le_mul hpos.le (by linarith)
  have hhalf := half_abs_le (by linarith) herror
  rw [abs_of_nonneg hnonneg] at herror hhalf
  have hupper : (1 / n : ℚ) ^ (2 * i + 1) ≤ 1 / 5 :=
    (pow_le_of_le_one h.nonneg (by linarith [h.le_fifth]) (by omega)).trans h.le_fifth
  have hlower : (10 : ℚ) ^ (-(6 * i + 4 : Nat) : Int) ≤ |power.toRat| := by
    refine le_trans ?_ hhalf
    have hpow : (1 / 1000 : ℚ) ^ (2 * i + 1) ≤ (1 / n) ^ (2 * i + 1) :=
      pow_le_pow_left₀ (by norm_num) h.thousandth_le _
    have hthousand : (10 : ℚ) ^ (-(6 * i + 4 : Nat) : Int) = (1 / 1000) ^ (2 * i + 1) / 10 := by
      rw [zpow_neg, zpow_natCast, show 6 * i + 4 = 3 * (2 * i + 1) + 1 by ring, pow_succ, pow_mul,
        one_div, inv_pow]
      norm_num
      ring
    rw [hthousand]
    linarith [pow_nonneg (show (0 : ℚ) ≤ 1 / 1000 by norm_num) (2 * i + 1)]
  have hone : |power.toRat| ≤ 1 := by
    have htriangle := abs_sub_abs_le_abs_sub power.toRat ((1 / n) ^ (2 * i + 1))
    rw [abs_of_nonneg hnonneg] at htriangle
    nlinarith
  refine (within_of_bounds (6 * i + 4) hpower.digits hlower ?_).mono (by omega)
  exact hone.trans (one_le_zpow₀ (by norm_num) (Int.natCast_nonneg _))

theorem Regular.within_divisor (h : Regular ctx n) {k : Nat} (hk : k ≤ 10 ^ 6 + 2 * ctx.precision) :
    (ofNat k).Within (8 * ctx.precision + 40) := by
  have hprecision := h.precision
  refine within_ofNat (by omega) (lt_of_lt_of_le (b := 10 ^ (ctx.precision + 8)) ?_ ?_)
  · have hpow : ctx.precision < 10 ^ ctx.precision := Nat.lt_pow_self (by decide)
    rw [pow_add]
    omega
  · exact Nat.pow_le_pow_right (by decide) (by omega)

/-! ### One pass -/

theorem IsPower.next (h : Regular ctx n) (hi : i ≤ ctx.precision + 1)
    (hpower : IsPower ctx n i power) :
    Succeeds (ctx.div power (ofNat (n * n))) fun next => IsPower ctx n (i + 1) next := by
  have hlower := h.lower
  have hupper := h.upper
  have hsquare : n * n ≤ 10 ^ 6 := (Nat.mul_le_mul hupper.le hupper.le).trans (by decide)
  have hfits := Context.fits_div (hpower.within h (by omega))
    (h.within_divisor (k := n * n) (by omega)) h.roomy
  obtain ⟨next, hnext, -⟩ : IsDefined (ctx.div power (ofNat (n * n))) :=
    Context.div_ofNat_isDefined (Nat.mul_pos (by omega) (by omega))
  have hnear := Context.near_div_ofNat hfits hnext hpower.near
  rw [Nat.add_comm 1] at hnear
  refine ⟨next, hnext, Context.digitCount_div_le hnext, ?_⟩
  convert hnear using 1
  push_cast
  rw [pow_succ, show 2 * (i + 1) = 2 * i + 1 + 1 by ring, pow_succ]
  field_simp

theorem near_alternating {k : Nat} {q : ℚ} (h : Near ctx.roundoff k term.toRat q) (j : Nat) :
    Near ctx.roundoff k (Context.alternating j term).toRat ((-1) ^ j * q) := by
  unfold Context.alternating
  split
  · next hodd =>
    rw [(Nat.odd_iff.2 hodd).neg_one_pow, toRat_neg, neg_one_mul]
    exact h.neg
  · next heven =>
    rw [(Nat.even_iff.2 (by omega)).neg_one_pow, one_mul]
    exact h

theorem IsPower.nextTerm (h : Regular ctx n) (hi : i ≤ ctx.precision + 1)
    (hpower : IsPower ctx n (i + 1) power) :
    Succeeds (do return Context.alternating (i + 1) (← ctx.div power (ofNat (2 * (i + 1) + 1))))
      fun term => Near ctx.roundoff (i + 3) term.toRat (atanTerm (1 / n) (i + 1)) := by
  have hfits := Context.fits_div (hpower.within h (by omega))
    (h.within_divisor (k := 2 * (i + 1) + 1) (by omega)) h.roomy
  obtain ⟨quotient, hquotient, -⟩ : IsDefined (ctx.div power (ofNat (2 * (i + 1) + 1))) :=
    Context.div_ofNat_isDefined (by omega)
  have hnear := Context.near_div_ofNat hfits hquotient hpower.near
  rw [show 1 + (i + 1 + 1) = i + 3 by ring] at hnear
  rw [hquotient]
  refine succeeds_ok ?_
  convert near_alternating hnear (i + 1) using 1
  rw [atanTerm, atanhTerm]
  push_cast
  rfl

/-- The index divides the error of a term, which has grown with it. -/
theorem abs_term_sub_le (h : Regular ctx n) (hi : i ≤ ctx.precision + 1)
    (hnear : Near ctx.roundoff (i + 3) term.toRat (atanTerm (1 / n) (i + 1))) :
    |term.toRat - atanTerm (1 / n) (i + 1)| ≤ 2 / 125 * ctx.roundoff := by
  have hpos := ctx.roundoff_pos
  have hsmall := h.errors_le (k := i + 3) (by omega)
  have hpower : (1 / n : ℚ) ^ (2 * (i + 1) + 1) ≤ 1 / 125 := by
    calc (1 / n : ℚ) ^ (2 * (i + 1) + 1) ≤ (1 / n) ^ 3 :=
          pow_le_pow_of_le_one h.nonneg (by linarith [h.le_fifth]) (by omega)
      _ ≤ (1 / 5) ^ 3 := pow_le_pow_left₀ h.nonneg h.le_fifth 3
      _ = 1 / 125 := by norm_num
  have hindex : ((i + 3 : Nat) : ℚ) * atanhTerm (1 / n) (i + 1) ≤ (1 / n) ^ (2 * (i + 1) + 1) := by
    rw [atanhTerm, mul_div_assoc', div_le_iff₀ (by positivity), mul_comm]
    refine mul_le_mul_of_nonneg_left ?_ (pow_nonneg h.nonneg _)
    push_cast
    linarith [(Nat.cast_nonneg i : (0 : ℚ) ≤ i)]
  have herror := hnear.abs_sub_le_mul hpos.le (by linarith)
  rw [abs_atanTerm h.nonneg] at herror
  nlinarith

theorem Follows.add (h : Regular ctx n) (hi : i ≤ ctx.precision + 1)
    (hfollows : Follows ctx n i power sum)
    (hnear : Near ctx.roundoff (i + 3) term.toRat (atanTerm (1 / n) (i + 1))) :
    |(ctx.add sum term).toRat - atanSum (1 / n) (i + 2)| ≤ ((i + 1 : Nat) + 1) * ctx.roundoff / 4 := by
  have hpos := ctx.roundoff_pos
  have hterm := abs_term_sub_le h hi hnear
  have hpasses := h.errors_le (k := i + 1) (by omega)
  have hone := h.errors_le (k := 1) (by omega)
  push_cast at hpasses hone
  have hsumBound := abs_atanSum_succ_le h.nonneg h.le_fifth i
  have hnextBound := abs_atanSum_succ_le h.nonneg h.le_fifth (i + 1)
  have htermBound : |atanTerm (1 / n) (i + 1)| ≤ 42 / 100 := by
    rw [← sub_eq_of_eq_add' (atanSum_succ (1 / n : ℚ) (i + 1))]
    refine (abs_sub _ _).trans ?_
    linarith
  have hadd := ctx.abs_add_sub_le_of_size 0 hfollows.sum_near hterm (by linarith) (by linarith)
    (by decide)
  rw [← atanSum_succ] at hadd
  have hrest : |atanSum (1 / n) (i + 1 + 1)| + ((i + 1) * ctx.roundoff / 4 + 2 / 125 * ctx.roundoff) ≤
      1 / 4 - 2 / 125 := by linarith
  have hshare := mul_le_mul_of_nonneg_left hrest hpos.le
  push_cast
  linarith

/-- Where the first term left out is negligible, so is the rest of the series. -/
theorem Follows.result_near (h : Regular ctx n) (hi : i ≤ ctx.precision + 1)
    (hfollows : Follows ctx n i power sum) {first : Decimal} (hfirst : first.exponent ≤ -1)
    (hnear : Near ctx.roundoff (i + 3) term.toRat (atanTerm (1 / n) (i + 1)))
    (hnegligible : ctx.isNegligible term first = true) :
    |(sum.toRat : ℝ) - Real.arctan (1 / n)| ≤ ((i + 2) * ctx.roundoff / 4 : ℚ) := by
  have hpos := ctx.roundoff_pos
  have hlast := Context.abs_le_of_isNegligible hnegligible hfirst
  have hterm : atanhTerm (1 / n) (i + 1) ≤ ctx.roundoff / 50 := by
    have hsmall := h.errors_le (k := i + 3) (by omega)
    have hhalf := half_abs_le (by linarith) (hnear.abs_sub_le_mul hpos.le (by linarith))
    rw [abs_atanTerm h.nonneg] at hhalf
    linarith
  have htail : |Real.arctan (1 / n : ℚ) - (atanSum (1 / n) (i + 1) : ℚ)| ≤
      (ctx.roundoff / 25 : ℚ) := by
    refine (abs_arctan_sub_le h.nonneg (by linarith [h.le_fifth]) (i + 1)).trans ?_
    exact_mod_cast (by linarith : 2 * atanhTerm (1 / n) (i + 1) ≤ ctx.roundoff / 25)
  have hsum : |(sum.toRat : ℝ) - (atanSum (1 / n) (i + 1) : ℚ)| ≤ ((i + 1) * ctx.roundoff / 4 : ℚ) := by
    exact_mod_cast hfollows.sum_near
  have hbudget : ((i + 1) * ctx.roundoff / 4 : ℚ) + (ctx.roundoff / 25 : ℚ) ≤
      ((i + 2) * ctx.roundoff / 4 : ℚ) := by linarith
  have htriangle := abs_sub_le (sum.toRat : ℝ) (atanSum (1 / n) (i + 1) : ℚ)
    (Real.arctan (1 / n : ℚ))
  rw [abs_sub_comm ((atanSum (1 / n) (i + 1) : ℚ) : ℝ)] at htriangle
  rw [show (1 / n : ℝ) = ((1 / n : ℚ) : ℝ) by push_cast; rfl]
  refine htriangle.trans ((add_le_add hsum htail).trans ?_)
  exact_mod_cast hbudget

/-! ### Whole runs -/

theorem isPower_first (h : Regular ctx n) {first : Decimal} (hfirst : ctx.div 1 (ofNat n) = .ok first) :
    IsPower ctx n 0 first := by
  have hupper := h.upper
  have hfits := Context.fits_div (x := 1) (h.within_divisor (k := 1) (by omega))
    (h.within_divisor (k := n) (by omega)) h.roomy
  have hnear := Context.near_div_ofNat hfits hfirst (Near.refl ctx.roundoff _)
  rw [toRat_one] at hnear
  exact ⟨Context.digitCount_div_le hfirst, by simpa using hnear⟩

theorem follows_first (h : Regular ctx n) {first : Decimal} (hpower : IsPower ctx n 0 first) :
    Follows ctx n 0 first first where
  power := hpower
  sum_near := by
    have hnear := hpower.near
    have hfifth := mul_le_mul_of_nonneg_left h.le_fifth ctx.roundoff_pos.le
    simp only [Near, mul_zero, zero_add, pow_one, add_sub_cancel_left, abs_of_nonneg h.nonneg] at hnear
    simp only [atanSum, atanTerm, atanhTerm, Finset.sum_range_one, pow_zero, mul_zero, zero_add,
      pow_one, Nat.cast_zero, div_one, one_mul]
    linarith [ctx.roundoff_pos]

theorem exponent_first (h : Regular ctx n) {first : Decimal} (hpower : IsPower ctx n 0 first) :
    first.exponent ≤ -1 := by
  have hpos := ctx.roundoff_pos
  have hone := h.errors_le (k := 0 + 1) (by omega)
  have hnear := hpower.near.abs_sub_le_mul hpos.le (by push_cast at hone ⊢; linarith)
  have hhalf := half_abs_le (by push_cast at hone ⊢; linarith) hnear
  have hlower := h.thousandth_le
  have hupper := h.le_fifth
  rw [mul_zero, zero_add, pow_one, abs_of_nonneg h.nonneg] at hnear hhalf
  have hne : first.unscaled ≠ 0 := by
    intro hzero
    rw [toRat_eq_zero.2 hzero, abs_zero] at hhalf
    linarith
  have hsize : |first.toRat| < 10 ^ (0 : Int) := by
    have htriangle := abs_sub_abs_le_abs_sub first.toRat (1 / n)
    rw [abs_of_nonneg h.nonneg] at htriangle
    push_cast at hone hnear
    rw [zpow_zero]
    nlinarith
  exact Int.lt_add_one_iff.1 (exponent_lt_of_abs_lt hne hsize)

/-- The computed sum is off by a quarter of the roundoff for each pass. -/
theorem sum_near (h : Regular ctx n) {first result : Decimal}
    (hfirst : ctx.div 1 (ofNat n) = .ok first)
    (hends : EndsWithin (ctx.seriesPass (ctx.reciprocalSeries n first)) (ctx.precision + 2)
      (1, first, first) result) :
    |(result.toRat : ℝ) - Real.arctan (1 / n)| ≤ ((ctx.precision + 3) * ctx.roundoff / 4 : ℚ) := by
  have hpower := isPower_first h hfirst
  refine Context.sum_of_invariant (J := Follows ctx n) (Q := fun sum =>
    |(sum.toRat : ℝ) - Real.arctan (1 / n)| ≤ ((ctx.precision + 3) * ctx.roundoff / 4 : ℚ)) hends ?_
    (follows_first h hpower)
  intro i power sum hi hfollows
  obtain ⟨next, hnext, hnextPower⟩ := hfollows.power.next h (by omega)
  obtain ⟨term, hterm, hnear⟩ := hnextPower.nextTerm h (by omega)
  refine ⟨next, term, hnext, hterm, fun hnegligible => ?_, fun _ => ⟨hnextPower, ?_⟩⟩
  · refine (hfollows.result_near h (by omega) (exponent_first h hpower) hnear hnegligible).trans ?_
    have hcount : (i + 2 : ℚ) ≤ ctx.precision + 3 := by
      exact_mod_cast (show i + 2 ≤ ctx.precision + 3 by omega)
    exact_mod_cast div_le_div_of_nonneg_right
      (mul_le_mul_of_nonneg_right hcount ctx.roundoff_pos.le) (by norm_num)
  · exact hfollows.add h (by omega) hnear

theorem atanOfReciprocal_near (h : Regular ctx n)
    (hends : ctx.ReciprocalEnds n (ctx.precision + 2)) {sum : Decimal}
    (hsum : ctx.atanOfReciprocal n = .ok sum) :
    |(sum.toRat : ℝ) - Real.arctan (1 / n)| ≤ ((ctx.precision + 3) * ctx.roundoff / 4 : ℚ) := by
  obtain ⟨first, sum', hfirst, hends, hsum'⟩ := hends
  obtain rfl : sum' = sum := Except.ok.inj (hsum'.symm.trans hsum)
  exact sum_near h hfirst hends

end Reciprocal

/-! ## Machin's sum -/

namespace Context

variable {ctx : Context}

theorem machin : 16 * Real.arctan (1 / (5 : Nat)) - 4 * Real.arctan (1 / (239 : Nat)) = Real.pi := by
  have hmachin := Real.four_mul_arctan_inv_5_sub_arctan_inv_239
  push_cast
  rw [one_div, one_div]
  linarith

/-- The sum of the two multiples, in the working context. -/
def machinSum (ctx : Context) (fifth small : Decimal) : Decimal :=
  ctx.sub (ctx.mul 16 fifth) (ctx.mul 4 small)

theorem multiple_near {k : Nat} {x : Decimal} {b : ℚ} (hb : b ≤ 10) (hx : k * |x.toRat| ≤ b) :
    |(ctx.mul (ofNat k) x).toRat - k * x.toRat| ≤ b * ctx.roundoff := by
  have hsize : |x.toRat * (k : Int)| ≤ b := by rwa [Int.cast_natCast, abs_mul, Nat.abs_cast, mul_comm]
  have hmultiple := ctx.abs_mul_ofInt_sub_le hsize hb
  rwa [mul_swap, Int.cast_natCast, mul_comm x.toRat] at hmultiple

theorem machinSum_near (ctx : Context) {fifth small : Decimal} (hprecision : 8 ≤ ctx.precision)
    (hfifth : |fifth.toRat| ≤ 5 / 16) (hsmall : |small.toRat| ≤ 1 / 100) :
    |(ctx.machinSum fifth small).toRat - (16 * fifth.toRat - 4 * small.toRat)| ≤
      12 * ctx.roundoff := by
  have hpos := ctx.roundoff_pos
  have hroundoff := roundoff_le hprecision
  have hlarge : |(ctx.mul 16 fifth).toRat - 16 * fifth.toRat| ≤ 5 * ctx.roundoff :=
    multiple_near (k := 16) (by norm_num) (by push_cast; linarith)
  have hlittle : |(ctx.mul 4 small).toRat - 4 * small.toRat| ≤ 1 / 25 * ctx.roundoff :=
    multiple_near (k := 4) (by norm_num) (by push_cast; linarith)
  have hlittleNeg : |(-ctx.mul 4 small).toRat - -(4 * small.toRat)| ≤ 1 / 25 * ctx.roundoff := by
    rwa [toRat_neg, neg_sub_neg, abs_sub_comm]
  have hfifthSize : |16 * fifth.toRat| ≤ 5 := by
    rw [abs_mul, abs_of_pos (show (0 : ℚ) < 16 by norm_num)]
    linarith
  have hsmallSize : |-(4 * small.toRat)| ≤ 1 / 25 := by
    rw [abs_neg, abs_mul, abs_of_pos (show (0 : ℚ) < 4 by norm_num)]
    linarith
  have hadd := ctx.abs_add_sub_le_of_size 1 hlarge hlittleNeg (by linarith) (by linarith) (by decide)
  have hsize := (abs_add_le (16 * fifth.toRat) (-(4 * small.toRat))).trans
    (add_le_add hfifthSize hsmallSize)
  rw [sub_eq_add_neg (16 * fifth.toRat)]
  refine hadd.trans ?_
  nlinarith

theorem reciprocal_regular (hprecision : 8 ≤ ctx.precision) (hlarge : ctx.precision ≤ 7 * 10 ^ 16)
    {n : Nat} (hlower : 5 ≤ n) (hupper : n < 1000) : Reciprocal.Regular ctx n where
  lower := hlower
  upper := hupper
  precision := hprecision
  roomy := ⟨by omega, by unfold Word.greatest; push_cast; omega⟩

theorem abs_exact_machin_sub_le {fifth small ε : ℝ}
    (hfifth : |fifth - Real.arctan (1 / (5 : Nat))| ≤ ε)
    (hsmall : |small - Real.arctan (1 / (239 : Nat))| ≤ ε) :
    |16 * fifth - 4 * small - Real.pi| ≤ 20 * ε := by
  obtain ⟨hfifthLower, hfifthUpper⟩ := abs_le.1 hfifth
  obtain ⟨hsmallLower, hsmallUpper⟩ := abs_le.1 hsmall
  rw [← machin, abs_le]
  constructor <;> linarith

/-- What the passes of both series and the last operations cost, in the working context. -/
def machinError (ctx : Context) : ℚ := 20 * ((ctx.precision + 3) * ctx.roundoff / 4) + 12 * ctx.roundoff

/-- A pass of either series costs ten digits less than a unit of the result. -/
theorem machinError_guarded_le (hprecision : ctx.precision ≤ 11 * 10 ^ 8) :
    ctx.guarded.machinError ≤ 6 / 10 * ctx.roundoff := by
  have hpos := ctx.roundoff_pos
  have hcount : (ctx.precision : ℚ) ≤ 11 * 10 ^ 8 := by exact_mod_cast hprecision
  rw [machinError, roundoff_guarded, show ctx.guarded.precision = ctx.precision + 10 from rfl]
  push_cast
  nlinarith

theorem machinSum_succeeds (hprecision : ctx.guarded.precision ≤ 7 * 10 ^ 16) :
    ∃ fifth small, ctx.guarded.atanOfReciprocal 5 = .ok fifth ∧
      ctx.guarded.atanOfReciprocal 239 = .ok small ∧
      |((ctx.guarded.machinSum fifth small).toRat : ℝ) - Real.pi| ≤ (ctx.guarded.machinError : ℚ) := by
  have hwide : ctx.guarded.precision = ctx.precision + 10 := rfl
  have hregular {n : Nat} (hlower : 5 ≤ n) (hupper : n < 1000) : Reciprocal.Regular ctx.guarded n :=
    reciprocal_regular (by omega) (by omega) hlower hupper
  have hroom : ctx.guarded.Roomy (2 * ctx.guarded.precision + 4) :=
    ⟨by omega, by unfold Word.greatest; push_cast; omega⟩
  obtain ⟨hfifthEnds, fifth, hfifth, hfifthBounds, -⟩ := fifth_ends (by omega) hroom
  obtain ⟨hsmallEnds, small, hsmall, hsmallBounds, -⟩ := small_ends (by omega) hroom
  have hfifthNear := Reciprocal.atanOfReciprocal_near (hregular le_rfl (by decide)) hfifthEnds hfifth
  have hsmallNear := Reciprocal.atanOfReciprocal_near (hregular (by decide) (by decide)) hsmallEnds
    hsmall
  have hexact := abs_exact_machin_sub_le hfifthNear hsmallNear
  have hsize {q b : ℚ} (hlower : 0 ≤ q) (hupper : q ≤ b) : |q| ≤ b := by rwa [abs_of_nonneg hlower]
  have hrounded := machinSum_near ctx.guarded (by omega)
    (hsize (by linarith [hfifthBounds.1]) hfifthBounds.2)
    (hsize (by linarith [hsmallBounds.1]) (hsmallBounds.2.trans (by norm_num)))
  have hrounded' : |((ctx.guarded.machinSum fifth small).toRat : ℝ) -
      (16 * fifth.toRat - 4 * small.toRat)| ≤ (12 * ctx.guarded.roundoff : ℚ) := by
    exact_mod_cast hrounded
  have htriangle := abs_sub_le ((ctx.guarded.machinSum fifth small).toRat : ℝ)
    (16 * fifth.toRat - 4 * small.toRat) Real.pi
  refine ⟨fifth, small, hfifth, hsmall, ?_⟩
  rw [machinError, Rat.cast_add, Rat.cast_mul 20, Rat.cast_ofNat]
  linarith

theorem round_near_pi {sum : Decimal} (h : |(sum.toRat : ℝ) - Real.pi| ≤ (6 / 10 * ctx.roundoff : ℚ)) :
    |((ctx.round sum).toRat : ℝ) - Real.pi| ≤ (16 / 10 * ctx.roundoff : ℚ) := by
  obtain ⟨hlower, hupper⟩ := abs_le.1 h
  have hone : (ctx.roundoff : ℝ) ≤ (1 : ℚ) := by exact_mod_cast ctx.roundoff_le_one
  push_cast at h hlower hupper hone
  have hlower' : 1 ≤ sum.toRat := by
    have hreal : ((1 : ℚ) : ℝ) ≤ sum.toRat := by
      push_cast
      linarith [Real.two_le_pi]
    exact_mod_cast hreal
  have hupper' : sum.toRat ≤ 5 := by
    have hreal : (sum.toRat : ℝ) ≤ (5 : ℚ) := by
      push_cast
      linarith [Real.pi_le_four]
    exact_mod_cast hreal
  have habs : |sum.toRat| = sum.toRat := abs_of_pos (by linarith)
  have hround : |(ctx.round sum).toRat - sum.toRat| ≤ ctx.roundoff := by
    rw [toRat_round_eq (Traced.fits_round_of_abs_le (m := 1) (by linarith) (by decide))]
    refine (Rounding.abs_significant_sub_le_unit _).trans_eq ?_
    exact Rounding.unit_of_one_le (by linarith) (by linarith)
  have hround' : |((ctx.round sum).toRat : ℝ) - sum.toRat| ≤ ctx.roundoff := by exact_mod_cast hround
  have htriangle := abs_sub_le ((ctx.round sum).toRat : ℝ) sum.toRat Real.pi
  push_cast
  linarith

/-- The computed `π` is off by little more than one unit of its last digit. -/
theorem pi_near (hprecision : ctx.precision ≤ 11 * 10 ^ 8) :
    Succeeds ctx.pi fun pi => |(pi.toRat : ℝ) - Real.pi| ≤ (16 / 10 * ctx.roundoff : ℚ) := by
  have hwide : ctx.guarded.precision = ctx.precision + 10 := rfl
  obtain ⟨fifth, small, hfifth, hsmall, hnear⟩ :=
    machinSum_succeeds (show ctx.guarded.precision ≤ 7 * 10 ^ 16 by omega)
  have hnear : |((ctx.guarded.machinSum fifth small).toRat : ℝ) - Real.pi| ≤
      (6 / 10 * ctx.roundoff : ℚ) :=
    hnear.trans (by exact_mod_cast machinError_guarded_le hprecision)
  refine ⟨ctx.round (ctx.guarded.machinSum fifth small), ?_, round_near_pi hnear⟩
  simp only [pi, hfifth, hsmall]
  rfl

theorem two_le_of_pi_near {q ε : ℚ} (hε : ε ≤ 1 / 10)
    (h : |(q : ℝ) - Real.pi| ≤ (16 / 10 * ε : ℚ)) : 2 ≤ q := by
  have hε' : (ε : ℝ) ≤ (1 / 10 : ℚ) := by exact_mod_cast hε
  have hreal : ((2 : ℚ) : ℝ) ≤ q := by
    have hclose := (abs_le.1 h).1
    push_cast at hclose hε' ⊢
    linarith [Real.pi_gt_three]
  exact_mod_cast hreal

/-- The computed half of `π`, with one rounding more. -/
theorem quarterTurn_near (hprecision : 2 ≤ ctx.precision) (hlarge : ctx.precision ≤ 11 * 10 ^ 8) :
    Succeeds ctx.quarterTurn fun quarter =>
      |(quarter.toRat : ℝ) - Real.pi / 2| ≤ (18 / 10 * ctx.roundoff : ℚ) := by
  have hroom : ctx.Roomy (2 * ctx.precision + 24) :=
    ⟨by omega, by unfold Word.greatest; push_cast; omega⟩
  obtain ⟨-, pi, hpi, ⟨hlower, hupper⟩, hdigits⟩ := pi_ends hroom
  obtain ⟨pi', hpi', hnear⟩ := pi_near hlarge
  obtain rfl : pi = pi' := Except.ok.inj (hpi.symm.trans hpi')
  have hwithin : pi.Within (2 * ctx.precision + 24) :=
    (within_of_pos 1 hdigits (by linarith) (by linarith)).mono (by omega)
  have hdivisor : (ofNat 2).Within (2 * ctx.precision + 24) :=
    (within_ofNat (n := 1) one_pos (by decide)).mono (by omega)
  obtain ⟨quarter, hquarter, -⟩ : IsDefined (ctx.div pi (ofNat 2)) := div_ofNat_isDefined (by decide)
  have hvalue : quarter.toRat = ctx.rounded (pi.toRat / 2) := by
    rw [value_div (fits_div hwithin hdivisor hroom) hquarter, toRat_ofNat, Nat.cast_ofNat]
  have hroundoff : ctx.roundoff ≤ 1 / 10 := by
    rw [roundoff, one_div, ← zpow_neg_one]
    exact zpow_le_zpow_right₀ (by norm_num) (by omega)
  have htwo := two_le_of_pi_near hroundoff hnear
  have habs : |pi.toRat / 2| = pi.toRat / 2 := abs_of_pos (by linarith)
  -- between one and ten the unit of the last place is the roundoff itself
  have hround : |quarter.toRat - pi.toRat / 2| ≤ ctx.roundoff := by
    rw [hvalue]
    refine (Rounding.abs_significant_sub_le_unit _).trans_eq ?_
    exact Rounding.unit_of_one_le (by linarith) (by linarith)
  have hround' : |(quarter.toRat : ℝ) - pi.toRat / 2| ≤ ctx.roundoff := by exact_mod_cast hround
  refine ⟨quarter, ?_, ?_⟩
  · rw [quarterTurn, hpi]
    exact hquarter
  · have hhalf : |(pi.toRat : ℝ) / 2 - Real.pi / 2| ≤ (8 / 10 * ctx.roundoff : ℚ) := by
      rw [← sub_div, abs_div, abs_two]
      push_cast at hnear ⊢
      linarith
    have htriangle := abs_sub_le (quarter.toRat : ℝ) (pi.toRat / 2) (Real.pi / 2)
    push_cast at hhalf ⊢
    linarith

end Context

end Reckoner
