import Reckoner.Proofs.Accuracy.RelativeErrors
import Reckoner.Proofs.Loops.Magnitudes
import Reckoner.Proofs.Loops.Passes

/-!
# Sums of series

A series is followed pass by pass, with what is known of its running factor and of the sum so far
before each of them. The errors of the terms and of the additions add up, and where the loop breaks
off, the first term that is left out is below the digits that are kept.
-/

namespace Reckoner

open Decimal

/-! ## Invariants of open loops -/

/-- What every pass keeps leads to what is known where the loop breaks off. -/
theorem EndsWithin.of_invariant {σ ρ : Type} {pass : σ → Arithmetic (σ ⊕ ρ)} {I : Nat → σ → Prop}
    {Q : ρ → Prop} {n i : Nat} {s : σ} {r : ρ} (h : EndsWithin pass n s r)
    (hpass : ∀ j t, j < i + n → I j t → (∀ r, pass t = .ok (.inr r) → Q r) ∧
      ∀ t', pass t = .ok (.inl t') → I (j + 1) t') (hI : I i s) : Q r := by
  induction h generalizing i with
  | breaks hbreaks => exact (hpass i _ (by omega) hI).1 _ hbreaks
  | goesOn hgoes _ ih =>
    exact ih (fun j t hj => hpass j t (by omega)) ((hpass i _ (by omega) hI).2 _ hgoes)

/-- An open loop breaks off in one place only. -/
theorem EndsWithin.unique {σ ρ : Type} {pass : σ → Arithmetic (σ ⊕ ρ)} {n m : Nat} {s : σ} {r r' : ρ}
    (h : EndsWithin pass n s r) (h' : EndsWithin pass m s r') : r = r' := by
  induction h generalizing m with
  | breaks hbreaks =>
    cases h' with
    | breaks hbreaks' => exact Sum.inr.inj (Except.ok.inj (hbreaks.symm.trans hbreaks'))
    | goesOn hgoes' _ => cases hbreaks.symm.trans hgoes'
  | goesOn hgoes _ ih =>
    cases h' with
    | breaks hbreaks' => cases hgoes.symm.trans hbreaks'
    | goesOn hgoes' hrest' =>
      obtain rfl := Sum.inl.inj (Except.ok.inj (hgoes.symm.trans hgoes'))
      exact ih hrest'

/-- The sign of a term has no part in its error. -/
theorem Near.neg {K : Type*} [Field K] [LinearOrder K] [IsStrictOrderedRing K] {u x q : K} {k : Nat}
    (h : Near u k x q) : Near u k (-x) (-q) := by
  unfold Near at *
  rwa [neg_sub_neg, abs_sub_comm, abs_neg]

namespace Context

variable {ctx : Context} {series : Series} {passes : Nat} {first result x y : Decimal}

/-- A series is followed by what is known before each pass of its running factor and its sum. -/
theorem sum_of_invariant {J : Nat → Decimal → Decimal → Prop} {Q : Decimal → Prop}
    (h : EndsWithin (ctx.seriesPass series) passes (1, first, first) result)
    (hpass : ∀ i factor sum, i < passes → J i factor sum →
      ∃ next term, series.next (i + 1) factor = .ok next ∧ series.term (i + 1) next = .ok term ∧
        (ctx.isNegligible term (series.reference sum) = true → Q sum) ∧
        (¬ ctx.isNegligible term (series.reference sum) = true → J (i + 1) next (ctx.add sum term)))
    (hfirst : J 0 first first) : Q result := by
  refine h.of_invariant (i := 0) (I := fun i state => state.1 = i + 1 ∧ J i state.2.1 state.2.2) ?_
    ⟨rfl, hfirst⟩
  rintro i ⟨k, factor, sum⟩ hi ⟨rfl, hJ⟩
  obtain ⟨next, term, hnext, hterm, hbreaks, hgoes⟩ := hpass i factor sum (by omega) hJ
  rw [seriesPass_of_ok hnext hterm]
  split
  · next hnegligible => simpa using hbreaks hnegligible
  · next hcounts => simpa using hgoes hcounts

/-! ## Errors of a pass -/

/-- The distance of a sum is that of its operands and the error of one rounding. -/
theorem abs_add_sub_le {q r ε δ : ℚ} (hfits : (Traced.add ctx x y).Fits) (hx : |x.toRat - q| ≤ ε)
    (hy : |y.toRat - r| ≤ δ) :
    |(ctx.add x y).toRat - (q + r)| ≤ ε + δ + ctx.roundoff * (|q + r| + (ε + δ)) := by
  have hexact : |x.toRat + y.toRat - (q + r)| ≤ ε + δ := by
    rw [add_sub_add_comm]
    exact (abs_add_le _ _).trans (add_le_add hx hy)
  have hsize : |x.toRat + y.toRat| ≤ |q + r| + (ε + δ) := by
    linarith [abs_sub_abs_le_abs_sub (x.toRat + y.toRat) (q + r)]
  have hrounded : |(ctx.add x y).toRat - (x.toRat + y.toRat)| ≤
      ctx.roundoff * (|q + r| + (ε + δ)) := by
    rw [value_add hfits, mul_comm]
    refine (Rounding.abs_significant_sub_le _).trans ?_
    exact mul_le_mul_of_nonneg_right hsize ctx.roundoff_pos.le
  have htriangle := abs_sub_le (ctx.add x y).toRat (x.toRat + y.toRat) (q + r)
  linarith

/-- No scale stops on the way to the sum of numbers that are near small ones. -/
theorem abs_add_sub_le_of_size (ctx : Context) {q r ε δ : ℚ} (m : Nat) (hx : |x.toRat - q| ≤ ε)
    (hy : |y.toRat - r| ≤ δ) (hq : |q| + ε ≤ 10 ^ m) (hr : |r| + δ ≤ 10 ^ m)
    (hm : (m + 3 : Int) ≤ Word.greatest) :
    |(ctx.add x y).toRat - (q + r)| ≤ ε + δ + ctx.roundoff * (|q + r| + (ε + δ)) := by
  have hxSize : |x.toRat| ≤ 10 ^ m := by linarith [abs_sub_abs_le_abs_sub x.toRat q]
  have hySize : |y.toRat| ≤ 10 ^ m := by linarith [abs_sub_abs_le_abs_sub y.toRat r]
  exact abs_add_sub_le (Traced.fits_add_of_abs_le hxSize hySize hm) hx hy

theorem near_div_ofNat {n k : Nat} {q : ℚ} {z : Decimal} (hfits : (Traced.div ctx x (ofNat n)).Fits)
    (hz : ctx.div x (ofNat n) = .ok z) (hx : Near ctx.roundoff k x.toRat q) :
    Near ctx.roundoff (1 + k) z.toRat (q / n) := by
  have hquotient := hx.mul ctx.roundoff_pos.le (Near.refl ctx.roundoff (n : ℚ)⁻¹)
  rw [value_div hfits hz, toRat_ofNat, div_eq_mul_inv, div_eq_mul_inv]
  exact (near_rounded ctx _).trans ctx.roundoff_pos.le hquotient

/-- A multiple by a whole number is off by one rounding. -/
theorem abs_mul_ofInt_sub_le (ctx : Context) {k : Int} {b : ℚ} (hx : |x.toRat * k| ≤ b)
    (hb : b ≤ 10) : |(ctx.mul x (ofInt k)).toRat - x.toRat * k| ≤ b * ctx.roundoff := by
  rw [ctx.value_mul_ofInt (m := 1) (by linarith) (by decide)]
  exact (Rounding.abs_significant_sub_le _).trans
    (mul_le_mul_of_nonneg_right hx ctx.roundoff_pos.le)

/-- What is negligible lies below the last digit that is kept of the reference. -/
theorem abs_lt_of_isNegligible (h : ctx.isNegligible x y = true) :
    |x.toRat| < 10 ^ (y.exponent - ctx.precision) := by
  unfold isNegligible at h
  rw [Bool.or_eq_true, decide_eq_true_eq, isZero_iff] at h
  obtain hzero | hfar := h
  · rw [hzero, abs_zero]
    positivity
  have hapart : x.exponent + 1 ≤ y.exponent - ctx.precision := by
    by_contra hnear
    refine absurd hfar (not_lt.2 (Word.saturate_le (by omega) ?_))
    unfold Word.least
    omega
  have hgreatest : x.exponent < Word.greatest := by
    have hy := y.exponent_fits.2
    omega
  exact (abs_toRat_lt_exponent hgreatest).trans_le (zpow_le_zpow_right₀ (by norm_num) hapart)

theorem abs_le_of_isNegligible (h : ctx.isNegligible x y = true) (hy : y.exponent ≤ -1) :
    |x.toRat| ≤ ctx.roundoff / 100 := by
  have hsplit : ctx.roundoff / 100 = 10 ^ (-1 - ctx.precision : Int) := by
    rw [roundoff, show (-1 - ctx.precision : Int) = 1 - ctx.precision - 2 by ring,
      zpow_sub₀ (by norm_num) _ (2 : Int)]
    norm_num
  rw [hsplit]
  refine (abs_lt_of_isNegligible h).le.trans ?_
  exact zpow_le_zpow_right₀ (by norm_num) (by omega)

end Context

end Reckoner
