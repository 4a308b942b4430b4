import Reckoner.Proofs.Rounding.Modes
import Reckoner.Proofs.Rounding.Quotients
import Reckoner.Proofs.Scales.Powers

/-!
# Rounded roots

A root of small whole degree of a positive number is the real root of its value, rounded to the
digits of the context. So it is exact where it has no more digits than are kept, and a greater
number has no smaller root.
-/

namespace Reckoner

open Integer Decimal

variable {ctx : Context} {x y r : Decimal} {degree : Nat}

theorem Traced.rootOfDegree_eq_wholeRoot (hdegree : 2 ≤ degree)
    (hlimit : degree ≤ Context.wholeRootLimit) (hx : 0 < x.unscaled) :
    rootOfDegree ctx x degree = wholeRoot ctx x degree := by
  have hzero : ¬ x.isZero = true := by simpa [isZero] using hx.ne'
  have hnegative : ¬ x.isNegative = true := by simpa [isNegative] using hx.le
  unfold rootOfDegree rootOfPositive
  rw [if_neg (by omega), if_neg hzero, if_neg hnegative, if_neg (by omega), if_neg hlimit.not_gt]

namespace Context

theorem rootOfDegree_eq_wholeRoot (hdegree : 2 ≤ degree) (hlimit : degree ≤ wholeRootLimit)
    (hx : 0 < x.unscaled) : ctx.rootOfDegree x degree = .ok (ctx.wholeRoot x degree) := by
  rw [← Traced.result_rootOfDegree, Traced.rootOfDegree_eq_wholeRoot hdegree hlimit hx,
    Traced.result_wholeRoot]

theorem digitCount_wholeRoot_le : (ctx.wholeRoot x degree).digitCount ≤ ctx.precision := by
  unfold wholeRoot
  simp only
  split
  · exact (digitCount_strip_le _ _).trans digitCount_round_le
  · exact digitCount_round_le

/-- The root of a number, to the digits of the context, from its real root. -/
theorem value_rootOfDegree (hdegree : 2 ≤ degree) (hlimit : degree ≤ wholeRootLimit)
    (hx : 0 < x.unscaled) (h : (Traced.rootOfDegree ctx x degree).Fits)
    (hr : ctx.rootOfDegree x degree = .ok r) :
    (r.toRat : ℝ) = ctx.rounded ((x.toRat : ℝ) ^ (degree : ℝ)⁻¹) := by
  rw [rootOfDegree_eq_wholeRoot hdegree hlimit hx] at hr
  rw [Traced.rootOfDegree_eq_wholeRoot hdegree hlimit hx] at h
  obtain rfl := Except.ok.inj hr
  have hpos : (0 : ℝ) < x.toRat := Rat.cast_pos.2 (toRat_pos.2 hx)
  exact value_wholeRoot (by omega) hx h (Real.rpow_pos_of_pos hpos _)
    (Real.rpow_inv_natCast_pow hpos.le (by omega))

/-- A real root that is no longer than the digits of the context is met exactly. -/
theorem rootOfDegree_exact (hdegree : 2 ≤ degree) (hlimit : degree ≤ wholeRootLimit)
    (hx : 0 < x.unscaled) (h : (Traced.rootOfDegree ctx x degree).Fits)
    (hr : ctx.rootOfDegree x degree = .ok r) {q : ℚ} (hq : 0 ≤ q) (hpow : q ^ degree = x.toRat)
    (hshort : Rounding.Short ctx.precision q) : r.toRat = q := by
  have hroot : (x.toRat : ℝ) ^ (degree : ℝ)⁻¹ = q := by
    rw [← hpow, Rat.cast_pow]
    exact Real.pow_rpow_inv_natCast (Rat.cast_nonneg.2 hq) (by omega)
  have hvalue := value_rootOfDegree hdegree hlimit hx h hr
  rw [hroot, rounded, hshort.cast.significant] at hvalue
  exact_mod_cast hvalue

/-- A greater number has no smaller root. -/
theorem rootOfDegree_mono {s : Decimal} (hdegree : 2 ≤ degree) (hlimit : degree ≤ wholeRootLimit)
    (hx : 0 < x.unscaled) (hxy : x ≤ y) (h : (Traced.rootOfDegree ctx x degree).Fits)
    (h' : (Traced.rootOfDegree ctx y degree).Fits) (hr : ctx.rootOfDegree x degree = .ok r)
    (hs : ctx.rootOfDegree y degree = .ok s) : r ≤ s := by
  rw [le_iff] at hxy ⊢
  have hxpos := toRat_pos.2 hx
  have hy : 0 < y.unscaled := toRat_pos.1 (hxpos.trans_le hxy)
  have hroots : (x.toRat : ℝ) ^ (degree : ℝ)⁻¹ ≤ (y.toRat : ℝ) ^ (degree : ℝ)⁻¹ :=
    Real.rpow_le_rpow (Rat.cast_nonneg.2 hxpos.le) (Rat.cast_le.2 hxy) (by positivity)
  have hrounded : ctx.rounded ((x.toRat : ℝ) ^ (degree : ℝ)⁻¹) ≤
      ctx.rounded ((y.toRat : ℝ) ^ (degree : ℝ)⁻¹) :=
    Rounding.significant_mono ctx.precision_pos hroots
  have hvalues : (r.toRat : ℝ) ≤ s.toRat := by
    rw [value_rootOfDegree hdegree hlimit hx h hr, value_rootOfDegree hdegree hlimit hy h' hs]
    exact hrounded
  exact_mod_cast hvalues

end Context

end Reckoner
