import Reckoner.Proofs.Decimal.Exact

/-!
# Stripping trailing zeros

What is stripped off a number are zeros behind its other digits, so the value stays. Stripping stops at a
digit that is no zero or at the lowest scale, and it never goes below that.
-/

namespace Reckoner.Decimal

open Integer

variable {x : Decimal} {lowest : Int}

/-! ## The digits -/

theorem stripZeros_zeros (lowest u s : Int) :
    ∃ zeros : Nat, u = (stripZeros lowest u s).1 * 10 ^ zeros ∧
      (stripZeros lowest u s).2 = s - zeros ∧ min lowest s ≤ s - zeros := by
  fun_induction stripZeros lowest u s with
  | case1 u s h ih =>
    obtain ⟨zeros, hu, hscale, hlowest⟩ := ih
    refine ⟨zeros + 1, ?_, by omega, by omega⟩
    rw [pow_succ, ← mul_assoc, ← hu]
    exact (Int.tdiv_mul_cancel (Int.dvd_of_tmod_eq_zero h.2.2)).symm
  | case2 u s h => exact ⟨0, by simp, by simp, by simp⟩

theorem stripZeros_stops (lowest u s : Int) (hu : u ≠ 0) :
    ¬ 10 ∣ (stripZeros lowest u s).1 ∨ (stripZeros lowest u s).2 ≤ lowest := by
  fun_induction stripZeros lowest u s with
  | case1 u s h ih =>
    refine ih fun hzero => hu ?_
    rw [← Int.tdiv_mul_cancel (Int.dvd_of_tmod_eq_zero h.2.2), hzero, zero_mul]
  | case2 u s h =>
    rw [not_and, not_and] at h
    by_cases hs : lowest < s
    · exact .inl fun hdvd => h hu hs (Int.tmod_eq_zero_of_dvd hdvd)
    · exact .inr (by omega)

/-! ## The number -/

theorem strip_zero (hx : x.unscaled = 0) : x.strip lowest = 0 := if_pos (beq_iff_eq.2 hx)

theorem strip_of_ne (hx : x.unscaled ≠ 0) :
    x.strip lowest = ofScaled (stripZeros lowest x.unscaled x.scale).1
      (stripZeros lowest x.unscaled x.scale).2 := by
  have hzero : x.isZero = false := beq_eq_false_iff_ne.2 hx
  unfold strip
  rw [hzero, if_neg (by decide)]

/-- As many zeros go as the scale goes down, and no scale leaves the range for it. -/
theorem strip_zeros (hx : x.unscaled ≠ 0) (hlowest : Word.least ≤ lowest) :
    ∃ zeros : Nat, x.unscaled = (x.strip lowest).unscaled * 10 ^ zeros ∧
      (x.strip lowest).scale = x.scale - zeros ∧ min lowest x.scale ≤ x.scale - zeros := by
  obtain ⟨zeros, hu, hscale, hlowest'⟩ := stripZeros_zeros lowest x.unscaled x.scale
  have hfits : Word.Fits (x.scale - zeros) := by
    have hx := x.scale_fits
    unfold Word.Fits at *
    omega
  rw [strip_of_ne hx]
  refine ⟨zeros, hu, ?_, hlowest'⟩
  rw [scale_ofScaled, hscale, Word.saturate_of_fits hfits]

/-- Stripping stops at a digit that is no zero or at the lowest scale. -/
theorem strip_stops (hx : x.unscaled ≠ 0) (hlowest : Word.Fits lowest) :
    ¬ 10 ∣ (x.strip lowest).unscaled ∨ (x.strip lowest).scale ≤ lowest := by
  rw [strip_of_ne hx]
  exact (stripZeros_stops lowest x.unscaled x.scale hx).imp_right fun hscale =>
    Word.saturate_le hscale hlowest.1

theorem toRat_strip (h : Word.least ≤ lowest) : (x.strip lowest).toRat = x.toRat := by
  by_cases hx : x.unscaled = 0
  · rw [strip_zero hx, toRat_zero, toRat_eq_zero.2 hx]
  obtain ⟨zeros, hu, hscale, -⟩ := strip_zeros hx h
  unfold toRat
  rw [hscale, hu, Int.cast_mul, Int.cast_pow, Int.cast_ofNat, mul_assoc, ← zpow_natCast,
    ← zpow_add₀ (by norm_num)]
  congr 2
  ring

theorem digitCount_strip_le (x : Decimal) (lowest : Int) :
    (x.strip lowest).digitCount ≤ x.digitCount := by
  by_cases hx : x.unscaled = 0
  · rw [strip_zero hx, digitCount, digitCount, hx]
    exact le_rfl
  obtain ⟨zeros, hu, -⟩ := stripZeros_zeros lowest x.unscaled x.scale
  rw [strip_of_ne hx]
  unfold digitCount
  rw [unscaled_ofScaled]
  generalize (stripZeros lowest x.unscaled x.scale).1 = u at hu ⊢
  have hu0 : u ≠ 0 := fun hzero => hx (by rw [hu, hzero, zero_mul])
  rw [hu, Int.natAbs_mul, Int.natAbs_pow, show (10 : Int).natAbs = 10 from rfl,
    digitCount_mul_pow (Int.natAbs_ne_zero.2 hu0)]
  omega

end Reckoner.Decimal
