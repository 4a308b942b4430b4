import Reckoner.Proofs.Decimal.Canonical
import Reckoner.Proofs.Scales.Operations

/-!
# Rounded quotients

The quotient of two decimals is the exact quotient of their values, rounded to the digits of the
context. Division fails by zero and by nothing else, and an even division keeps no trailing zero that
the scales of its operands do not ask for.
-/

namespace Reckoner

open Integer Decimal

variable {ctx : Context} {x y : Decimal}

namespace Context

/-- The integer division behind a quotient is made and leaves nothing. -/
def DividesEvenly (ctx : Context) (x y : Decimal) : Prop :=
  x.unscaled ≠ 0 ∧
    y.unscaled ∣ x.unscaled * pow10 (ctx.precision + 3 + y.digitCount - x.digitCount)

instance : Decidable (ctx.DividesEvenly x y) := inferInstanceAs (Decidable (_ ∧ _))

theorem div_zero (hy : y.unscaled = 0) : ctx.div x y = .error .divisionByZero :=
  if_pos (beq_iff_eq.2 hy)

theorem digitCount_round_le : (ctx.round x).digitCount ≤ ctx.precision :=
  digitCount_roundTo_le ctx.precision_pos

theorem digitCount_div_le {z : Decimal} (hz : ctx.div x y = .ok z) :
    z.digitCount ≤ ctx.precision := by
  by_cases hy : y.unscaled = 0
  · rw [div_zero hy] at hz
    cases hz
  obtain ⟨-, heq⟩ | ⟨-, shift, preferred, q, -, -, -, ⟨-, heq⟩ | ⟨-, heq⟩⟩ := ctx.div_cases x hy
  all_goals obtain rfl := Except.ok.inj (heq.symm.trans hz)
  · rw [show (0 : Decimal).digitCount = 1 from digitCount_zero]
    exact ctx.precision_pos
  · exact (digitCount_strip_le _ _).trans digitCount_round_le
  · exact digitCount_round_le

/-- The trailing zeros of an even quotient are those that the scales of the operands ask for. -/
theorem div_stripped {z : Decimal} (heven : ctx.DividesEvenly x y) (hy : y.unscaled ≠ 0)
    (h : (Traced.div ctx x y).Fits) (hz : ctx.div x y = .ok z) :
    ¬ 10 ∣ z.unscaled ∨ z.scale ≤ x.scale - y.scale := by
  obtain ⟨hx, hdvd⟩ := heven
  have hzx : ¬ x.isZero = true := by simpa [isZero] using hx
  have hzy : ¬ y.isZero = true := by simpa [isZero] using hy
  have hysign : y.sign ≠ 0 := fun h => hy (Int.sign_eq_zero_iff_zero.1 h)
  have hxsign : x.sign ≠ 0 := fun h => hx (Int.sign_eq_zero_iff_zero.1 h)
  have hsign : z.sign ≠ 0 := by
    obtain ⟨w, hw, hsign⟩ := div_sign ctx x hysign
    obtain rfl : w = z := Except.ok.inj (hw.symm.trans hz)
    rw [hsign]
    exact mul_ne_zero hxsign hysign
  unfold Traced.div at h
  rw [if_neg hzy, if_neg hzx, Traced.fits_bind_of_ok rfl, Traced.fits_saturate] at h
  unfold div at hz
  rw [if_neg hzy, if_neg hzx] at hz
  simp only at hz
  rw [if_pos (Int.tmod_eq_zero_of_dvd hdvd), Word.saturate_of_fits h.1] at hz
  obtain rfl := Except.ok.inj hz
  rw [sign_strip] at hsign
  exact strip_stops (fun hzero => hsign (Int.sign_eq_zero_iff_zero.2 hzero)) h.1

end Context

end Reckoner
