import Reckoner.Proofs.Loops.Sizes

/-!
# Digits before the point

The number of digits before the point says between which powers of ten a number lies. It is read off
the exponent and stops with it at the end of the word range, so it is right for every power of ten that
it does not reach there.
-/

namespace Reckoner.Decimal

variable {x : Decimal} {k : Nat}

/-- The digits of the unscaled integer can be counted in a word, and the exponent does not stop at the
end of the word range. -/
def ExponentFits (x : Decimal) : Prop :=
  x.unscaled ≠ 0 → Word.Fits x.digitCount ∧ Word.Fits (x.digitCount - 1 - x.scale)

instance (x : Decimal) : Decidable x.ExponentFits := inferInstanceAs (Decidable (_ → _))

theorem wholeDigits_le_greatest (x : Decimal) : (x.wholeDigits : Int) ≤ Word.greatest := by
  unfold wholeDigits
  split
  · decide
  · have hfits := Word.saturate_fits (x.exponent + 1)
    unfold Word.Fits Word.least Word.greatest at *
    omega

/-- A number has more than `k` digits before its point if it is no less than that power of ten. -/
theorem lt_wholeDigits_iff (hk : (k : Int) < Word.greatest) :
    k < x.wholeDigits ↔ (10 : ℚ) ^ k ≤ |x.toRat| := by
  by_cases hx : x.unscaled = 0
  · have hpos : (0 : ℚ) < 10 ^ k := by positivity
    rw [wholeDigits, if_pos hx, toRat_eq_zero.2 hx, abs_zero]
    exact iff_of_false (Nat.not_lt_zero k) hpos.not_ge
  have hexponent : k < x.wholeDigits ↔ (k : Int) ≤ x.exponent := by
    have hleast := neg_greatest_le_exponent x
    rw [wholeDigits, if_neg hx, Word.saturate_eq]
    unfold Word.least Word.greatest at *
    omega
  rw [hexponent, ← zpow_natCast]
  constructor
  · intro hle
    exact (zpow_le_zpow_right₀ (by norm_num) hle).trans (pow_exponent_le_abs hx)
  · exact le_exponent hk.le

/-- A number far below the end of the word range has more than `k` digits before its point if it is no
less than that power of ten, whichever that is. -/
theorem lt_wholeDigits_iff_of_lt {limit : Nat} (hlimit : (limit : Int) ≤ Word.greatest)
    (h : |x.toRat| < 10 ^ limit) (k : Nat) : k < x.wholeDigits ↔ (10 : ℚ) ^ k ≤ |x.toRat| := by
  obtain hk | hk := lt_or_ge (k : Int) Word.greatest
  · exact lt_wholeDigits_iff hk
  have hword := wholeDigits_le_greatest x
  refine iff_of_false (by omega) fun hle => ?_
  have hlt : k < limit := (pow_lt_pow_iff_right₀ (by norm_num)).1 (hle.trans_lt h)
  omega

theorem scale_lt_of_pow_le {k : Int} (h : (10 : ℚ) ^ k ≤ |x.toRat|) : x.scale + k < x.digitCount := by
  have hlt := (zpow_lt_zpow_iff_right₀ (by norm_num)).1 (h.trans_lt (abs_toRat_lt_pow x))
  omega

end Reckoner.Decimal
