import Mathlib.Tactic
import Reckoner.Decimal.Basic

/-!
# Words and exponents at the ends of the range

The nearest word goes up with the integer it stands for. An exponent is such a word, and it can
only stop at the greatest one: no number has fewer than one digit, and no scale is beyond a word.
-/

namespace Reckoner

/-! ## The nearest word -/

namespace Word

variable {n m : Int}

theorem saturate_eq (n : Int) : saturate n = max least (min n greatest) := by
  unfold saturate least greatest
  split
  · omega
  · split <;> omega

theorem saturate_of_greatest_lt (h : greatest < n) : saturate n = greatest := by
  rw [saturate_eq, min_eq_right h.le]
  rfl

theorem saturate_of_le (h : n ≤ least) : saturate n = least := by
  rw [saturate_eq, max_eq_left (min_le_of_left_le h)]

theorem saturate_mono (h : n ≤ m) : saturate n ≤ saturate m := by
  rw [saturate_eq, saturate_eq]
  exact max_le_max le_rfl (min_le_min h le_rfl)

theorem lt_of_saturate_lt (h : saturate n < saturate m) : n < m :=
  lt_of_not_ge fun hle => (saturate_mono hle).not_gt h

/-- Only the lower end of the range can lift a word above a bound. -/
theorem saturate_le (hn : n ≤ m) (hm : least ≤ m) : saturate n ≤ m := by
  rw [saturate_eq]
  exact max_le hm (min_le_of_left_le hn)

theorem le_saturate (hm : m ≤ n) (hgreatest : m ≤ greatest) : m ≤ saturate n := by
  rw [saturate_eq]
  exact le_max_of_le_right (le_min hm hgreatest)

theorem saturate_distance (n m : Int) :
    (saturate n - saturate m).natAbs ≤ (n - m).natAbs := by
  rw [saturate_eq, saturate_eq]
  omega

/-- What goes down from a word that did not pass the upper end stops no sooner than it should. -/
theorem saturate_add (hn : n ≤ greatest) (hm : m ≤ 0) :
    saturate (saturate n + m) = saturate (n + m) := by
  by_cases hleast : n ≤ least
  · rw [saturate_of_le hleast, saturate_of_le (by omega), saturate_of_le (by omega)]
  · rw [saturate_of_fits ⟨by omega, hn⟩]

end Word

/-! ## Exponents -/

namespace Decimal

variable {x : Decimal}

theorem exponent_eq_saturate (hx : x.unscaled ≠ 0) :
    x.exponent = Word.saturate (x.digitCount - 1 - x.scale) := by
  rw [exponent, if_neg hx]

theorem exponent_eq_min (hx : x.unscaled ≠ 0) :
    x.exponent = min (x.digitCount - 1 - x.scale : Int) Word.greatest := by
  have hpos : 0 < x.digitCount := Integer.digitCount_pos _
  have hscale := x.scale_fits.2
  rw [exponent_eq_saturate hx, Word.saturate_eq]
  unfold Word.least Word.greatest at *
  omega

theorem exponent_fits (x : Decimal) : Word.Fits x.exponent := by
  unfold exponent
  split
  · exact Word.zero_fits
  · exact Word.saturate_fits _

theorem exponent_one : (1 : Decimal).exponent = 0 := by decide +kernel

/-- No exponent is further from zero than the greatest scale. -/
theorem neg_greatest_le_exponent (x : Decimal) : -Word.greatest ≤ x.exponent := by
  by_cases hx : x.unscaled = 0
  · rw [exponent, if_pos hx]
    decide
  have hpos : 0 < x.digitCount := Integer.digitCount_pos _
  have hscale := x.scale_fits.2
  rw [exponent_eq_min hx]
  unfold Word.greatest at *
  omega

theorem exponent_le (hx : x.unscaled ≠ 0) : x.exponent ≤ x.digitCount - 1 - x.scale :=
  (exponent_eq_min hx).trans_le (min_le_left _ _)

/-- The point can be moved behind the leading digit, except of a number of too many digits. -/
theorem fits_scale_add_exponent (hx : x.unscaled ≠ 0)
    (h : (x.digitCount : Int) ≤ Word.greatest ∨ x.exponent ≤ 0) :
    Word.Fits (x.scale + x.exponent) := by
  have hpos : 0 < x.digitCount := Integer.digitCount_pos _
  have hfits := x.scale_fits
  rw [exponent_eq_min hx] at h ⊢
  unfold Word.Fits Word.least Word.greatest at *
  omega

/-- Nothing stands before the point that the digits and the scale do not account for. -/
theorem wholeDigits_le (x : Decimal) : (x.wholeDigits : Int) ≤ max (x.digitCount - x.scale) 0 := by
  unfold wholeDigits
  split
  · exact le_max_right _ _
  next hx =>
  have hbound : Word.saturate (x.exponent + 1) ≤ max (x.digitCount - x.scale) 0 := by
    refine Word.saturate_le ?_ (le_max_of_le_right (by decide))
    exact le_max_of_le_left (by have := exponent_le hx; omega)
  omega

end Decimal

end Reckoner
