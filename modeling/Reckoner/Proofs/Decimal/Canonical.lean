import Reckoner.Proofs.Decimal.Order
import Reckoner.Proofs.Decimal.Parts

/-!
# The canonical form

Stripping goes on until a digit that is no zero is last, or until the scale is the least word. So a
value has one canonical form, whichever representation it is taken from, and two decimals are equal
exactly if their canonical forms are the same.
-/

namespace Reckoner.Decimal

open Integer

variable {x y : Decimal}

/-- Nothing more can be stripped: the last digit is no zero, or no scale is left below. -/
def Stripped (x : Decimal) : Prop := ¬ 10 ∣ x.unscaled ∨ x.scale = Word.least

theorem canonical_zero (h : x.unscaled = 0) : x.canonical = 0 := strip_zero h

theorem stripped_canonical (h : x.unscaled ≠ 0) : x.canonical.Stripped :=
  (strip_stops h (by decide)).imp_right fun hscale => le_antisymm hscale x.canonical.scale_fits.1

theorem unscaled_canonical_ne (h : x.unscaled ≠ 0) : x.canonical.unscaled ≠ 0 := by
  obtain ⟨zeros, hu, -⟩ := canonical_zeros h
  exact fun hzero => h (by rw [hu, hzero, zero_mul])

theorem toRat_canonical (x : Decimal) : x.canonical.toRat = x.toRat := toRat_strip le_rfl

theorem digitCount_canonical_le (x : Decimal) : x.canonical.digitCount ≤ x.digitCount :=
  digitCount_strip_le x Word.least

theorem ext_iff (x y : Decimal) : x = y ↔ x.unscaled = y.unscaled ∧ x.scale = y.scale := by
  cases x
  cases y
  simp

/-- Of two representations of a value that cannot be stripped, neither has the greater scale. -/
theorem scale_le_of_stripped (hvalue : x.toRat = y.toRat) (hy : y.Stripped) :
    y.scale ≤ x.scale := by
  by_contra hlt
  have hu : y.unscaled = x.unscaled * 10 ^ (y.scale - x.scale).natAbs :=
    unscaled_of_value_eq (not_le.1 hlt).le hvalue
  obtain hdigit | hleast := hy
  · refine hdigit ?_
    rw [hu]
    exact Dvd.dvd.mul_left (dvd_pow_self 10 (by omega)) _
  · have := x.scale_fits.1
    omega

theorem eq_of_stripped (hvalue : x.toRat = y.toRat) (hx : x.Stripped) (hy : y.Stripped) :
    x = y := by
  have hscale : x.scale = y.scale :=
    le_antisymm (scale_le_of_stripped hvalue.symm hx) (scale_le_of_stripped hvalue hy)
  refine (ext_iff x y).2 ⟨?_, hscale⟩
  have hunscaled := unscaled_of_value_eq hscale.ge hvalue.symm
  simpa [hscale] using hunscaled

/-- One value has one canonical form. -/
theorem canonical_eq_of_toRat_eq (h : x.toRat = y.toRat) : x.canonical = y.canonical := by
  by_cases hx : x.unscaled = 0
  · have hy : y.unscaled = 0 := by rwa [← toRat_eq_zero, ← h, toRat_eq_zero]
    rw [canonical_zero hx, canonical_zero hy]
  · have hy : y.unscaled ≠ 0 := by rwa [ne_eq, ← toRat_eq_zero, ← h, toRat_eq_zero]
    refine eq_of_stripped ?_ (stripped_canonical hx) (stripped_canonical hy)
    rw [toRat_canonical, toRat_canonical, h]

theorem canonical_canonical (x : Decimal) : x.canonical.canonical = x.canonical :=
  canonical_eq_of_toRat_eq (toRat_canonical x)

/-! ## A normal form -/

/-- The last of several digits is a zero. -/
def EndsInZero (x : Decimal) : Prop := 1 < x.digitCount ∧ 10 ∣ x.unscaled

instance (x : Decimal) : Decidable x.EndsInZero := inferInstanceAs (Decidable (_ ∧ _))

theorem not_endsInZero_strip {lowest : Int} (hlowest : Word.Fits lowest)
    (h : lowest < (x.strip lowest).scale) : ¬ (x.strip lowest).EndsInZero := by
  rintro ⟨hdigits, hzero⟩
  by_cases hx : x.unscaled = 0
  · have hone : (0 : Decimal).digitCount = 1 := digitCount_zero
    rw [strip_zero hx, hone] at hdigits
    omega
  · obtain hdigit | hstopped := strip_stops hx hlowest
    · exact hdigit hzero
    · omega

/-- The canonical form has the value of the number, and numbers are equal exactly if the integers and
the scales of their canonical forms are. Stripping to a lowest scale keeps the value as well: it leaves
no trailing zero above that scale and does not go below it, and zero becomes plain zero. -/
theorem canonical_is_normal_form :
    (∀ x : Decimal, x.canonical.toRat = x.toRat) ∧
    (∀ x y : Decimal, x.sameValue y = true ↔
      x.canonical.unscaled = y.canonical.unscaled ∧ x.canonical.scale = y.canonical.scale) ∧
    ∀ (x : Decimal) (lowest : Int), Word.Fits lowest →
      (x.strip lowest).toRat = x.toRat ∧
      (lowest < (x.strip lowest).scale → ¬ (x.strip lowest).EndsInZero) ∧
      (x.toRat = 0 → x.strip lowest = 0) ∧
      (x.toRat ≠ 0 → min lowest x.scale ≤ (x.strip lowest).scale) := by
  refine ⟨toRat_canonical, fun x y => ?_, fun x lowest hlowest => ⟨?_, ?_, ?_, ?_⟩⟩
  · rw [sameValue_iff, ← ext_iff]
    constructor
    · exact canonical_eq_of_toRat_eq
    · intro h
      rw [← toRat_canonical x, h, toRat_canonical]
  · exact toRat_strip hlowest.1
  · exact not_endsInZero_strip hlowest
  · exact fun hzero => strip_zero (toRat_eq_zero.1 hzero)
  · intro hx
    obtain ⟨zeros, -, hscale, hkept⟩ := strip_zeros (mt toRat_eq_zero.2 hx) hlowest.1
    rwa [hscale]

/-- Stripped toward one place, `1.2500` keeps two places and no zero. -/
theorem canonical_is_normal_form_two_places :
    let x := ofScaled 12500 4
    Word.Fits 1 ∧ x.toRat ≠ 0 ∧ 1 < (x.strip 1).scale ∧ x.strip 1 = ofScaled 125 2 ∧
      (x.strip 1).toRat = x.toRat ∧ ¬ (x.strip 1).EndsInZero ∧ min 1 x.scale ≤ (x.strip 1).scale ∧
      (ofScaled 0 4).toRat = 0 ∧ (ofScaled 0 4).strip 1 = 0 := by
  intro x
  have hlowest : Word.Fits 1 := by decide
  have hx : x.toRat ≠ 0 := mt toRat_eq_zero.1 (by decide)
  have habove : 1 < (x.strip 1).scale := by decide +kernel
  have hnone : (ofScaled 0 4).toRat = 0 := toRat_eq_zero.2 rfl
  obtain ⟨-, -, hstrip⟩ := canonical_is_normal_form
  obtain ⟨hvalue, hzeros, -, hkept⟩ := hstrip x 1 hlowest
  obtain ⟨-, -, hplain, -⟩ := hstrip (ofScaled 0 4) 1 hlowest
  exact ⟨hlowest, hx, habove, by decide +kernel, hvalue, hzeros habove, hkept hx, hnone,
    hplain hnone⟩

end Reckoner.Decimal
