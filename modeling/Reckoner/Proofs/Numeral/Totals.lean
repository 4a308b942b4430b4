import Reckoner.Proofs.Decimal.Exact
import Reckoner.Proofs.Numeral.SmallWords

/-!
# Totals of groups

While a whole number is read, the total of the closed groups is exact: it ends with as many zeros
as the number does, and so it never has more digits to keep than the number.
-/

namespace Reckoner.Numeral

open Decimal

/-! ## Totals -/

/-- A decimal that is a whole number, without digits behind the point. -/
structure Totals (x : Decimal) (n : Nat) : Prop where
  value : x.toRat = n
  whole : x.scale ≤ 0

theorem totals_ofNat (n : Nat) : Totals (ofNat n) n := by
  constructor
  · rw [ofNat, toRat_ofInt, Int.cast_natCast]
  · exact le_rfl

theorem totals_movePoint {count exponent : Nat} (h : Word.Fits exponent) :
    Totals ((ofNat count).movePoint exponent) (count * 10 ^ exponent) := by
  have hscale : Word.Fits ((ofNat count).scale - exponent) := by
    unfold Word.Fits Word.least Word.greatest at *
    change -9223372036854775808 ≤ 0 - (exponent : Int) ∧ 0 - (exponent : Int) ≤ _
    omega
  constructor
  · rw [toRat_movePoint hscale, (totals_ofNat count).value, zpow_natCast, Nat.cast_mul,
      Nat.cast_pow, Nat.cast_ofNat]
  · refine Word.saturate_le ?_ Word.zero_fits.1
    change 0 - (exponent : Int) ≤ 0
    omega

variable {x y : Decimal} {a b j n : Nat}

theorem Totals.toRat_eq (h : Totals x a) (hdvd : 10 ^ j ∣ a) :
    x.toRat = (a / 10 ^ j : Nat) * 10 ^ (-(-(j : Int))) := by
  rw [neg_neg, zpow_natCast, h.value]
  exact_mod_cast (Nat.div_mul_cancel hdvd).symm

/-- Totals that end with enough zeros are added exactly. -/
theorem Totals.add (hx : Totals x a) (hy : Totals y b) (ha : 10 ^ j ∣ a) (hb : 10 ^ j ∣ b)
    (hsum : a + b < 10 ^ (context.precision + j)) (hj : Word.least ≤ -(j : Int)) :
    Totals (context.add x y) (a + b) := by
  have hshort : a / 10 ^ j + b / 10 ^ j < 10 ^ context.precision := by
    rw [← Nat.add_div_of_dvd_left hb]
    refine Nat.div_lt_of_lt_mul ?_
    rwa [← pow_add, add_comm j]
  obtain ⟨hvalue, hscale⟩ :=
    context.toRat_add (hx.toRat_eq ha) (hy.toRat_eq hb) hshort hj
  constructor
  · rw [hvalue, hx.value, hy.value, Nat.cast_add]
  · exact hscale.trans (max_le hx.whole hy.whole)

/-! ## Names that add a number -/

/-- Names that take any total, whose zeros reach to the place `j`, to that total and `n`: part of
it is closed and part of it is the last count. -/
def Adds (names : List String) (n j : Nat) : Prop :=
  ∀ (total : Decimal) (a : Nat), Totals total a → 10 ^ j ∣ a →
    a + n < 10 ^ (context.precision + j) →
    ∃ (total' : Decimal) (a' count : Nat), Steps names (total, 0) (total', count) ∧
      Totals total' a' ∧ 10 ^ j ∣ a' ∧ a' + count = a + n

theorem adds_smallWords (h : n < 1000) : Adds (smallWords n) n j :=
  fun total a htotal hdvd _ => ⟨total, a, n, steps_smallWords h, htotal, hdvd, rfl⟩

theorem Adds.group {names : List String} {count index : Nat} (h : Adds names n j)
    (hpos : count ≠ 0) (hcount : count < 1000) (hfits : Word.Fits ((index + 1) * 3))
    (hdvd : 10 ^ j ∣ count * 10 ^ ((index + 1) * 3)) (hj : Word.least ≤ -(j : Int)) :
    Adds (smallWords count ++ powerName index :: names) (count * 10 ^ ((index + 1) * 3) + n) j := by
  intro total a htotal ha hsum
  have hpower : Totals ((ofNat count).movePoint ((index + 1) * 3))
      (count * 10 ^ ((index + 1) * 3)) := @totals_movePoint count ((index + 1) * 3) hfits
  have hnext := htotal.add hpower ha hdvd (by omega) hj
  obtain ⟨total', a', last, hsteps, htotal', ha', heq⟩ :=
    h _ _ hnext (dvd_add ha hdvd) (by omega)
  refine ⟨total', a', last, ?_, htotal', ha', by omega⟩
  exact (steps_smallWords hcount).append (.cons (.power hpos hfits) hsteps)

end Reckoner.Numeral
