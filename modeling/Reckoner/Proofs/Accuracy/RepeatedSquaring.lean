import Reckoner.Proofs.Accuracy.RelativeErrors
import Reckoner.Proofs.Loops.Ranges
import Reckoner.Proofs.Scales.Powers

/-!
# Repeated squaring

On its way to a power, repeated squaring holds two powers with smaller exponents: the result so far and
a square. What is kept when the two are multiplied, and when the square is multiplied by itself, holds
of the whole power. That is said here of three things: the number of rounding errors, which is never
more than the exponent, the exact value, as long as the whole power is short, and the distance to the
ends of the word range.
-/

namespace Reckoner

open Decimal

variable {ctx : Context} {base result square x y : Decimal} {i j k n total : Nat}
  {R S : Nat → Decimal → Prop}

namespace Decimal

/-- The number has at most so many digits, and it is at most so many places away from one. -/
structure Sized (x : Decimal) (digits places : Nat) : Prop where
  digits_le : x.digitCount ≤ digits
  lower : (10 : ℚ) ^ (-places : Int) ≤ |x.toRat|
  upper : |x.toRat| ≤ 10 ^ (places : Int)

theorem Sized.within {digits places : Nat} (h : x.Sized digits places) :
    x.Within (digits + places) :=
  within_of_bounds places h.digits_le h.lower h.upper

theorem sized_one {digits : Nat} (h : 0 < digits) : (1 : Decimal).Sized digits 0 := by
  have hdigits : (1 : Decimal).digitCount = 1 := by decide +kernel
  refine ⟨by omega, ?_, ?_⟩ <;> simp [toRat_one]

end Decimal

/-! ## Runs -/

/-- The result stands for a power with the first exponent, the square for one with the second. One
multiplication keeps what is said of either. -/
structure PowerInvariant (ctx : Context) (total : Nat) (R S : Nat → Decimal → Prop) : Prop where
  multiply {i j : Nat} {x y : Decimal} : R i x → S j y → i + j ≤ total →
    (Traced.mul ctx x y).Fits → R (i + j) (ctx.mul x y)
  square {j : Nat} {y : Decimal} : S j y → 2 * j ≤ total →
    (Traced.mul ctx y y).Fits → S (2 * j) (ctx.mul y y)

/-- The result after a binary digit of the exponent. -/
def Context.multiplyOdd (ctx : Context) (result square : Decimal) (n : Nat) : Decimal :=
  if n % 2 = 1 then ctx.mul result square else result

theorem Context.squareUp_of_ne_zero (hn : n ≠ 0) : ctx.squareUp result square n =
    if n / 2 = 0 then ctx.multiplyOdd result square n
    else ctx.squareUp (ctx.multiplyOdd result square n) (ctx.mul square square) (n / 2) := by
  rw [squareUp, if_neg hn]
  rfl

theorem halved_exponent (i j n : Nat) : i + j * (n % 2) + 2 * j * (n / 2) = i + j * n := by
  conv_rhs => rw [← Nat.mod_add_div n 2]
  ring

namespace Traced

theorem fits_squareUp_iff (hn : n ≠ 0) : (squareUp ctx result square n).Fits ↔
    (multiplyOdd ctx result square n).Fits ∧ (n / 2 ≠ 0 → (mul ctx square square).Fits ∧
      (squareUp ctx (ctx.multiplyOdd result square n) (ctx.mul square square) (n / 2)).Fits) := by
  rw [squareUp, if_neg hn, fits_bind_of_ok (result_multiplyOdd _ _ _)]
  refine and_congr_right fun _ => ?_
  split
  · next hlast => exact iff_of_true (fits_pure _) fun h => absurd hlast h
  · next hlast =>
    rw [fits_bind_of_ok result_mul]
    exact ⟨fun h _ => h, fun h => h hlast⟩

end Traced

namespace PowerInvariant

variable (h : PowerInvariant ctx total R S) (hR : R i result) (hS : S j square)
  (htotal : i + j * n = total)
include h hR hS htotal

theorem multiplyOdd (hfits : (Traced.multiplyOdd ctx result square n).Fits) :
    R (i + j * (n % 2)) (ctx.multiplyOdd result square n) := by
  unfold Traced.multiplyOdd at hfits
  unfold Context.multiplyOdd
  split at hfits
  · next hodd =>
    rw [if_pos hodd, hodd, mul_one]
    have hle : j ≤ j * n := Nat.le_mul_of_pos_right j (by omega)
    exact h.multiply hR hS (by omega) hfits
  · next heven =>
    rw [if_neg heven, show n % 2 = 0 by omega, mul_zero, add_zero]
    exact hR

omit hR in
/-- What is left to do is a half of the exponent for the doubled square. -/
theorem doubled (hlast : n / 2 ≠ 0) : 2 * j ≤ total ∧
    ((Traced.mul ctx square square).Fits → S (2 * j) (ctx.mul square square)) := by
  have hle : j * 2 ≤ j * n := Nat.mul_le_mul_left j (by omega)
  exact ⟨by omega, h.square hS (by omega)⟩

/-- What each multiplication keeps holds of the whole power. -/
theorem squareUp (hfits : (Traced.squareUp ctx result square n).Fits) :
    R total (ctx.squareUp result square n) := by
  induction n using Nat.strongRecOn generalizing result square i j with
  | ind n ih =>
    by_cases hn : n = 0
    · rw [hn, Context.squareUp, if_pos rfl, ← htotal, hn, mul_zero, add_zero]
      exact hR
    obtain ⟨hodd, hrest⟩ := (Traced.fits_squareUp_iff hn).1 hfits
    have hR' := h.multiplyOdd hR hS htotal hodd
    have hhalves := (halved_exponent i j n).trans htotal
    rw [Context.squareUp_of_ne_zero hn]
    split
    · next hlast =>
      rw [hlast, mul_zero, add_zero] at hhalves
      rwa [← hhalves]
    · next hlast =>
      obtain ⟨hsquare, hfits'⟩ := hrest hlast
      exact ih (n / 2) (by omega) hR' ((h.doubled hS htotal hlast).2 hsquare) hhalves hfits'

/-- The scales of a run fit if those of each multiplication do. -/
theorem fits_squareUp
    (hmultiply : ∀ {i j : Nat} {x y : Decimal}, R i x → S j y → i + j ≤ total →
      (Traced.mul ctx x y).Fits)
    (hsquare : ∀ {j : Nat} {y : Decimal}, S j y → 2 * j ≤ total → (Traced.mul ctx y y).Fits) :
    (Traced.squareUp ctx result square n).Fits := by
  induction n using Nat.strongRecOn generalizing result square i j with
  | ind n ih =>
    by_cases hn : n = 0
    · rw [hn, Traced.squareUp, if_pos rfl]
      exact Traced.fits_pure _
    have hodd : (Traced.multiplyOdd ctx result square n).Fits := by
      unfold Traced.multiplyOdd
      split
      · have hle : j ≤ j * n := Nat.le_mul_of_pos_right j (by omega)
        exact hmultiply hR hS (by omega)
      · exact Traced.fits_pure _
    refine (Traced.fits_squareUp_iff hn).2 ⟨hodd, fun hlast => ?_⟩
    obtain ⟨hle, hdoubled⟩ := h.doubled hS htotal hlast
    have hfits := hsquare hS hle
    exact ⟨hfits, ih (n / 2) (by omega) (h.multiplyOdd hR hS htotal hodd) (hdoubled hfits)
      ((halved_exponent i j n).trans htotal)⟩

end PowerInvariant

namespace Context

/-! ## Errors -/

/-- No power has taken more rounding errors than its exponent says. -/
theorem power_errors (ctx : Context) (q : ℚ) (total : Nat) : PowerInvariant ctx total
    (fun i x => Near ctx.roundoff i x.toRat (q ^ i))
    (fun j y => 0 < j ∧ Near ctx.roundoff (j - 1) y.toRat (q ^ j)) where
  multiply {i j x y} hx hy _ hfits := by
    obtain ⟨hj, hy⟩ := hy
    have hnear := near_mul hfits hx hy
    rwa [← pow_add, show 1 + (i + (j - 1)) = i + j by omega] at hnear
  square {j y} hy _ hfits := by
    obtain ⟨hj, hy⟩ := hy
    have hnear := near_mul hfits hy hy
    rw [← pow_add, ← two_mul j, show 1 + (j - 1 + (j - 1)) = 2 * j - 1 by omega] at hnear
    exact ⟨by omega, hnear⟩

theorem near_squareUp (hfits : (Traced.squareUp ctx 1 base n).Fits) :
    Near ctx.roundoff n (ctx.squareUp 1 base n).toRat (base.toRat ^ n) := by
  refine (ctx.power_errors base.toRat n).squareUp (i := 0) (j := 1) ?_ ⟨one_pos, ?_⟩ (by omega) hfits
  · rw [pow_zero, toRat_one]
    exact .refl _ 1
  · rw [pow_one]
    exact .refl _ _

/-! ## Short powers -/

/-- Nothing is rounded on the way to a power whose factors are all short. -/
theorem power_values {q : ℚ} (hshort : ∀ k ≤ total, Rounding.Short ctx.precision (q ^ k)) :
    PowerInvariant ctx total (fun i x => x.toRat = q ^ i) (fun j y => y.toRat = q ^ j) where
  multiply hx hy hle hfits := by
    rw [value_mul hfits, hx, hy, ← pow_add]
    exact (hshort _ hle).significant
  square hy hle hfits := by
    rw [value_mul hfits, hy, ← pow_add, ← two_mul]
    exact (hshort _ hle).significant

theorem toRat_squareUp (hshort : ∀ k ≤ n, Rounding.Short ctx.precision (base.toRat ^ k))
    (hfits : (Traced.squareUp ctx 1 base n).Fits) :
    (ctx.squareUp 1 base n).toRat = base.toRat ^ n :=
  (power_values hshort).squareUp (i := 0) (j := 1) (by rw [pow_zero, toRat_one]) (pow_one _).symm
    (by omega) hfits

/-! ## Sizes -/

theorem sized_mul {digits a b : Nat} (hprecision : ctx.precision ≤ digits)
    (hx : x.Sized digits a) (hy : y.Sized digits b) (hfits : (Traced.mul ctx x y).Fits) :
    (ctx.mul x y).Sized digits (a + b) := by
  refine ⟨digitCount_mul_le.trans hprecision, ?_, ?_⟩ <;> rw [value_mul hfits]
  · refine (Rounding.short_pow ctx.precision_pos _).le_abs_significant ctx.precision_pos ?_
    rw [Nat.cast_add, neg_add, zpow_add₀ (by norm_num), abs_mul]
    exact mul_le_mul hx.lower hy.lower (by positivity) (abs_nonneg _)
  · refine abs_rounded_le (Rounding.short_pow ctx.precision_pos _) ?_
    rw [Nat.cast_add, zpow_add₀ (by norm_num), abs_mul]
    exact mul_le_mul hx.upper hy.upper (abs_nonneg _) (by positivity)

/-- A power is as many times as far from one as its exponent says. -/
theorem power_sizes {digits : Nat} (hprecision : ctx.precision ≤ digits) (places total : Nat) :
    PowerInvariant ctx total (fun i x => x.Sized digits (places * i))
      (fun j y => y.Sized digits (places * j)) where
  multiply hx hy _ hfits := by
    rw [mul_add]
    exact sized_mul hprecision hx hy hfits
  square hy _ hfits := by
    rw [two_mul, mul_add]
    exact sized_mul hprecision hy hy hfits

/-- The scales of all steps fit if the digits and the distance of the power from one leave room. -/
theorem squareUp_of_sized {digits places : Nat} (hprecision : ctx.precision ≤ digits)
    (hbase : base.Sized digits places) (hroom : ctx.Roomy (digits + places * n)) :
    (Traced.squareUp ctx 1 base n).Fits ∧
      (ctx.squareUp 1 base n).Sized digits (places * n) := by
  have hone : (1 : Decimal).Sized digits (places * 0) :=
    sized_one (ctx.precision_pos.trans_le hprecision)
  have hwithin {i : Nat} {x : Decimal} (hx : x.Sized digits (places * i)) (hi : i ≤ n) :
      x.Within (digits + places * n) :=
    hx.within.mono (Nat.add_le_add_left (Nat.mul_le_mul_left places hi) digits)
  have hsizes := power_sizes hprecision places n
  have hbase' : base.Sized digits (places * 1) := by rwa [mul_one]
  have hfits : (Traced.squareUp ctx 1 base n).Fits := by
    refine hsizes.fits_squareUp hone hbase' (by omega) ?_ ?_
    · exact fun hx hy hle =>
        (mul_of_within (hwithin hx (by omega)) (hwithin hy (by omega)) hroom).1
    · exact fun hy hle =>
        (mul_of_within (hwithin hy (by omega)) (hwithin hy (by omega)) hroom).1
  exact ⟨hfits, hsizes.squareUp hone hbase' (by omega) hfits⟩

end Context

end Reckoner
