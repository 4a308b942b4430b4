import Reckoner.Proofs.Loops.Passes
import Reckoner.Proofs.Loops.Ranges

/-!
# Reductions that end

Each step of a reduction takes the number from one short bound below the next one. Rounding passes no
short bound, so as many passes are enough as there are bounds.
-/

namespace Reckoner

open Integer Decimal

variable {ctx : Context} {x y : Decimal} {n : Nat}

namespace Reduction

variable {reduction : Reduction} {count : Nat}

theorem pass_of_near (h : reduction.isFar x = false) :
    reduction.pass (x, count) = .ok (.inr (x, count)) := by
  unfold pass
  rw [if_neg (by simp [h])]

theorem pass_of_far (h : reduction.isFar x = true) (hstep : reduction.step x = .ok y) :
    reduction.pass (x, count) = .ok (.inl (y, count + 1)) := by
  unfold pass
  rw [if_pos h, hstep]
  rfl

/-- A reduction ends if each step from a far number goes down to the next of its bounds. -/
theorem ends_of_bounds (reduction : Reduction) {I : Nat → Decimal → Prop}
    (hnear : ∀ x, I 0 x → reduction.isFar x = false)
    (hstep : ∀ n x, I (n + 1) x → reduction.isFar x = true →
      Succeeds (reduction.step x) (I n)) {n : Nat} (hx : I n x) :
    ∃ y count m, EndsWithin reduction.pass (n + 1) (x, 0) (y, count) ∧
      reduction.isFar y = false ∧ m + count = n ∧ I m y := by
  have hpass (left : Nat) (s : Decimal × Nat) (hs : left + s.2 = n ∧ I left s.1) :
      (∃ r, reduction.pass s = .ok (.inr r) ∧
        reduction.isFar r.1 = false ∧ ∃ m, m + r.2 = n ∧ I m r.1) ∨
      ∃ m s', left = m + 1 ∧ reduction.pass s = .ok (.inl s') ∧ m + s'.2 = n ∧ I m s'.1 := by
    obtain ⟨x, count⟩ := s
    obtain ⟨hleft, hI⟩ := hs
    cases hfar : reduction.isFar x with
    | false => exact .inl ⟨_, pass_of_near hfar, hfar, left, hleft, hI⟩
    | true =>
      cases left with
      | zero =>
        rw [hnear x hI] at hfar
        cases hfar
      | succ left =>
        obtain ⟨y, hy, hnext⟩ := hstep left x hI hfar
        exact .inr ⟨left, _, rfl, pass_of_far hfar hy, by omega, hnext⟩
  obtain ⟨⟨y, count⟩, hends, hfar, m, hm, hI⟩ := EndsWithin.of_measure hpass (s := (x, 0)) ⟨rfl, hx⟩
  exact ⟨y, count, m, hends, hfar, hm, hI⟩

/-! ## Halving -/

theorem toRat_half : half.toRat = 1 / 2 := by
  rw [half, toRat_ofScaled _ (by decide)]
  norm_num

theorem toRat_mul_half (h : x.scale < Word.greatest) : (x * half).toRat = x.toRat / 2 := by
  have hfits : Word.Fits (x.scale + half.scale) :=
    ⟨x.scale_fits.1.trans (Int.le_add_of_nonneg_right (by decide)), h⟩
  change (ofScaled _ _).toRat = _
  rw [toRat_ofScaled _ hfits, Int.cast_mul, neg_add, zpow_add₀ (by norm_num), mul_mul_mul_comm]
  change x.toRat * half.toRat = _
  rw [toRat_half]
  ring

theorem isFar_halving : halving.isFar x = true ↔ 1 / 2 < x.toRat := by
  rw [halving, decide_eq_true_eq, lt_iff, toRat_half]

/-- Halving an exact product brings at most one digit more. -/
theorem digitCount_mul_half (x : Decimal) : (x * half).digitCount ≤ x.digitCount + 1 := by
  have hlt : x.unscaled.natAbs < 10 ^ x.digitCount := natAbs_unscaled_lt le_rfl
  refine (digitCount_le_iff (Nat.succ_pos _)).2 ?_
  change (x.unscaled * 5).natAbs < _
  rw [Int.natAbs_mul, pow_succ, show (5 : Int).natAbs = 5 from rfl]
  omega

/-- The scale of a number above one half is not greater than its digits. -/
theorem scale_le_of_half_lt (h : 1 / 2 < x.toRat) : x.scale ≤ x.digitCount := by
  have hle : (10 : ℚ) ^ (-1 : Int) ≤ |x.toRat| := by
    rw [abs_of_pos (by linarith), zpow_neg_one]
    linarith
  have hlt := (zpow_lt_zpow_iff_right₀ (by norm_num)).1 (hle.trans_lt (abs_toRat_lt_pow x))
  omega

theorem halving_ends (hx : 0 ≤ x.toRat) (hexponent : x.exponent ≤ Context.exponentLimit)
    (hdigits : (x.digitCount + 60 : Int) ≤ Word.greatest) :
    ∃ y count, EndsWithin halving.pass 56 (x, 0) (y, count) ∧ count ≤ 55 ∧ 0 ≤ y.toRat ∧
      y.toRat ≤ 1 / 2 ∧ y.digitCount ≤ x.digitCount + 55 := by
  have hupper : x.toRat ≤ 2 ^ 55 / 2 := by
    have hlt := abs_toRat_lt_exponent (hexponent.trans_lt (by decide))
    have hle : (10 : ℚ) ^ (x.exponent + 1) ≤ 10 ^ (16 : Int) :=
      zpow_le_zpow_right₀ (by norm_num) (by unfold Context.exponentLimit at hexponent; omega)
    refine (le_abs_self _).trans (hlt.le.trans (hle.trans ?_))
    norm_num
  -- with `left` halvings to go the number is below that power of two, and each of them may cost
  -- one digit and one place
  have hends := ends_of_bounds halving (n := 55) (x := x)
    (I := fun left y => (0 ≤ y.toRat ∧ y.toRat ≤ 2 ^ left / 2) ∧
      (1 / 2 < y.toRat → y.scale + left ≤ Word.greatest) ∧ y.digitCount + left ≤ x.digitCount + 55)
    (fun y hy => ?_) (fun left y hy hfar => ?_)
    ⟨⟨hx, hupper⟩, fun hfar => ?_, le_rfl⟩
  · obtain ⟨y, count, left, hends, hfar, hcount, hbounds, -, hlength⟩ := hends
    rw [← Bool.not_eq_true, isFar_halving, not_lt] at hfar
    exact ⟨y, count, hends, by omega, hbounds.1, hfar, by omega⟩
  · rw [← Bool.not_eq_true, isFar_halving, not_lt]
    simpa using hy.1.2
  · rw [isFar_halving] at hfar
    obtain ⟨⟨hlower, hupper⟩, hscale, hlength⟩ := hy
    have hscale := hscale hfar
    have hvalue := toRat_mul_half (x := y) (by push_cast at hscale; omega)
    have hmoved : (y * half).scale ≤ y.scale + 1 :=
      Word.saturate_le le_rfl (by have := y.scale_fits.1; omega)
    have hgrown := digitCount_mul_half y
    refine succeeds_ok ⟨⟨?_, ?_⟩, fun _ => ?_, by omega⟩
    · rw [hvalue]
      linarith
    · rw [pow_succ] at hupper
      rw [hvalue]
      linarith
    · push_cast at hscale
      omega
  · have := scale_le_of_half_lt hfar
    push_cast
    omega

/-! ## Square roots -/

theorem isFar_rooting : (rooting ctx).isFar x = true ↔ 11 / 10 < x.toRat ∨ x.toRat < 9 / 10 := by
  rw [rooting, decide_eq_true_eq, lt_iff, lt_iff, toRat_ofScaled 11 (by decide),
    toRat_ofScaled 9 (by decide)]
  norm_num

/-- The roots of a number with a leading digit before the point come near one. -/
theorem rooting_ends (hx : Traced.Leading x) (hprecision : 2 ≤ ctx.precision)
    (h : ctx.Roomy (ctx.precision + 2 * x.digitCount + 1)) :
    ∃ y count, EndsWithin (rooting ctx).pass (x.digitCount + 7) (x, 0) (y, count) ∧
      1 ≤ y.toRat ∧ y.toRat ≤ 11 / 10 ∧ y.digitCount ≤ ctx.precision + x.digitCount := by
  have hbound : x.toRat ≤ Traced.rootBound (x.digitCount + 1 + 5) :=
    hx.upper.le.trans (pow_le_pow_right₀ (by norm_num) Nat.lt_two_pow_self.le)
  have hplaces : Rounding.Short ctx.precision ((10 : ℚ) ^ (x.digitCount + 1)) := by
    exact_mod_cast Rounding.short_pow (K := ℚ) ctx.precision_pos (x.digitCount + 1 : Nat)
  have hends := ends_of_bounds (rooting ctx) (n := x.digitCount + 6) (x := x)
    (I := fun left y => (1 ≤ y.toRat ∧ y.toRat ≤ Traced.rootBound left) ∧
      y.toRat ≤ 10 ^ (x.digitCount + 1) ∧ y.digitCount ≤ ctx.precision + x.digitCount)
    (fun y hy => ?_) (fun left y hy _ => ?_) ⟨⟨hx.lower, hbound⟩, hx.upper.le, by omega⟩
  · obtain ⟨y, count, left, hends, hfar, -, hbounds, -, hlength⟩ := hends
    rw [← Bool.not_eq_true, isFar_rooting, not_or, not_lt] at hfar
    exact ⟨y, count, hends, hbounds.1, hfar.1, hlength⟩
  · rw [← Bool.not_eq_true, isFar_rooting, not_or, not_lt, not_lt]
    have hlast := hy.1.2
    rw [Traced.rootBound] at hlast
    exact ⟨hlast, by linarith [hy.1.1]⟩
  · obtain ⟨⟨hlower, hupper⟩, hplace, hlength⟩ := hy
    have hwithin : y.Within (ctx.precision + 2 * x.digitCount + 1) := by
      refine (within_of_pos (x.digitCount + 1) hlength ?_ hplace).mono (by omega)
      exact (div_le_one_of_le₀ (one_le_pow₀ (by norm_num)) (by positivity)).trans hlower
    obtain ⟨r, hr, hbounds, hcount⟩ := Context.sqrt_bounds hwithin h hlower
      (zero_le_one.trans (Traced.one_le_rootBound left)) (Traced.short_rootBound hprecision left)
      (hupper.trans (Traced.rootBound_succ_le left))
    -- the bound on the place of the root is kept beside the one that falls
    obtain ⟨r', hr', hbounds', -⟩ := Context.sqrt_bounds hwithin h hlower (by positivity) hplaces
      (hplace.trans (le_self_pow₀ (one_le_pow₀ (by norm_num)) two_ne_zero))
    obtain rfl : r = r' := Except.ok.inj (hr.symm.trans hr')
    exact ⟨r, hr, hbounds, hbounds'.2, by omega⟩

/-! ## Half angles -/

/-- Bounds that a tangent meets in turn as its angle is halved. -/
def tangentBound : Nat → ℚ
  | 0 => 1 / 10
  | 1 => 2 / 10
  | 2 => 3 / 10
  | 3 => 5 / 10
  | _ + 4 => 1

theorem tangentBound_succ_le (n : Nat) : tangentBound (n + 1) ≤ 2 * tangentBound n := by
  match n with
  | 0 | 1 | 2 | 3 => norm_num [tangentBound]
  | n + 4 =>
    change (1 : ℚ) ≤ 2 * 1
    norm_num

theorem tangentBound_le_one (n : Nat) : tangentBound n ≤ 1 := by
  match n with
  | 0 | 1 | 2 | 3 => norm_num [tangentBound]
  | n + 4 => exact le_rfl

theorem short_tangentBound (ctx : Context) (n : Nat) :
    Rounding.Short ctx.precision (tangentBound n) := by
  have htenths (d : Int) (hd : |d| < 10) (h : tangentBound n = d / 10) :
      Rounding.Short ctx.precision (tangentBound n) :=
    Rounding.short_of_digit ctx.precision_pos hd (by rw [h, zpow_neg_one, div_eq_mul_inv])
  match n with
  | 0 => exact htenths 1 (by decide) rfl
  | 1 => exact htenths 2 (by decide) rfl
  | 2 => exact htenths 3 (by decide) rfl
  | 3 => exact htenths 5 (by decide) rfl
  | n + 4 => exact Rounding.short_one ctx.precision_pos

theorem isFar_angleHalving : (angleHalving ctx).isFar x = true ↔ 1 / 10 < x.toRat := by
  rw [angleHalving, decide_eq_true_eq, lt_iff, toRat_ofScaled 1 (by decide)]
  norm_num

/-- A step of the halving of an angle: the tangent is divided by a number that is at least two. -/
theorem angleHalving_step (h : ctx.Roomy (n + 3)) (hprecision : ctx.precision ≤ n)
    (hdigits : x.digitCount ≤ n) (hlower : 1 / 10 < x.toRat) (hupper : x.toRat ≤ 1) {b : ℚ}
    (hb : Rounding.Short ctx.precision b) (hhalf : x.toRat ≤ 2 * b) :
    Succeeds ((angleHalving ctx).step x) fun y =>
      (1 / 100 ≤ y.toRat ∧ y.toRat ≤ b) ∧ y.digitCount ≤ ctx.precision := by
  have hpos := ctx.precision_pos
  have hone : Rounding.Short ctx.precision (1 : ℚ) := Rounding.short_one hpos
  have htwo : Rounding.Short ctx.precision (2 : ℚ) :=
    Rounding.short_of_digit (n := 2) (k := 0) hpos (by decide) (by norm_num)
  have hthree : Rounding.Short ctx.precision (3 : ℚ) :=
    Rounding.short_of_digit (n := 3) (k := 0) hpos (by decide) (by norm_num)
  have hhundredth : Rounding.Short ctx.precision (1 / 100 : ℚ) :=
    Rounding.short_of_digit (n := 1) (k := -2) hpos (by decide) (by norm_num)
  -- Every number on the way lies between a hundredth and ten.
  have hwithin {y : Decimal} (hy : y.digitCount ≤ n) (hlower : 1 / 100 ≤ y.toRat)
      (hupper : y.toRat ≤ 10) : y.Within (n + 3) := by
    refine (within_of_pos 2 hy ?_ ?_).mono (by omega) <;> linarith
  have hwithinOne : (1 : Decimal).Within (n + 3) :=
    hwithin ((digitCount_pow 0).trans_le (hpos.trans_le hprecision)) (by rw [toRat_one]; norm_num)
      (by rw [toRat_one]; norm_num)
  have hx := hwithin hdigits (by linarith) (by linarith)
  have hsquare := Context.mul_bounds hx hx h hhundredth hone ⟨by nlinarith, by nlinarith⟩
  have hsquareWithin := hwithin (Context.digitCount_mul_le.trans hprecision) hsquare.1
    (by linarith [hsquare.2])
  have hsum := Context.add_bounds hwithinOne hsquareWithin h hone htwo
    (by rw [toRat_one]; constructor <;> linarith)
  have hsumWithin := hwithin (y := ctx.add 1 (ctx.mul x x))
    (Context.digitCount_add_le.trans hprecision) (by linarith [hsum.1]) (by linarith [hsum.2])
  refine (Context.sqrt_bounds hsumWithin h hsum.1 (by norm_num) htwo (by linarith [hsum.2])).bind
    fun root hroot => ?_
  have hrootWithin := hwithin (hroot.2.trans hprecision) (by linarith) (by linarith)
  have hdivisor := Context.add_bounds hwithinOne hrootWithin h htwo hthree
    (by rw [toRat_one]; constructor <;> linarith)
  have hdivisorWithin := hwithin (y := ctx.add 1 root)
    (Context.digitCount_add_le.trans hprecision) (by linarith [hdivisor.1]) (by linarith [hdivisor.2])
  have hdivisorPos : 0 < (ctx.add 1 root).toRat := by linarith [hdivisor.1]
  refine Context.div_bounds (Context.fits_div hx hdivisorWithin h) hdivisorPos.ne' hhundredth hb
    ⟨?_, ?_⟩
  · rw [le_div_iff₀ hdivisorPos]
    linarith [hdivisor.2]
  · rw [div_le_iff₀ hdivisorPos]
    have hb0 : 0 ≤ b := by linarith
    nlinarith [hdivisor.1]

/-- An angle whose tangent is at most one is halved at most four times. -/
theorem angleHalving_ends (h : ctx.Roomy (n + 3)) (hprecision : ctx.precision ≤ n)
    (hdigits : x.digitCount ≤ n) (hlower : 0 ≤ x.toRat) (hupper : x.toRat ≤ 1) :
    ∃ y count, EndsWithin (angleHalving ctx).pass 5 (x, 0) (y, count) ∧ count ≤ 4 ∧
      0 ≤ y.toRat ∧ y.toRat ≤ 1 / 10 ∧ y.digitCount ≤ n ∧ (y = x ∨ 1 / 100 ≤ y.toRat) := by
  have hends := ends_of_bounds (angleHalving ctx) (n := 4) (x := x)
    (I := fun left y => (0 ≤ y.toRat ∧ y.toRat ≤ tangentBound left) ∧ y.digitCount ≤ n ∧
      (y = x ∨ 1 / 100 ≤ y.toRat))
    (fun y hy => ?_) (fun left y hy hfar => ?_) ⟨⟨hlower, hupper⟩, hdigits, .inl rfl⟩
  · obtain ⟨y, count, left, hends, hfar, hcount, hbounds, hlength, hstart⟩ := hends
    rw [← Bool.not_eq_true, isFar_angleHalving, not_lt] at hfar
    exact ⟨y, count, hends, by omega, hbounds.1, hfar, hlength, hstart⟩
  · rw [← Bool.not_eq_true, isFar_angleHalving, not_lt]
    exact hy.1.2
  · rw [isFar_angleHalving] at hfar
    obtain ⟨⟨-, hbound⟩, hlength, -⟩ := hy
    refine (angleHalving_step h hprecision hlength hfar
      (hbound.trans (tangentBound_le_one _)) (short_tangentBound ctx left)
      (hbound.trans (tangentBound_succ_le left))).imp fun z hz => ?_
    exact ⟨⟨by linarith [hz.1.1], hz.1.2⟩, hz.2.trans hprecision, .inr hz.1.1⟩

end Reduction

end Reckoner
