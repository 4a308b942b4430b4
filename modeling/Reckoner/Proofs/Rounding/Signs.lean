import Reckoner.Context.SquareRoot
import Reckoner.Proofs.Decimal.Tests
import Reckoner.Proofs.Rounding.Nearest

/-!
# Signs of rounded results

A rounded sum, product or quotient is positive, zero or negative as the exact one is, in every mode
and also where a scale stops at the end of the word range. What is at least one stays so.
-/

namespace Reckoner

open Integer

variable {mode : Rounding} {ctx : Context} {x y z : Decimal} {digits : Nat}

/-! ## Integers -/

theorem Rounding.le_quotient {n v : Int} {d : Nat} (hd : 0 < d) (h : n * d ≤ v) :
    n ≤ mode.quotient v d := by
  rw [quotient_eq_nearest (K := ℚ) mode v (Int.natCast_pos.2 hd)]
  refine le_nearest mode ((le_div_iff₀ (by exact_mod_cast hd)).2 ?_)
  exact_mod_cast h

theorem Rounding.quotient_le {n v : Int} {d : Nat} (hd : 0 < d) (h : v ≤ n * d) :
    mode.quotient v d ≤ n := by
  rw [quotient_eq_nearest (K := ℚ) mode v (Int.natCast_pos.2 hd)]
  refine nearest_le mode ((div_le_iff₀ (by exact_mod_cast hd)).2 ?_)
  exact_mod_cast h

theorem Rounding.sign_quotient {v : Int} {d : Nat} (hd : 0 < d) (h : d ≤ v.natAbs) :
    (mode.quotient v d).sign = v.sign := by
  obtain hpos | hneg := le_or_gt 0 v
  · have hle : 1 ≤ mode.quotient v d := le_quotient hd (by omega)
    rw [Int.sign_eq_one_of_pos (by omega), Int.sign_eq_one_of_pos (by omega)]
  · have hle : mode.quotient v d ≤ -1 := quotient_le hd (by omega)
    rw [Int.sign_eq_neg_one_of_neg (by omega), Int.sign_eq_neg_one_of_neg hneg]

theorem sign_tdiv_ten {n : Int} (h : 10 ≤ n.natAbs) : (n.tdiv 10).sign = n.sign := by
  rw [Int.sign_tdiv, if_neg (by omega)]
  exact mul_one _

/-- A digit that is appended to an integer does not change its sign. -/
theorem sign_append {n d : Int} (hn : n ≠ 0) (hd : d.natAbs < 10) : (n * 10 + d).sign = n.sign := by
  obtain hneg | hpos := lt_or_gt_of_ne hn
  · rw [Int.sign_eq_neg_one_of_neg hneg, Int.sign_eq_neg_one_of_neg (by omega)]
  · rw [Int.sign_eq_one_of_pos hpos, Int.sign_eq_one_of_pos (by omega)]

namespace Decimal

/-- The number that is greater in size decides the sign of a sum. -/
theorem sign_add_of_abs_lt (h : |y.toRat| < |x.toRat|) : (x + y).sign = x.sign := by
  have hvalue := toRat_add x y
  rcases lt_trichotomy x.toRat 0 with hneg | hzero | hpos
  · rw [abs_of_neg hneg] at h
    rw [sign_of_neg hneg, sign_of_neg (by linarith [le_abs_self y.toRat])]
  · rw [hzero, abs_zero] at h
    exact absurd h (abs_nonneg _).not_gt
  · rw [abs_of_pos hpos] at h
    rw [sign_of_pos hpos, sign_of_pos (by linarith [neg_abs_le y.toRat])]

theorem pow10_le_natAbs {k : Nat} (hx : x.unscaled ≠ 0) (h : k < x.digitCount) :
    pow10 k ≤ x.unscaled.natAbs := by
  have hle : pow10 (x.digitCount - 1) ≤ x.unscaled.natAbs := pow10_digitCount_le (by omega)
  exact (Nat.pow_le_pow_right (by decide) (by omega)).trans hle

/-! ## Rounding and stripping -/

theorem sign_roundTo (hdigits : 0 < digits) : (x.roundTo digits mode).sign = x.sign := by
  obtain ⟨-, heq⟩ | ⟨hx, hlong, q, s, rfl, -, hcarry⟩ := x.roundTo_cases digits mode
  · rw [heq]
  have hrounded : (mode.quotient x.unscaled (pow10 (x.digitCount - digits) : Nat)).sign = x.sign :=
    Rounding.sign_quotient (pow10_pos _) (pow10_le_natAbs hx (by omega))
  obtain ⟨-, heq⟩ | ⟨hcarry, heq⟩ := hcarry
  · rw [heq]
    exact hrounded
  · have hten : 10 ^ 1 ≤ 10 ^ digits := Nat.pow_le_pow_right (by decide) hdigits
    rw [heq]
    exact (sign_tdiv_ten (hten.trans ((lt_digitCount_iff hdigits).1 hcarry))).trans hrounded

theorem sign_strip {lowest : Int} : (x.strip lowest).sign = x.sign := by
  have hzeros (u s : Int) : (stripZeros lowest u s).1.sign = u.sign := by
    fun_induction stripZeros lowest u s with
    | case1 u s h ih =>
      rw [ih]
      have hrest := Int.tdiv_mul_add_tmod u 10
      exact sign_tdiv_ten (by omega)
    | case2 u s h => rfl
  unfold strip
  split
  · next hzero =>
    rw [sign, sign, beq_iff_eq.1 hzero]
    rfl
  · exact hzeros _ _

end Decimal

namespace Context

open Decimal

theorem sign_round : (ctx.round x).sign = x.sign := sign_roundTo ctx.precision_pos

/-! ## Sums, products and quotients -/

/-- The nudge that stands for a small operand does not reach the sign. -/
theorem sign_nudge {n d : Int} {pad : Nat} (hn : n ≠ 0) (hpad : 0 < pad) (hd : d.natAbs < 10) :
    (n * pow10 pad + d).sign = n.sign := by
  obtain ⟨k, rfl⟩ := Nat.exists_eq_succ_of_ne_zero hpad.ne'
  have hpow : (0 : Int) < pow10 k := mod_cast pow10_pos k
  rw [pow10_succ, Nat.cast_mul, ← mul_assoc, Nat.cast_ofNat,
    sign_append (mul_ne_zero hn hpow.ne') hd, Int.sign_mul, Int.sign_eq_one_of_pos hpow, mul_one]

/-- A small operand is left out of the sum, or only nudges it. -/
theorem sign_add : (ctx.add x y).sign = (x + y).sign := by
  have hvalue := Decimal.toRat_add x y
  obtain ⟨hx, heq⟩ | ⟨hy, heq⟩ | ⟨large, small, hlarge, hsmall, -, hsum, horder, heq⟩ :=
    ctx.add_cases x y
  · rw [toRat_eq_zero.2 hx, zero_add] at hvalue
    rw [heq, sign_round, sign_eq_of_toRat_eq hvalue]
  · rw [toRat_eq_zero.2 hy, add_zero] at hvalue
    rw [heq, sign_round, sign_eq_of_toRat_eq hvalue]
  obtain heq | ⟨hgap, pad, heq⟩ := heq
  · rw [heq, sign_round]
  · have hdigit : small.sign.natAbs < 10 := by
      have := Int.sign_trichotomy small.unscaled
      unfold sign
      omega
    have hless := abs_toRat_lt_of_exponent_lt hsmall hlarge (by omega)
    rw [heq, sign_round, hsum, sign_add_of_abs_lt hless]
    exact sign_nudge hlarge pad.succ_pos hdigit

theorem sign_mul : (ctx.mul x y).sign = x.sign * y.sign := by
  rw [mul, sign_round]
  exact Int.sign_mul x.unscaled y.unscaled

/-- Zeros are appended to the dividend until the quotient has more digits than are kept. -/
theorem pow10_le_dividend (ctx : Context) (hx : x.unscaled ≠ 0) (y : Decimal) :
    pow10 (ctx.precision + 2 + y.digitCount) ≤
      (x.unscaled * pow10 (ctx.precision + 3 + y.digitCount - x.digitCount)).natAbs := by
  have hpos : 0 < x.digitCount := digitCount_pos _
  have hlower := pow10_le_natAbs hx (Nat.sub_lt hpos one_pos)
  rw [Int.natAbs_mul, Int.natAbs_natCast]
  refine le_trans ?_ (Nat.mul_le_mul_right _ hlower)
  unfold pow10
  rw [Nat.pow_eq, Nat.pow_eq, Nat.pow_eq, ← pow_add]
  exact Nat.pow_le_pow_right (by decide) (by omega)

/-- What a division by anything but zero does: zero stays zero, an even quotient is stripped, and any
other is continued by a digit that stands for its tail. -/
theorem div_cases (ctx : Context) (x : Decimal) (hy : y.unscaled ≠ 0) :
    x.unscaled = 0 ∧ ctx.div x y = .ok 0 ∨
      x.unscaled ≠ 0 ∧ ∃ (shift : Nat) (preferred q : Int),
        shift = ctx.precision + 3 + y.digitCount - x.digitCount ∧
        preferred = Word.saturate (x.scale - y.scale) ∧
        q = (x.unscaled * pow10 shift).tdiv y.unscaled ∧
        ((x.unscaled * pow10 shift).tmod y.unscaled = 0 ∧
            ctx.div x y = .ok ((ctx.round (ofScaled q (preferred + shift))).strip preferred) ∨
          (x.unscaled * pow10 shift).tmod y.unscaled ≠ 0 ∧
            ctx.div x y = .ok (ctx.round (ofScaled
              (q * 10 + (if x.isNegative = y.isNegative then 1 else -1))
              (preferred + shift + 1)))) := by
  unfold div
  rw [if_neg (by simpa [isZero] using hy)]
  split
  · next hx => exact .inl ⟨beq_iff_eq.1 hx, rfl⟩
  next hx =>
  refine .inr ⟨by simpa [isZero] using hx, _, _, _, rfl, rfl, rfl, ?_⟩
  simp only
  split
  · next heven => exact .inl ⟨heven, rfl⟩
  · next huneven => exact .inr ⟨huneven, rfl⟩

/-- A quotient fails only by division by zero, and does not come out as zero. -/
theorem div_sign (ctx : Context) (x : Decimal) (hy : y.sign ≠ 0) :
    ∃ z, ctx.div x y = .ok z ∧ z.sign = x.sign * y.sign := by
  have hy0 : y.unscaled ≠ 0 := fun h => hy (Int.sign_eq_zero_iff_zero.2 h)
  obtain ⟨hx, heq⟩ | ⟨hx, shift, preferred, q, hshift, -, rfl, hdiv⟩ := ctx.div_cases x hy0
  · refine ⟨0, heq, ?_⟩
    rw [Decimal.sign_eq_zero_iff.2 (toRat_eq_zero.2 hx), zero_mul]
    rfl
  have hlong := pow10_le_dividend ctx hx y
  rw [← hshift] at hlong
  have hle : y.unscaled.natAbs ≤ (x.unscaled * pow10 shift).natAbs := by
    have hupper : y.unscaled.natAbs < pow10 y.digitCount := lt_pow10_digitCount _
    exact hupper.le.trans ((Nat.pow_le_pow_right (by decide) (by omega)).trans hlong)
  -- the padded dividend is not less than the divisor, so the quotient is not cut to zero
  have hquotient : ((x.unscaled * pow10 shift).tdiv y.unscaled).sign = x.sign * y.sign := by
    rw [Int.sign_tdiv, if_neg hle.not_gt, Int.sign_mul,
      Int.sign_natCast_of_ne_zero (pow10_pos shift).ne', mul_one]
    rfl
  have hnonzero : (x.unscaled * pow10 shift).tdiv y.unscaled ≠ 0 := by
    rw [Ne, ← Int.sign_eq_zero_iff_zero, hquotient]
    exact mul_ne_zero (fun h => hx (Int.sign_eq_zero_iff_zero.1 h)) hy
  obtain ⟨-, heq⟩ | ⟨-, heq⟩ := hdiv
  · exact ⟨_, heq, by rw [sign_strip, sign_round]; exact hquotient⟩
  · refine ⟨_, heq, ?_⟩
    rw [sign_round, ← hquotient]
    exact sign_append hnonzero (by split <;> decide)

theorem wholeRoot_nonneg {degree : Nat} : 0 ≤ (ctx.wholeRoot x degree).sign := by
  unfold wholeRoot
  simp only
  split
  · rw [sign_strip, sign_round]
    exact Int.sign_nonneg_iff.2 (Int.natCast_nonneg _)
  · rw [sign_round]
    exact Int.sign_nonneg_iff.2 (by rw [unscaled_ofScaled]; positivity)

end Context

/-! ## Numbers that are at least one -/

namespace Decimal

theorem one_le_toRat_iff : 1 ≤ x.toRat ↔ 10 ^ x.scale.toNat ≤ x.unscaled := by
  unfold toRat
  obtain hscale | hscale := le_or_gt x.scale 0
  · obtain ⟨k, hk⟩ := Int.eq_ofNat_of_zero_le (Int.neg_nonneg.2 hscale)
    have hpow : (0 : Int) < 10 ^ k := by positivity
    rw [hk, Int.toNat_of_nonpos hscale, pow_zero, zpow_natCast]
    constructor
    · intro h
      have h' : 1 ≤ x.unscaled * 10 ^ k := by exact_mod_cast h
      exact pos_of_mul_pos_left (Int.lt_of_lt_of_le one_pos h') hpow.le
    · intro h
      exact_mod_cast one_le_mul_of_one_le_of_one_le h (show (1 : Int) ≤ 10 ^ k from hpow)
  · obtain ⟨k, hk⟩ := Int.eq_ofNat_of_zero_le hscale.le
    rw [hk, Int.toNat_natCast, zpow_neg, zpow_natCast, ← div_eq_mul_inv,
      le_div_iff₀ (by positivity), one_mul]
    exact_mod_cast Iff.rfl

theorem saturate_le_max (s : Int) : Word.saturate s ≤ max s 0 :=
  Word.saturate_le (le_max_left _ _) (le_max_of_le_right (by decide))

/-- A scale that stops at the end of the range only makes the number greater. -/
theorem one_le_ofScaled {u s : Int} (h : 10 ^ s.toNat ≤ u) : 1 ≤ (ofScaled u s).toRat := by
  rw [one_le_toRat_iff, scale_ofScaled, unscaled_ofScaled]
  refine le_trans (pow_le_pow_right₀ (by decide) ?_) h
  have hsaturate := saturate_le_max s
  omega

theorem one_le_carry {q s : Int} (hten : 10 ≤ q) (h : 10 ^ s.toNat ≤ q) :
    1 ≤ (ofScaled (q.tdiv 10) (Word.saturate s - 1)).toRat := by
  refine one_le_ofScaled ?_
  rw [Int.tdiv_eq_ediv_of_nonneg (by omega), Int.le_ediv_iff_mul_le (by decide), ← pow_succ]
  have hsaturate := saturate_le_max s
  obtain hle | hlt := le_or_gt (Word.saturate s) 1
  · rw [Int.toNat_of_nonpos (by omega)]
    exact hten
  · exact (pow_le_pow_right₀ (by decide) (by omega)).trans h

theorem one_le_roundTo (hdigits : 0 < digits) (hx : 1 ≤ x.toRat) :
    1 ≤ (x.roundTo digits mode).toRat := by
  have hunscaled := one_le_toRat_iff.1 hx
  obtain ⟨-, heq⟩ | ⟨hx0, hlong, q, s, hq, rfl, hcarry⟩ := x.roundTo_cases digits mode
  · rwa [heq]
  have hdropped := pow10_le_natAbs hx0 (show x.digitCount - digits < x.digitCount by omega)
  -- one is a multiple of the unit of the last place, or far below it
  have hrounded : (10 : Int) ^ (x.scale - (x.digitCount - digits : Nat)).toNat ≤ q := by
    rw [hq]
    refine Rounding.le_quotient (pow10_pos _) ?_
    have hpositive : 0 < x.unscaled := lt_of_lt_of_le (by positivity) hunscaled
    obtain hle | hlt := le_or_gt x.scale (x.digitCount - digits : Nat)
    · rw [Int.toNat_of_nonpos (by omega), pow_zero, one_mul]
      omega
    · refine le_trans (le_of_eq ?_) hunscaled
      unfold pow10
      rw [Nat.pow_eq, Nat.cast_pow, Nat.cast_ofNat, ← pow_add]
      congr 1
      omega
  obtain ⟨-, heq⟩ | ⟨hcarry, heq⟩ := hcarry
  · rw [heq]
    exact one_le_ofScaled hrounded
  · have hten : 10 ^ 1 ≤ 10 ^ digits := Nat.pow_le_pow_right (by decide) hdigits
    have hlarge := hten.trans ((lt_digitCount_iff hdigits).1 hcarry)
    have hpositive : 0 < q := lt_of_lt_of_le (by positivity) hrounded
    rw [heq]
    exact one_le_carry (by omega) hrounded

end Decimal

namespace Context

open Decimal

theorem one_le_toRat_mul (hx : 1 ≤ x.toRat) (hy : 1 ≤ y.toRat) : 1 ≤ (ctx.mul x y).toRat := by
  refine one_le_roundTo ctx.precision_pos (one_le_ofScaled ?_)
  have hx' := one_le_toRat_iff.1 hx
  have hunscaled := mul_le_mul hx' (one_le_toRat_iff.1 hy) (by positivity)
    (le_trans (by positivity) hx')
  rw [← pow_add] at hunscaled
  refine le_trans (pow_le_pow_right₀ (by decide) ?_) hunscaled
  omega

/-- A small number that is not negative does not nudge a sum below one. -/
theorem one_le_nudge {large : Decimal} {nudge : Int} (hlarge : 1 ≤ large.toRat) (hnudge : 0 ≤ nudge)
    (pad : Nat) : 1 ≤ (ofScaled (large.unscaled * pow10 pad + nudge) (large.scale + pad)).toRat := by
  refine one_le_ofScaled ?_
  have hscale : (large.scale + pad).toNat ≤ large.scale.toNat + pad := by omega
  calc (10 : Int) ^ (large.scale + pad).toNat
      ≤ 10 ^ (large.scale.toNat + pad) := pow_le_pow_right₀ (by decide) hscale
    _ = 10 ^ large.scale.toNat * pow10 pad := by simp [pow_add, pow10]
    _ ≤ large.unscaled * pow10 pad :=
        Int.mul_le_mul_of_nonneg_right (one_le_toRat_iff.1 hlarge) (Int.natCast_nonneg _)
    _ ≤ large.unscaled * pow10 pad + nudge := by omega

theorem one_le_toRat_add (hx : 1 ≤ x.toRat) (hy : 0 ≤ y.toRat) : 1 ≤ (ctx.add x y).toRat := by
  have hx0 : x.unscaled ≠ 0 := mt toRat_eq_zero.2 (by linarith)
  obtain ⟨hzero, -⟩ | ⟨-, heq⟩ | ⟨large, small, hlarge, hsmall, hpair, -, horder, heq⟩ :=
    ctx.add_cases x y
  · exact absurd hzero hx0
  · rw [heq]
    exact one_le_roundTo ctx.precision_pos hx
  obtain heq | ⟨hgap, pad, heq⟩ := heq <;> rw [heq]
  · refine one_le_roundTo ctx.precision_pos ?_
    rw [Decimal.toRat_add]
    linarith
  · have hless := abs_toRat_lt_of_exponent_lt hsmall hlarge (by omega)
    have hoperands : 1 ≤ large.toRat ∧ 0 ≤ small.toRat := by
      obtain ⟨rfl, rfl⟩ | ⟨rfl, rfl⟩ := hpair
      · exact ⟨hx, hy⟩
      · rw [abs_of_pos (by linarith), abs_of_nonneg hy] at hless
        exact ⟨by linarith, by linarith⟩
    exact one_le_roundTo ctx.precision_pos
      (one_le_nudge hoperands.1 (sign_nonneg_iff.2 hoperands.2) _)

end Context

end Reckoner
