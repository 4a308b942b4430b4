import Reckoner.Context.Basic
import Reckoner.Proofs.Decimal.Exponents
import Reckoner.Proofs.Decimal.Value

/-!
# Exact sums

Rounding keeps a value that has few enough digits at some scale, however it is represented. So a
sum of two numbers is exact if their sum fits the precision at a scale at which both are whole.
-/

namespace Reckoner

open Integer Decimal

/-! ## Rounding -/

theorem Rounding.quotient_mul (mode : Rounding) (q : Int) {d : Int} (hd : d ≠ 0) :
    mode.quotient (q * d) d = q := by
  simp [Rounding.quotient, hd]

theorem Rounding.natAbs_quotient_le (mode : Rounding) (n d : Int) :
    (mode.quotient n d).natAbs ≤ n.natAbs / d.natAbs + 1 := by
  have hcut : (n.tdiv d).natAbs = n.natAbs / d.natAbs := Int.natAbs_tdiv n d
  unfold Rounding.quotient
  simp only
  split
  · omega
  · split
    · split <;> omega
    · omega

namespace Decimal

variable {x y : Decimal} {digits : Nat} {mode : Rounding}

/-- What rounding does: nothing, if there is nothing to drop; otherwise it drops the last digits, and
the zero that nines leave when they carry. -/
theorem roundTo_cases (x : Decimal) (digits : Nat) (mode : Rounding) :
    (x.unscaled = 0 ∨ x.digitCount ≤ digits) ∧ x.roundTo digits mode = x ∨
      x.unscaled ≠ 0 ∧ digits < x.digitCount ∧ ∃ q s : Int,
        q = mode.quotient x.unscaled (pow10 (x.digitCount - digits) : Nat) ∧
        s = x.scale - (x.digitCount - digits : Nat) ∧
        (Integer.digitCount q.natAbs ≤ digits ∧ x.roundTo digits mode = ofScaled q s ∨
          digits < Integer.digitCount q.natAbs ∧
            x.roundTo digits mode = ofScaled (q.tdiv 10) (Word.saturate s - 1)) := by
  unfold roundTo
  split
  · next hshort =>
    rw [Bool.or_eq_true, decide_eq_true_eq, isZero, beq_iff_eq] at hshort
    exact .inl ⟨hshort, rfl⟩
  next hlong =>
  rw [Bool.or_eq_true, decide_eq_true_eq, isZero, beq_iff_eq, not_or, not_le] at hlong
  refine .inr ⟨hlong.1, hlong.2, _, _, rfl, rfl, ?_⟩
  simp only
  split
  · next hcarry => exact .inr ⟨hcarry, rfl⟩
  · next hkept => exact .inl ⟨not_lt.1 hkept, rfl⟩

theorem scale_roundTo_le : (x.roundTo digits mode).scale ≤ x.scale := by
  obtain ⟨-, heq⟩ | ⟨-, -, q, s, -, rfl, ⟨-, heq⟩ | ⟨-, heq⟩⟩ := x.roundTo_cases digits mode
  · rw [heq]
  · rw [heq, scale_ofScaled]
    exact Word.saturate_le (by omega) x.scale_fits.1
  · have hdropped : Word.saturate (x.scale - (x.digitCount - digits : Nat)) ≤ x.scale :=
      Word.saturate_le (by omega) x.scale_fits.1
    rw [heq, scale_ofScaled]
    exact Word.saturate_le (by omega) x.scale_fits.1

/-- A value that is `m` units at scale `s` stays as it is if `m` has few enough digits. -/
theorem toRat_roundTo {m s : Int} (hvalue : x.toRat = m * 10 ^ (-s)) (hm : m.natAbs < 10 ^ digits)
    (hdigits : 0 < digits) (hs : Word.least ≤ s) : (x.roundTo digits mode).toRat = x.toRat := by
  obtain ⟨-, heq⟩ | ⟨hx, hlong, q, s', hq, rfl, hcarry⟩ := x.roundTo_cases digits mode
  · rw [heq]
  have hcount : (x.digitCount : Int) - x.scale = Integer.digitCount m.natAbs - s :=
    digitCount_sub_scale hx hvalue
  have hshort : Integer.digitCount m.natAbs ≤ digits := (digitCount_le_iff hdigits).2 hm
  have hscale : s ≤ x.scale := by omega
  have hunscaled : x.unscaled = m * 10 ^ (x.scale - s).natAbs :=
    unscaled_of_value_eq hscale hvalue.symm
  -- what is dropped are some of the zeros behind `m`
  obtain ⟨kept, hkept⟩ : ∃ kept, (x.scale - s).natAbs = kept + (x.digitCount - digits) :=
    ⟨(x.scale - s).natAbs - (x.digitCount - digits), by omega⟩
  have hquotient : q = m * 10 ^ kept := by
    have hpower : ((pow10 (x.digitCount - digits) : Nat) : Int) ≠ 0 :=
      mod_cast (pow10_pos _).ne'
    rw [hq, hunscaled, hkept, pow_add, ← mul_assoc]
    convert Rounding.quotient_mul mode (m * 10 ^ kept) hpower using 2
    simp [pow10]
  have hfits : Word.Fits (x.scale - (x.digitCount - digits : Nat)) := by
    have := x.scale_fits
    unfold Word.Fits at this ⊢
    omega
  have hm0 : m ≠ 0 := by
    rintro rfl
    simp [hunscaled] at hx
  have hrounded : Integer.digitCount q.natAbs ≤ digits := by
    rw [hquotient, Int.natAbs_mul, Int.natAbs_pow, show (10 : Int).natAbs = 10 from rfl,
      digitCount_mul_pow (by simpa using hm0)]
    omega
  obtain ⟨-, heq⟩ | ⟨hcarry, -⟩ := hcarry
  swap
  · exact absurd hrounded hcarry.not_ge
  rw [heq, hquotient, toRat_ofScaled _ hfits, hvalue]
  rw [Int.cast_mul, Int.cast_pow, Int.cast_ofNat, mul_assoc, ← zpow_natCast,
    ← zpow_add₀ (by norm_num)]
  congr 2
  omega

theorem digitCount_ofScaled (u s : Int) :
    (ofScaled u s).digitCount = Integer.digitCount u.natAbs := rfl

theorem natAbs_rounded_le (hlong : digits < x.digitCount) :
    (mode.quotient x.unscaled (pow10 (x.digitCount - digits) : Nat)).natAbs ≤ 10 ^ digits := by
  have hquotient := mode.natAbs_quotient_le x.unscaled (pow10 (x.digitCount - digits) : Nat)
  rw [Int.natAbs_natCast] at hquotient
  have hlt : x.unscaled.natAbs / pow10 (x.digitCount - digits) < 10 ^ digits := by
    refine (Nat.div_lt_iff_lt_mul (pow10_pos _)).2 ?_
    have hupper := lt_pow10_digitCount x.unscaled.natAbs
    unfold pow10 at hupper ⊢
    rw [Nat.pow_eq, ← pow_add]
    rwa [show digits + (x.digitCount - digits) = Integer.digitCount x.unscaled.natAbs by
      unfold Decimal.digitCount at hlong ⊢; omega]
  omega

/-- Rounding leaves no more digits than asked for. -/
theorem digitCount_roundTo_le (hdigits : 0 < digits) :
    (x.roundTo digits mode).digitCount ≤ digits := by
  obtain ⟨hzero | hshort, heq⟩ | ⟨-, hlong, q, s, hq, -, ⟨hkept, heq⟩ | ⟨-, heq⟩⟩ :=
    x.roundTo_cases digits mode
  · rw [heq, Decimal.digitCount, hzero, Int.natAbs_zero, digitCount_zero]
    exact hdigits
  · rwa [heq]
  · rwa [heq, digitCount_ofScaled]
  · rw [heq, digitCount_ofScaled, digitCount_le_iff hdigits, Int.natAbs_tdiv, hq]
    exact Nat.div_lt_of_lt_mul ((natAbs_rounded_le hlong).trans_lt (by simp))

/-- Rounding can raise the exponent by one, since nines can carry into a new digit. -/
theorem exponent_roundTo_le (hdigits : 0 < digits)
    (hfits : (x.digitCount : Int) - 1 - x.scale ≤ Word.greatest) :
    ((x.roundTo digits mode).digitCount : Int) - 1 - (x.roundTo digits mode).scale ≤
      Word.greatest + 1 := by
  have hcount : (x.roundTo digits mode).digitCount ≤ digits := digitCount_roundTo_le hdigits
  -- the exponent is in the range, so no scale that is met can stop at the lower end
  have hscale {s : Int} (hlower : x.scale - (x.digitCount - digits) - 1 ≤ s) (hupper : s ≤ x.scale) :
      Word.saturate s = s := by
    refine Word.saturate_of_fits ⟨?_, hupper.trans x.scale_fits.2⟩
    unfold Word.least Word.greatest at *
    omega
  obtain ⟨-, heq⟩ | ⟨-, hlong, q, s, -, hs, hcarry⟩ := x.roundTo_cases digits mode
  · rw [heq]
    omega
  rw [hscale (s := s) (by omega) (by omega)] at hcarry
  obtain ⟨-, heq⟩ | ⟨-, heq⟩ := hcarry
  all_goals
    rw [heq, digitCount_ofScaled] at hcount ⊢
    rw [scale_ofScaled, hscale (by omega) (by omega)]
    omega

end Decimal

/-! ## Sums -/

namespace Context

theorem toRat_round (ctx : Context) {x : Decimal} {m s : Int} (hvalue : x.toRat = m * 10 ^ (-s))
    (hm : m.natAbs < 10 ^ ctx.precision) (hs : Word.least ≤ s) :
    (ctx.round x).toRat = x.toRat :=
  toRat_roundTo hvalue hm ctx.precision_pos hs

/-- The exponents of two numbers that are whole at one scale differ by less than the precision. -/
theorem exponent_distance (ctx : Context) {x y : Decimal} {a b : Nat} {s : Int}
    (hx : x.toRat = a * 10 ^ (-s)) (hy : y.toRat = b * 10 ^ (-s)) (hx0 : x.unscaled ≠ 0)
    (hy0 : y.unscaled ≠ 0) (ha : a < 10 ^ ctx.precision) (hb : b < 10 ^ ctx.precision) :
    (x.exponent - y.exponent).natAbs < ctx.precision := by
  have hcount {z : Decimal} {n : Nat} (hz : z.toRat = n * 10 ^ (-s)) (hz0 : z.unscaled ≠ 0) :
      (z.digitCount : Int) - z.scale = Integer.digitCount n - s :=
    digitCount_sub_scale (v := n) hz0 (by simpa [toRat] using hz)
  have hxcount := hcount hx hx0
  have hycount := hcount hy hy0
  have hashort := (digitCount_le_iff ctx.precision_pos).2 ha
  have hbshort := (digitCount_le_iff ctx.precision_pos).2 hb
  have hapos := digitCount_pos a
  have hbpos := digitCount_pos b
  have hdistance := Word.saturate_distance (x.digitCount - 1 - x.scale) (y.digitCount - 1 - y.scale)
  rw [← exponent_eq_saturate hx0, ← exponent_eq_saturate hy0] at hdistance
  omega

theorem add_comm_exact (x y : Decimal) : x + y = y + x := by
  change Decimal.add x y = Decimal.add y x
  simp only [Decimal.add, max_comm, add_comm]

theorem ordered_operands {x y : Decimal} (hx : x.unscaled ≠ 0) (hy : y.unscaled ≠ 0) :
    ∃ large small, (if y.exponent ≤ x.exponent then (x, y) else (y, x)) = (large, small) ∧
      large.unscaled ≠ 0 ∧ small.unscaled ≠ 0 ∧ small.exponent ≤ large.exponent ∧
      x + y = large + small := by
  split
  · next hle => exact ⟨x, y, rfl, hx, hy, hle, rfl⟩
  · next hlt => exact ⟨y, x, rfl, hy, hx, by omega, add_comm_exact x y⟩

/-- What an addition does: a zero leaves the other operand, an operand that the rounding does not reach
nudges the other one, and any other two operands are added exactly. All of them are rounded. -/
theorem add_cases (ctx : Context) (x y : Decimal) :
    x.unscaled = 0 ∧ ctx.add x y = ctx.round y ∨
      y.unscaled = 0 ∧ ctx.add x y = ctx.round x ∨
      ∃ large small, large.unscaled ≠ 0 ∧ small.unscaled ≠ 0 ∧
        (large = x ∧ small = y ∨ large = y ∧ small = x) ∧ x + y = large + small ∧
        small.exponent ≤ large.exponent ∧
        (ctx.add x y = ctx.round (x + y) ∨
          max (ctx.precision + 2) large.digitCount + 1 < (large.exponent - small.exponent).natAbs ∧
            ∃ pad : Nat, ctx.add x y = ctx.round
              (ofScaled (large.unscaled * pow10 (pad + 1) + small.sign)
                (large.scale + (pad + 1 : Nat)))) := by
  unfold add
  split
  · next hx => exact .inl ⟨beq_iff_eq.1 hx, rfl⟩
  next hx =>
  split
  · next hy => exact .inr (.inl ⟨beq_iff_eq.1 hy, rfl⟩)
  next hy =>
  simp only [isZero, beq_iff_eq] at hx hy
  obtain ⟨large, small, hpair, hlarge, hsmall, horder, hsum⟩ := ordered_operands hx hy
  rw [hpair]
  refine .inr (.inr ⟨large, small, hlarge, hsmall, ?_, hsum, horder, ?_⟩)
  · split at hpair <;> obtain ⟨rfl, rfl⟩ := Prod.mk.inj hpair
    · exact .inl ⟨rfl, rfl⟩
    · exact .inr ⟨rfl, rfl⟩
  · simp only
    split
    · next hgap => exact .inr ⟨hgap, _, rfl⟩
    · exact .inl rfl

/-- Two numbers that are whole at one scale, and whose sum has few enough digits there, are added
exactly. -/
theorem toRat_add (ctx : Context) {x y : Decimal} {a b : Nat} {s : Int}
    (hx : x.toRat = a * 10 ^ (-s)) (hy : y.toRat = b * 10 ^ (-s))
    (hsum : a + b < 10 ^ ctx.precision) (hs : Word.least ≤ s) :
    (ctx.add x y).toRat = x.toRat + y.toRat ∧ (ctx.add x y).scale ≤ max x.scale y.scale := by
  have hround {z : Decimal} {n : Nat} (hz : z.toRat = n * 10 ^ (-s)) (hn : n < 10 ^ ctx.precision) :
      (ctx.round z).toRat = z.toRat :=
    toRat_round ctx (m := n) (by simpa using hz) (by simpa using hn) hs
  obtain ⟨hx0, heq⟩ | ⟨hy0, heq⟩ | ⟨large, small, hlarge, hsmall, hpair, -, -, heq⟩ :=
    ctx.add_cases x y
  · rw [heq]
    exact ⟨by rw [hround hy (by omega), toRat_eq_zero.2 hx0, zero_add],
      scale_roundTo_le.trans (le_max_right _ _)⟩
  · rw [heq]
    exact ⟨by rw [hround hx (by omega), toRat_eq_zero.2 hy0, add_zero],
      scale_roundTo_le.trans (le_max_left _ _)⟩
  have hexact : (ctx.round (x + y)).toRat = x.toRat + y.toRat := by
    rw [← Decimal.toRat_add]
    refine hround (n := a + b) ?_ hsum
    rw [Decimal.toRat_add, hx, hy, Nat.cast_add, add_mul]
  have hscale : (ctx.round (x + y)).scale ≤ max x.scale y.scale := by
    refine scale_roundTo_le.trans ?_
    exact Word.saturate_le le_rfl (fits_max x y).1
  obtain heq | ⟨hgap, -⟩ := heq
  · rw [heq]
    exact ⟨hexact, hscale⟩
  -- numbers that are whole at one scale are too close for a nudge
  · have hclose : (large.exponent - small.exponent).natAbs < ctx.precision := by
      obtain ⟨rfl, rfl⟩ | ⟨rfl, rfl⟩ := hpair
      · exact exponent_distance ctx hx hy hlarge hsmall (by omega) (by omega)
      · exact exponent_distance ctx hy hx hlarge hsmall (by omega) (by omega)
    omega

end Context

end Reckoner
