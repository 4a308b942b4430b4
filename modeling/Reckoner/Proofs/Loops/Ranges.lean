import Reckoner.Proofs.Loops.Sizes
import Reckoner.Proofs.Rounding.WholeRoots

/-!
# Numbers in the middle of the word range

Where the digits and the scales of the operands are far from the ends of the word range, no operation
asks for a scale beyond them, and its result is the exact one rounded.
-/

namespace Reckoner

open Integer Decimal

variable {ctx : Context} {x y z : Decimal} {n : Nat}

/-- The number has at most `n` digits, and its scale is at most `n` on either side of zero. -/
structure Decimal.Within (x : Decimal) (n : Nat) : Prop where
  digits : x.digitCount ≤ n
  le_scale : -n ≤ x.scale
  scale_le : x.scale ≤ n

/-- Operations of the context on numbers within `n` stay in the word range. -/
structure Context.Roomy (ctx : Context) (n : Nat) : Prop where
  precision_le : ctx.precision ≤ n
  room : (16 * n + 100 : Int) ≤ Word.greatest

/-- The words have room for the numbers that come up on the way to a result, where the argument has so
many digits, and its leading digit is so many places from the point. -/
def Context.Ample (ctx : Context) (digits places : Nat) : Prop :=
  (10000 * (ctx.precision + digits + 1000) + places : Int) ≤ Word.greatest

theorem Context.Roomy.mono {m : Nat} (h : ctx.Roomy n) (hmn : m ≤ n) (hm : ctx.precision ≤ m) :
    ctx.Roomy m :=
  ⟨hm, by have := h.room; omega⟩

namespace Decimal

theorem Within.mono {m : Nat} (h : x.Within n) (hnm : n ≤ m) : x.Within m := by
  obtain ⟨hdigits, hlower, hupper⟩ := h
  exact ⟨by omega, by omega, by omega⟩

theorem Within.neg (h : x.Within n) : (-x).Within n := by
  refine ⟨?_, h.le_scale, h.scale_le⟩
  change Integer.digitCount (-x.unscaled).natAbs ≤ n
  rw [Int.natAbs_neg]
  exact h.digits

theorem Within.le_abs (h : x.Within n) (hx : x.unscaled ≠ 0) :
    (10 : ℚ) ^ (-n : Int) ≤ |x.toRat| := by
  have hpos : 0 < x.digitCount := digitCount_pos _
  have hscale := h.scale_le
  exact (zpow_le_zpow_right₀ (by norm_num) (by omega)).trans (pow_le_abs_toRat hx)

theorem Within.le_exponent (h : x.Within n) : -n ≤ x.exponent := by
  by_cases hx : x.unscaled = 0
  · rw [exponent, if_pos hx]
    omega
  · exact Decimal.le_exponent (by unfold Word.greatest; omega) (h.le_abs hx)

theorem scale_bounds {lower upper : Int} (hlower : (10 : ℚ) ^ lower ≤ |x.toRat|)
    (hupper : |x.toRat| ≤ 10 ^ upper) :
    lower < x.digitCount - x.scale ∧ x.digitCount - 1 - x.scale ≤ upper := by
  have hx : x.unscaled ≠ 0 := by
    intro hzero
    rw [toRat_eq_zero.2 hzero, abs_zero] at hlower
    exact absurd hlower (zpow_pos (by norm_num) _).not_ge
  exact ⟨(zpow_lt_zpow_iff_right₀ (by norm_num)).1 (hlower.trans_lt (abs_toRat_lt_pow x)),
    (zpow_le_zpow_iff_right₀ (by norm_num)).1 ((pow_le_abs_toRat hx).trans hupper)⟩

theorem within_of_bounds {digits : Nat} (places : Nat) (hdigits : x.digitCount ≤ digits)
    (hlower : (10 : ℚ) ^ (-places : Int) ≤ |x.toRat|) (hupper : |x.toRat| ≤ 10 ^ (places : Int)) :
    x.Within (digits + places) := by
  have hpos : 0 < x.digitCount := digitCount_pos _
  obtain ⟨hlt, hle⟩ := scale_bounds hlower hupper
  exact ⟨by omega, by omega, by omega⟩

theorem within_of_pos {digits : Nat} (places : Nat) (hdigits : x.digitCount ≤ digits)
    (hlower : 1 / 10 ^ places ≤ x.toRat) (hupper : x.toRat ≤ 10 ^ places) :
    x.Within (digits + places) := by
  have hpos : 0 < x.toRat := lt_of_lt_of_le (by positivity) hlower
  refine within_of_bounds places hdigits ?_ ?_ <;> rw [abs_of_pos hpos]
  · rwa [zpow_neg, zpow_natCast, ← one_div]
  · rwa [zpow_natCast]

theorem natAbs_unscaled_lt (h : x.digitCount ≤ n) : x.unscaled.natAbs < 10 ^ n :=
  lt_of_lt_of_le (lt_pow10_digitCount _) (Nat.pow_le_pow_right (by decide) h)

theorem digitCount_ofScaled_le {u s : Int} (hn : 0 < n) (h : u.natAbs < 10 ^ n) :
    (ofScaled u s).digitCount ≤ n := (digitCount_le_iff hn).2 h

theorem within_ofScaled {u s : Int} (hn : 0 < n) (hu : u.natAbs < 10 ^ n) (hlower : -n ≤ s)
    (hupper : s ≤ n) (hroom : (n : Int) ≤ Word.greatest) : (ofScaled u s).Within n := by
  have hfits : Word.Fits s := ⟨by unfold Word.least Word.greatest at *; omega, by omega⟩
  refine ⟨digitCount_ofScaled_le hn hu, ?_, ?_⟩ <;> rw [scale_ofScaled, Word.saturate_of_fits hfits]
  · exact hlower
  · exact hupper

theorem within_ofNat {k : Nat} (hn : 0 < n) (h : k < 10 ^ n) : (ofNat k).Within n :=
  ⟨(digitCount_le_iff hn).2 (by simpa [ofNat, ofInt] using h), by simp [ofNat, ofInt],
    by simp [ofNat, ofInt]⟩

end Decimal

namespace Traced

/-- Rounding asks for no scale below that of a carry into a new digit. -/
theorem fits_round_of_fits (h : Word.Fits (x.scale - (x.digitCount - ctx.precision : Nat) - 1)) :
    (round ctx x).Fits := by
  have hfits : Word.Fits (x.scale - (x.digitCount - ctx.precision : Nat)) := by
    have := x.scale_fits
    unfold Word.Fits at *
    omega
  unfold round
  split
  · exact fits_pure _
  simp only
  rw [fits_bind_of_ok rfl, fits_ofScaled]
  refine ⟨hfits, ?_⟩
  split
  · rw [fits_ofScaled, scale_ofScaled, Word.saturate_of_fits hfits]
    exact h
  · exact fits_pure _

theorem fits_round_ofScaled {u s : Int} (hn : 0 < n) (hu : u.natAbs < 10 ^ n)
    (hlower : Word.least + n + 1 ≤ s) (hupper : s ≤ Word.greatest) :
    (round ctx (Decimal.ofScaled u s)).Fits := by
  have hdigits := digitCount_ofScaled_le (s := s) hn hu
  refine fits_round_of_fits ?_
  rw [scale_ofScaled, Word.saturate_of_fits ⟨by omega, hupper⟩]
  exact ⟨by omega, by omega⟩

theorem fits_round (hx : x.Within n) (hroom : (2 * n + 1 : Int) ≤ Word.greatest) :
    (round ctx x).Fits := by
  obtain ⟨hdigits, hlower, hupper⟩ := hx
  exact fits_round_of_fits ⟨by unfold Word.least Word.greatest at *; omega, by omega⟩

end Traced

/-! ## Exact sums and products -/

namespace Decimal

theorem natAbs_integerAt_lt (hx : x.Within n) {s : Int} (hle : x.scale ≤ s) (hs : s ≤ n) :
    (x.integerAt s).natAbs < 10 ^ (3 * n) := by
  obtain ⟨hdigits, hlower, hupper⟩ := hx
  rw [integerAt, Int.natAbs_mul, Int.natAbs_natCast, show 3 * n = n + 2 * n by ring, pow_add]
  refine Nat.mul_lt_mul_of_lt_of_le (natAbs_unscaled_lt hdigits) ?_ (by positivity)
  exact Nat.pow_le_pow_right (by decide) (by omega)

theorem within_add (hx : x.Within n) (hy : y.Within n)
    (hroom : (3 * n + 1 : Int) ≤ Word.greatest) : (x + y).Within (3 * n + 1) := by
  have hmax : max x.scale y.scale ≤ n := max_le hx.scale_le hy.scale_le
  have hmin := hx.le_scale.trans (le_max_left x.scale y.scale)
  have hx' := natAbs_integerAt_lt hx (le_max_left _ y.scale) hmax
  have hy' := natAbs_integerAt_lt hy (le_max_right x.scale _) hmax
  change (ofScaled _ _).Within _
  refine within_ofScaled (by omega) ?_ (by omega) (by omega) (by push_cast; exact hroom)
  have hsum := Int.natAbs_add_le (x.integerAt (max x.scale y.scale))
    (y.integerAt (max x.scale y.scale))
  rw [pow_succ]
  omega

theorem within_mul (hx : x.Within n) (hy : y.Within n) (hn : 0 < n)
    (hroom : (2 * n : Int) ≤ Word.greatest) :
    (ofScaled (x.unscaled * y.unscaled) (x.scale + y.scale)).Within (2 * n) := by
  obtain ⟨hxdigits, hxlower, hxupper⟩ := hx
  obtain ⟨hydigits, hylower, hyupper⟩ := hy
  refine within_ofScaled (by omega) ?_ (by omega) (by omega) (by push_cast; exact hroom)
  rw [Int.natAbs_mul, two_mul, pow_add]
  exact Nat.mul_lt_mul_of_lt_of_le (natAbs_unscaled_lt hxdigits) (natAbs_unscaled_lt hydigits).le
    (by positivity)

theorem within_nudge {nudge : Int} {pad : Nat} (hx : x.Within n) (hpad : pad ≤ n + 3)
    (hnudge : nudge.natAbs ≤ 1) (hroom : (2 * n + 4 : Int) ≤ Word.greatest) :
    (ofScaled (x.unscaled * pow10 pad + nudge) (x.scale + pad)).Within (2 * n + 4) := by
  obtain ⟨hdigits, hlower, hupper⟩ := hx
  refine within_ofScaled (by omega) ?_ (by omega) (by omega) (by push_cast; exact hroom)
  have hpadded : (x.unscaled * pow10 pad).natAbs < 10 ^ (2 * n + 3) := by
    rw [Int.natAbs_mul, Int.natAbs_natCast, show 2 * n + 3 = n + (n + 3) by ring, pow_add]
    refine Nat.mul_lt_mul_of_lt_of_le (natAbs_unscaled_lt hdigits) ?_ (by positivity)
    exact Nat.pow_le_pow_right (by decide) hpad
  have hsum := Int.natAbs_add_le (x.unscaled * pow10 pad) nudge
  rw [pow_succ]
  omega

end Decimal

namespace Context

/-! ## Rounded operations -/

theorem within_round (hx : x.Within n) (hroom : (2 * n + 1 : Int) ≤ Word.greatest) :
    (ctx.round x).Within (2 * n + 1) := by
  obtain ⟨hdigits, hlower, hupper⟩ := hx
  have hcount : (ctx.round x).digitCount ≤ ctx.precision := digitCount_round_le
  have hscale {s : Int} (hslower : -(2 * n + 1) ≤ s) (hsupper : s ≤ n) : Word.saturate s = s :=
    Word.saturate_of_fits ⟨by unfold Word.least Word.greatest at *; omega, by omega⟩
  obtain ⟨-, heq⟩ | ⟨-, hlong, q, s, -, hs, hcarry⟩ := x.roundTo_cases ctx.precision ctx.rounding
  · rw [show ctx.round x = x from heq]
    exact ⟨by omega, by omega, by omega⟩
  rw [hscale (s := s) (by omega) (by omega)] at hcarry
  obtain ⟨-, heq⟩ | ⟨-, heq⟩ := hcarry
  all_goals
    refine ⟨by omega, ?_, ?_⟩
    all_goals
      rw [show ctx.round x = _ from heq, scale_ofScaled, hscale (by omega) (by omega)]
      omega

theorem round_of_within {m : Nat} (hx : x.Within n) (hm : 2 * n + 1 ≤ m)
    (hroom : (m : Int) ≤ Word.greatest) : (Traced.round ctx x).Fits ∧ (ctx.round x).Within m :=
  ⟨Traced.fits_round hx (by omega), (within_round hx (by omega)).mono hm⟩

theorem add_of_within (hx : x.Within n) (hy : y.Within n) (h : ctx.Roomy n) :
    (Traced.add ctx x y).Fits ∧ (ctx.add x y).Within (6 * n + 10) := by
  obtain ⟨hprecision, hroom⟩ := h
  unfold Traced.add add
  split
  · exact round_of_within hy (by omega) (by push_cast; omega)
  split
  · exact round_of_within hx (by omega) (by push_cast; omega)
  generalize hpair : (if y.exponent ≤ x.exponent then (x, y) else (y, x)) = pair
  obtain ⟨large, small⟩ := pair
  have hlarge : large.Within n := by
    split at hpair <;> obtain ⟨rfl, rfl⟩ := Prod.mk.inj hpair <;> assumption
  simp only
  split
  · have hpad : max (ctx.precision + 2) large.digitCount - large.digitCount + 1 ≤ n + 3 := by
      have hpos : 0 < large.digitCount := digitCount_pos _
      omega
    have hsign : small.sign.natAbs ≤ 1 := by
      have := Int.sign_trichotomy small.unscaled
      unfold sign
      omega
    have hnudged := within_nudge hlarge hpad hsign (by omega)
    have hfits : Word.Fits (large.scale +
        (max (ctx.precision + 2) large.digitCount - large.digitCount + 1 : Nat)) := by
      have := hlarge.le_scale
      have := hlarge.scale_le
      exact ⟨by unfold Word.least Word.greatest at *; omega, by omega⟩
    rw [Traced.fits_bind_of_ok rfl, Traced.fits_ofScaled]
    obtain ⟨hround, hwithin⟩ := round_of_within hnudged (m := 6 * n + 10) (by omega)
      (by push_cast; omega)
    exact ⟨⟨hfits, hround⟩, hwithin⟩
  · exact round_of_within (within_add hx hy (by omega)) (by omega) (by push_cast; omega)

theorem digitCount_add_le : (ctx.add x y).digitCount ≤ ctx.precision := by
  obtain ⟨-, heq⟩ | ⟨-, heq⟩ | ⟨_, _, -, -, -, -, -, heq | ⟨-, _, heq⟩⟩ := ctx.add_cases x y
  all_goals rw [heq]; exact digitCount_round_le

theorem digitCount_mul_le : (ctx.mul x y).digitCount ≤ ctx.precision := digitCount_round_le

theorem mul_of_within (hx : x.Within n) (hy : y.Within n) (h : ctx.Roomy n) :
    (Traced.mul ctx x y).Fits ∧ (ctx.mul x y).Within (4 * n + 1) := by
  obtain ⟨hprecision, hroom⟩ := h
  have hn : 0 < n := ctx.precision_pos.trans_le hprecision
  unfold Traced.mul mul
  rw [Traced.fits_bind_of_ok rfl, Traced.fits_ofScaled]
  have hproduct := within_mul hx hy hn (by omega)
  obtain ⟨hxdigits, hxlower, hxupper⟩ := hx
  obtain ⟨hydigits, hylower, hyupper⟩ := hy
  obtain ⟨hround, hwithin⟩ := round_of_within hproduct (m := 4 * n + 1) (by omega)
    (by push_cast; omega)
  exact ⟨⟨⟨by unfold Word.least Word.greatest at *; omega, by omega⟩, hround⟩, hwithin⟩

/-- A quotient asks for scales between the difference of those of its operands, with the digits that
it gains behind it, and the place of its leading digit. -/
theorem fits_div_of_room
    (hlower : Word.least + (ctx.precision + x.digitCount + 6 : Nat) ≤ x.scale - y.scale)
    (hupper : x.scale - y.scale + (ctx.precision + 3 + y.digitCount - x.digitCount : Nat) <
      Word.greatest) : (Traced.div ctx x y).Fits := by
  unfold Traced.div
  split
  · exact Traced.fits_pure (α := Decimal) 0
  next hy =>
  split
  · exact Traced.fits_pure _
  simp only [isZero, beq_iff_eq] at hy
  have hquotient : ((x.unscaled * pow10 (ctx.precision + 3 + y.digitCount - x.digitCount)).tdiv
      y.unscaled).natAbs < 10 ^ (ctx.precision + x.digitCount + 4) := natAbs_quotient_lt hy rfl
  have hpreferred : Word.Fits (x.scale - y.scale) := ⟨by omega, by omega⟩
  rw [Traced.fits_bind_of_ok rfl, Traced.fits_saturate]
  refine ⟨hpreferred, ?_⟩
  simp only [Word.saturate_of_fits hpreferred]
  generalize ctx.precision + 3 + y.digitCount - x.digitCount = shift at *
  generalize (x.unscaled * pow10 shift).tdiv y.unscaled = quotient at *
  -- an inexact quotient gets one more digit, which only says on which side of it the value is
  have htail (tail : Int) (htail : tail.natAbs ≤ 1) :
      (quotient * 10 + tail).natAbs < 10 ^ (ctx.precision + x.digitCount + 5) := by
    rw [pow_succ]
    omega
  split
  · rw [Traced.fits_bind_of_ok rfl, Traced.fits_ofScaled,
      Traced.fits_bind_of_ok Traced.result_round]
    refine ⟨⟨by omega, by omega⟩, ?_, Traced.fits_pure _⟩
    exact Traced.fits_round_ofScaled (by omega) hquotient (by omega) (by omega)
  · rw [Traced.fits_bind_of_ok rfl, Traced.fits_ofScaled]
    refine ⟨⟨by omega, by omega⟩, ?_⟩
    exact Traced.fits_round_ofScaled (by omega) (htail _ (by split <;> decide)) (by omega) (by omega)

/-- The scales of a quotient stay around the difference of those of its operands. -/
theorem fits_div_of_scales (hx : x.digitCount ≤ n) (hy : y.digitCount ≤ n) (hp : ctx.precision ≤ n)
    (h : ((x.scale - y.scale).natAbs + 6 * n + 10 : Int) ≤ Word.greatest) :
    (Traced.div ctx x y).Fits := by
  have hroom : (x.scale - y.scale).natAbs + 6 * (n : Int) + 10 ≤ -Word.least := by
    unfold Word.least Word.greatest at *
    omega
  exact fits_div_of_room (by omega) (by omega)

theorem fits_div (hx : x.Within n) (hy : y.Within n) (h : ctx.Roomy n) :
    (Traced.div ctx x y).Fits := by
  obtain ⟨hxdigits, hxlower, hxupper⟩ := hx
  obtain ⟨hydigits, hylower, hyupper⟩ := hy
  have hroom := h.room
  exact fits_div_of_scales hxdigits hydigits h.precision_le (by omega)

theorem floorRoot_le {degree : Nat} (hdegree : degree ≠ 0) (a : Nat) : floorRoot degree a ≤ a := by
  rw [floorRoot_eq_nthRoot hdegree]
  refine le_trans ?_ (Nat.pow_nthRoot_le (.inl hdegree))
  exact Nat.le_self_pow hdegree _

theorem fits_wholeRoot (hx : x.Within n) (h : ctx.Roomy n) : (Traced.wholeRoot ctx x 2).Fits := by
  obtain ⟨hprecision, hroom⟩ := h
  have hn : 0 < n := ctx.precision_pos.trans_le hprecision
  obtain ⟨hdigits, hlower, hupper⟩ := hx
  unfold Traced.wholeRoot
  rw [Traced.fits_bind_of_ok rfl, Traced.fits_saturate]
  have hshift : (ctx.precision + 2) * 2 - x.digitCount ≤ 2 * n + 4 := by omega
  generalize (ctx.precision + 2) * 2 - x.digitCount = shift at *
  have hscale : Word.Fits (x.scale + shift) :=
    ⟨by unfold Word.least Word.greatest at *; omega, by omega⟩
  refine ⟨hscale, ?_⟩
  simp only [Word.saturate_of_fits hscale]
  have hpad : (-(x.scale + shift) % (2 : Nat)).natAbs ≤ 1 := by omega
  have hroot : floorRoot 2 (x.unscaled.natAbs * pow10 (shift + (-(x.scale + shift) % (2 : Nat)).natAbs))
      < 10 ^ (3 * n + 5) := by
    refine (floorRoot_le (by decide) _).trans_lt ?_
    rw [show 3 * n + 5 = n + (2 * n + 5) by ring, pow_add]
    refine Nat.mul_lt_mul_of_lt_of_le (natAbs_unscaled_lt hdigits) ?_ (by positivity)
    exact Nat.pow_le_pow_right (by decide) (by omega)
  -- only the size of the root matters for the scales that are asked for
  generalize floorRoot 2 _ = root at *
  split
  · have hexact : (ofScaled root ((x.scale + shift + -(x.scale + shift) % (2 : Nat)) / (2 : Nat))).Within
        (3 * n + 6) :=
      within_ofScaled (by omega) (by rw [Int.natAbs_natCast, pow_succ]; omega)
        (by omega) (by omega) (by push_cast; omega)
    rw [Traced.fits_bind_of_ok rfl, Traced.fits_ofScaled,
      Traced.fits_bind_of_ok Traced.result_round]
    refine ⟨⟨by unfold Word.least Word.greatest at *; omega, by omega⟩, ?_, Traced.fits_pure _⟩
    exact Traced.fits_round hexact (by push_cast; omega)
  · have hinexact : (ofScaled (root * 10 + 1 : Int)
        ((x.scale + shift + -(x.scale + shift) % (2 : Nat)) / (2 : Nat) + 1)).Within (3 * n + 6) :=
      within_ofScaled (by omega) (by rw [pow_succ]; omega) (by omega) (by omega)
        (by push_cast; omega)
    rw [Traced.fits_bind_of_ok rfl, Traced.fits_ofScaled]
    refine ⟨⟨by unfold Word.least Word.greatest at *; omega, by omega⟩, ?_⟩
    exact Traced.fits_round hinexact (by push_cast; omega)

/-! ## Bounds on results -/

variable {a b : ℚ}

theorem rounded_bounds (ha : Rounding.Short ctx.precision a) (hb : Rounding.Short ctx.precision b)
    {q : ℚ} (h : a ≤ q ∧ q ≤ b) : a ≤ ctx.rounded q ∧ ctx.rounded q ≤ b :=
  ⟨ha.le_significant ctx.precision_pos h.1, hb.significant_le ctx.precision_pos h.2⟩

theorem round_bounds (hx : x.Within n) (hroom : (2 * n + 1 : Int) ≤ Word.greatest)
    (ha : Rounding.Short ctx.precision a) (hb : Rounding.Short ctx.precision b)
    (hbounds : a ≤ x.toRat ∧ x.toRat ≤ b) :
    a ≤ (ctx.round x).toRat ∧ (ctx.round x).toRat ≤ b := by
  rw [toRat_round_eq (Traced.fits_round hx hroom)]
  exact rounded_bounds ha hb hbounds

theorem add_bounds (hx : x.Within n) (hy : y.Within n) (h : ctx.Roomy n)
    (ha : Rounding.Short ctx.precision a) (hb : Rounding.Short ctx.precision b)
    (hbounds : a ≤ x.toRat + y.toRat ∧ x.toRat + y.toRat ≤ b) :
    a ≤ (ctx.add x y).toRat ∧ (ctx.add x y).toRat ≤ b := by
  rw [value_add (add_of_within hx hy h).1]
  exact rounded_bounds ha hb hbounds

theorem mul_bounds (hx : x.Within n) (hy : y.Within n) (h : ctx.Roomy n)
    (ha : Rounding.Short ctx.precision a) (hb : Rounding.Short ctx.precision b)
    (hbounds : a ≤ x.toRat * y.toRat ∧ x.toRat * y.toRat ≤ b) :
    a ≤ (ctx.mul x y).toRat ∧ (ctx.mul x y).toRat ≤ b := by
  rw [value_mul (mul_of_within hx hy h).1]
  exact rounded_bounds ha hb hbounds

theorem div_of_fits (h : (Traced.div ctx x y).Fits) (hy : y.toRat ≠ 0) :
    Succeeds (ctx.div x y) fun z =>
      z.toRat = ctx.rounded (x.toRat / y.toRat) ∧ z.digitCount ≤ ctx.precision := by
  obtain ⟨z, hz, -⟩ : IsDefined (ctx.div x y) := div_isDefined hy
  exact ⟨z, hz, value_div h hz, digitCount_div_le hz⟩

theorem div_bounds (h : (Traced.div ctx x y).Fits) (hy : y.toRat ≠ 0)
    (ha : Rounding.Short ctx.precision a) (hb : Rounding.Short ctx.precision b)
    (hbounds : a ≤ x.toRat / y.toRat ∧ x.toRat / y.toRat ≤ b) :
    Succeeds (ctx.div x y) fun z => (a ≤ z.toRat ∧ z.toRat ≤ b) ∧ z.digitCount ≤ ctx.precision := by
  refine (div_of_fits h hy).imp fun z hz => ⟨?_, hz.2⟩
  rw [hz.1]
  exact rounded_bounds ha hb hbounds

theorem sqrt_of_pos (hx : 0 < x.toRat) : ctx.sqrt x = .ok (ctx.wholeRoot x 2) := by
  unfold sqrt
  rw [if_neg (by rw [isNegative_iff]; exact hx.not_gt), if_neg (by rw [isZero_iff]; exact hx.ne')]

theorem sqrt_bounds (hx : x.Within n) (h : ctx.Roomy n) (hlower : 1 ≤ x.toRat) (hb0 : 0 ≤ b)
    (hb : Rounding.Short ctx.precision b) (hupper : x.toRat ≤ b ^ 2) :
    Succeeds (ctx.sqrt x) fun r => (1 ≤ r.toRat ∧ r.toRat ≤ b) ∧ r.digitCount ≤ ctx.precision := by
  have hfits : (Traced.sqrt ctx x).Fits := by
    unfold Traced.sqrt
    split
    · exact Traced.fits_pure (α := Decimal) 0
    split
    · exact Traced.fits_pure _
    · exact fits_wholeRoot hx h
  have hr : ctx.sqrt x = .ok (ctx.wholeRoot x 2) := sqrt_of_pos (by linarith)
  exact ⟨_, hr, Traced.sqrt_bounds hb hlower hb0 hupper hfits (Traced.result_sqrt.trans hr),
    digitCount_wholeRoot_le⟩

theorem value_sqrt (hx : x.Within n) (h : ctx.Roomy n) (hpos : 0 < x.toRat) :
    ((ctx.wholeRoot x 2).toRat : ℝ) = ctx.rounded √(x.toRat : ℝ) := by
  have hpos' : (0 : ℝ) < x.toRat := by exact_mod_cast hpos
  exact value_wholeRoot (by decide) (toRat_pos.1 hpos) (fits_wholeRoot hx h)
    (Real.sqrt_pos.2 hpos') (Real.sq_sqrt hpos'.le)

theorem rounded_sqrt_bounds {q : ℚ} (hz : (z.toRat : ℝ) = ctx.rounded √(q : ℝ))
    (ha : Rounding.Short ctx.precision a) (hb : Rounding.Short ctx.precision b) (hb0 : 0 ≤ b)
    (hlower : a ^ 2 ≤ q) (hupper : q ≤ b ^ 2) : a ≤ z.toRat ∧ z.toRat ≤ b := by
  have hlower' : (a : ℝ) ≤ √(q : ℝ) := Real.le_sqrt_of_sq_le (by exact_mod_cast hlower)
  have hupper' : √(q : ℝ) ≤ b :=
    Real.sqrt_le_iff.2 ⟨by exact_mod_cast hb0, by exact_mod_cast hupper⟩
  rw [← Rat.cast_le (K := ℝ), ← Rat.cast_le (K := ℝ), hz]
  exact ⟨ha.cast.le_significant ctx.precision_pos hlower',
    hb.cast.significant_le ctx.precision_pos hupper'⟩

end Context

end Reckoner
