import Reckoner.Proofs.Loops.Circle
import Reckoner.Proofs.Parity.Operations

/-!
# Functions of negated angles

In a context whose mode does not look at the sign, sine and tangent are odd and cosine is even, and
not only in value: the results for an angle and its negative are written with the same digits at
the same scale, and one fails exactly as the other one does. The two runs stay in step through the
reduction of the angle, where the corrections at `π` and `-π` change places, and through the terms
of the series, which are broken off at the same index.
-/

namespace Reckoner

open Decimal

namespace Rounding

theorem mirror_eq_self_iff {mode : Rounding} :
    mode.mirror = mode ↔ mode ∈ [up, down, halfUp, halfDown, halfEven] := by
  cases mode <;> decide

end Rounding

/-- From negated factors a series makes the negatives of its terms. -/
structure Series.Mirrors (mirrored series : Series) : Prop where
  next (k : Nat) (factor : Decimal) :
    mirrored.next k (-factor) = (- ·) <$> series.next k factor
  term (k : Nat) (factor : Decimal) :
    mirrored.term k (-factor) = (- ·) <$> series.term k factor
  reference (sum : Decimal) : mirrored.reference (-sum) = -series.reference sum

namespace Context

variable {ctx : Context} {x : Decimal}

theorem mirror_eq_self (hmode : ctx.rounding.mirror = ctx.rounding) : ctx.mirror = ctx := by
  unfold mirror
  rw [hmode]

/-! ## Series in step -/

theorem isNegligible_neg (ctx : Context) (term reference : Decimal) :
    ctx.isNegligible (-term) (-reference) = ctx.isNegligible term reference := by
  unfold isNegligible
  rw [isZero_neg, exponent_neg, exponent_neg]

theorem sumFrom_neg {mirrored series : Series} (h : mirrored.Mirrors series)
    (hmode : ctx.rounding.mirror = ctx.rounding) (limit k : Nat) (factor sum : Decimal) :
    ctx.sumFrom mirrored limit k (-factor) (-sum) =
      (- ·) <$> ctx.sumFrom series limit k factor sum := by
  induction limit generalizing k factor sum with
  | zero => rfl
  | succ limit ih =>
    simp only [sumFrom, h.next, h.term, h.reference, bind_map_left, map_bind, isNegligible_neg,
      add_neg, mirror_eq_self hmode, ih]
    refine bind_congr fun next => bind_congr fun term => ?_
    split <;> rfl

theorem sumSeries_neg {mirrored series : Series} (h : mirrored.Mirrors series)
    (hmode : ctx.rounding.mirror = ctx.rounding) (first : Decimal) :
    ctx.sumSeries mirrored (-first) = (- ·) <$> ctx.sumSeries series first :=
  sumFrom_neg h hmode _ _ _ _

theorem sinSeries_mirrors (hmode : ctx.rounding.mirror = ctx.rounding) (x : Decimal) :
    (ctx.sinSeries (-x)).Mirrors (ctx.sinSeries x) where
  next k term := by
    simp only [sinSeries, mul_neg_neg ctx x x, mul_neg_left ctx term, div_neg_left,
      mirror_eq_self hmode, bind_map_left, map_bind, map_pure]
  term _ _ := rfl
  reference _ := rfl

theorem cosSeries_neg (ctx : Context) (x : Decimal) : ctx.cosSeries (-x) = ctx.cosSeries x := by
  simp only [cosSeries, mul_neg_neg]

/-! ## The reduction of an angle -/

theorem forAngle_neg (ctx : Context) (x : Decimal) : ctx.forAngle (-x) = ctx.forAngle x := by
  unfold forAngle
  rw [exponent_neg]

theorem abs_neg (x : Decimal) : (-x).abs = x.abs := by
  unfold Decimal.abs
  rw [unscaled_neg, Int.natAbs_neg]
  rfl

/-- The corrections at `π` and `-π` change places. They do not come together, as `π` is not below
zero. -/
theorem correction_neg (hmode : ctx.rounding.mirror = ctx.rounding) {pi : Decimal}
    (hpi : 0 ≤ pi.toRat) (turn reduced : Decimal) :
    (if pi < -reduced then ctx.sub (-reduced) turn
      else if -reduced < -pi then ctx.add (-reduced) turn else -reduced) =
    -(if pi < reduced then ctx.sub reduced turn
      else if reduced < -pi then ctx.add reduced turn else reduced) := by
  simp only [lt_iff, toRat_neg, neg_lt_neg_iff, lt_neg (a := pi.toRat)]
  by_cases hlow : reduced.toRat < -pi.toRat
  · have hnot : ¬ pi.toRat < reduced.toRat := by linarith
    rw [if_pos hlow, if_neg hnot, if_pos hlow, sub, add_neg, mirror_eq_self hmode]
  rw [if_neg hlow, if_neg hlow]
  split
  · have hadd := add_neg ctx reduced (-turn)
    rwa [neg_neg, mirror_eq_self hmode] at hadd
  · rfl

theorem principalAngle_neg (hmode : ctx.rounding.mirror = ctx.rounding)
    (hpi : ∀ pi, ctx.pi = .ok pi → 0 ≤ pi.toRat) (x : Decimal) :
    ctx.principalAngle (-x) = (- ·) <$> ctx.principalAngle x := by
  unfold principalAngle
  cases hok : ctx.pi with
  | error e => rfl
  | ok pi =>
    change (if (-x).abs ≤ pi then _ else _) = (- ·) <$> (if x.abs ≤ pi then _ else _)
    rw [abs_neg]
    split
    · rfl
    simp only [div_neg_left, mirror_eq_self hmode, bind_map_left, map_bind, map_pure, wholePart_neg,
      mul_neg_left, sub_neg, correction_neg hmode (hpi pi hok)]

/-- The numbers on the way to `π` stay inside the words, so that it is not below zero. -/
theorem pi_nonneg (hprecision : ctx.precision ≤ 2 * 10 ^ 17) {pi : Decimal}
    (hok : ctx.pi = .ok pi) : 0 ≤ pi.toRat := by
  have hroom : ctx.Roomy (2 * ctx.precision + 24) :=
    ⟨by omega, by unfold Word.greatest; push_cast; omega⟩
  obtain ⟨-, pi', hok', ⟨hlower, -⟩, -⟩ := pi_ends hroom
  obtain rfl : pi' = pi := Except.ok.inj (hok'.symm.trans hok)
  linarith

theorem precision_of_forAngle {wide : Context} (hwide : ctx.forAngle x = .ok wide) :
    wide.rounding = ctx.rounding ∧ wide.precision ≤ ctx.precision + 1010 := by
  unfold forAngle angleLimit at hwide
  split at hwide
  · cases hwide
  · obtain rfl := Except.ok.inj hwide
    refine ⟨rfl, ?_⟩
    change ctx.precision + 10 + x.exponent.toNat ≤ _
    omega

/-- Both functions reduce an angle and go on from there. -/
theorem reduction_neg (hmode : ctx.rounding.mirror = ctx.rounding)
    (hprecision : ctx.precision + 1010 ≤ 2 * 10 ^ 17) {rest : Context → Decimal → Arithmetic Decimal}
    {f : Decimal → Decimal}
    (hrest : ∀ wide reduced, wide.rounding.mirror = wide.rounding →
      rest wide (-reduced) = f <$> rest wide reduced) (x : Decimal) :
    (do
      let wide ← ctx.forAngle (-x)
      let reduced ← wide.principalAngle (-x)
      rest wide reduced) =
    f <$> (do
      let wide ← ctx.forAngle x
      let reduced ← wide.principalAngle x
      rest wide reduced) := by
  rw [forAngle_neg]
  cases hok : ctx.forAngle x with
  | error e => rfl
  | ok wide =>
    obtain ⟨hrounding, hwide⟩ := precision_of_forAngle hok
    have hmode' : wide.rounding.mirror = wide.rounding := by rwa [hrounding]
    change (wide.principalAngle (-x) >>= rest wide) = f <$> (wide.principalAngle x >>= rest wide)
    rw [principalAngle_neg hmode' (fun _ => pi_nonneg (by omega)), bind_map_left, map_bind]
    exact bind_congr fun reduced => hrest wide reduced hmode'

theorem sin_neg (hmode : ctx.rounding.mirror = ctx.rounding)
    (hprecision : ctx.precision + 1010 ≤ 2 * 10 ^ 17) (x : Decimal) :
    ctx.sin (-x) = (- ·) <$> ctx.sin x := by
  unfold sin
  rw [isZero_neg]
  split
  · rfl
  refine reduction_neg hmode hprecision (fun wide reduced hwide => ?_) x
  rw [sumSeries_neg (sinSeries_mirrors hwide reduced) hwide, bind_map_left, map_bind]
  simp only [round_neg, mirror_eq_self hmode, map_pure]

theorem cos_neg (hmode : ctx.rounding.mirror = ctx.rounding)
    (hprecision : ctx.precision + 1010 ≤ 2 * 10 ^ 17) (x : Decimal) : ctx.cos (-x) = ctx.cos x := by
  unfold cos
  rw [isZero_neg]
  split
  · rfl
  refine (reduction_neg (f := id) hmode hprecision (fun wide reduced _ => ?_) x).trans (id_map _)
  rw [cosSeries_neg, id_map]

theorem tan_neg (hmode : ctx.rounding.mirror = ctx.rounding) (hprecision : ctx.precision ≤ 10 ^ 17)
    (x : Decimal) : ctx.tan (-x) = (- ·) <$> ctx.tan x := by
  have hmode' : ctx.guarded.rounding.mirror = ctx.guarded.rounding := hmode
  have hguarded : ctx.guarded.precision + 1010 ≤ 2 * 10 ^ 17 := by
    change ctx.precision + 10 + 1010 ≤ _
    omega
  unfold tan
  rw [sin_neg hmode' hguarded, cos_neg hmode' hguarded, bind_map_left, map_bind]
  refine bind_congr fun sine => ?_
  rw [map_bind]
  refine bind_congr fun cosine => ?_
  rw [div_neg_left, mirror_eq_self hmode]

/-! ## Parity -/

end Context

end Reckoner
