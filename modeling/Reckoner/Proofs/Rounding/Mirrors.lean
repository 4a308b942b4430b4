import Reckoner.Proofs.Rounding.Modes

/-!
# Rounding and negation

The negative of a number is rounded to the negative of what the mirrored mode makes of the number.
Only the two modes that look at the sign have another mirror than themselves. They are the modes
that say on which side of a number its rounding is.
-/

namespace Reckoner.Rounding

variable {K : Type*} [Field K] [LinearOrder K] [IsStrictOrderedRing K] [FloorRing K]
  {mode : Rounding} {digits : Nat} {q : K}

/-- The mode that rounds below zero as this one does above it. -/
def mirror : Rounding → Rounding
  | ceiling => floor
  | floor => ceiling
  | mode => mode

theorem mirror_mirror (mode : Rounding) : mode.mirror.mirror = mode := by
  cases mode <;> rfl

theorem leavesZero_mirror (negative odd : Bool) (half : Ordering) :
    mode.mirror.leavesZero negative odd half = mode.leavesZero (!negative) odd half := by
  cases mode <;> simp [mirror, leavesZero]

/-! ## Integers -/

theorem truncate_neg (q : K) : truncate (-q) = -truncate q := by
  unfold truncate
  rcases lt_trichotomy q 0 with hneg | rfl | hpos
  · rw [if_neg (neg_pos.2 hneg).not_gt, if_pos hneg, Int.floor_neg]
  · simp
  · rw [if_pos (neg_neg_of_pos hpos), if_neg hpos.not_gt, Int.ceil_neg]

theorem outward_neg (q : K) : outward (-q) = -outward q := by
  unfold outward
  rcases lt_trichotomy q 0 with hneg | rfl | hpos
  · rw [if_neg (neg_pos.2 hneg).not_gt, if_pos hneg, Int.ceil_neg]
  · simp
  · rw [if_pos (neg_neg_of_pos hpos), if_neg hpos.not_gt, Int.floor_neg]

theorem movesOut_neg (hq : q ≠ 0) : mode.movesOut (-q) = mode.mirror.movesOut q := by
  have hsign : decide (-q < 0) = !decide (q < 0) := by
    rw [← decide_not]
    exact decide_eq_decide.2 (by rw [neg_neg_iff_pos, not_lt, hq.symm.le_iff_lt])
  unfold movesOut
  rw [leavesZero_mirror, hsign, truncate_neg, Int.natAbs_neg, Int.cast_neg, abs_neg, abs_neg]

theorem nearest_neg (mode : Rounding) (q : K) : mode.nearest (-q) = -mode.mirror.nearest q := by
  by_cases hwhole : q = ⌊q⌋
  · rw [nearest_of_whole hwhole, hwhole, ← Int.cast_neg, nearest_intCast, Int.floor_intCast]
  have hwhole' : -q ≠ ⌊-q⌋ := by
    intro h
    refine hwhole ?_
    rw [eq_comm, Int.floor_eq_self_iff_mem]
    exact ⟨-⌊-q⌋, by rw [Int.cast_neg, ← h, neg_neg]⟩
  have hzero : q ≠ 0 := by
    rintro rfl
    exact hwhole (by simp)
  rw [nearest_eq hwhole, nearest_eq hwhole', movesOut_neg hzero, outward_neg, truncate_neg]
  exact (apply_ite Neg.neg _ _ _).symm

/-! ## Significant digits -/

omit [IsStrictOrderedRing K] in
theorem unit_neg (digits : Nat) (q : K) : unit digits (-q) = unit digits q := by
  rw [unit, unit, abs_neg]

theorem significant_neg (mode : Rounding) (digits : Nat) (q : K) :
    mode.significant digits (-q) = -mode.mirror.significant digits q := by
  unfold significant
  rw [unit_neg, neg_div, nearest_neg, Int.cast_neg, neg_mul]

theorem significant_floor_le (digits : Nat) (q : K) : floor.significant digits q ≤ q := by
  unfold significant
  rw [nearest_floor, ← le_div_iff₀ (unit_pos digits q)]
  exact Int.floor_le _

theorem le_significant_ceiling (digits : Nat) (q : K) : q ≤ ceiling.significant digits q := by
  unfold significant
  rw [nearest_ceiling, ← div_le_iff₀ (unit_pos digits q)]
  exact Int.le_ceil _

end Reckoner.Rounding
