/-!
# Counting decimal digits

The count is read off the binary logarithm and then corrected, so that long numbers are
not written out to be measured. The main statements put a number between two neighbouring
powers of ten.
-/

namespace Reckoner.Integer

/-- A power of ten. -/
def pow10 (k : Nat) : Nat := Nat.pow 10 k

theorem pow10_zero : pow10 0 = 1 := rfl

theorem pow10_succ (k : Nat) : pow10 (k + 1) = pow10 k * 10 := rfl

theorem pow10_pos (k : Nat) : 0 < pow10 k := Nat.pow_pos (by decide)

theorem lt_pow10 (k : Nat) : k < pow10 k := Nat.lt_pow_self (by decide)

/-- Climbs from `k` to the greatest exponent whose power of ten is at most `n`. -/
def climb (n k : Nat) : Nat :=
  if pow10 (k + 1) ≤ n then climb n (k + 1) else k
termination_by n - k
decreasing_by
  have := lt_pow10 (k + 1)
  omega

/-- A low estimate of the decimal logarithm: 8651/28738 is just below log₁₀ 2. -/
def logEstimate (n : Nat) : Nat := n.log2 * 8651 / 28738

/-- The number of decimal digits of `n`; zero has one. -/
def digitCount (n : Nat) : Nat :=
  let start := logEstimate n
  climb n (if pow10 start ≤ n then start else 0) + 1

theorem lt_pow10_climb (n k : Nat) : n < pow10 (climb n k + 1) := by
  fun_induction climb n k with
  | case1 k _ ih => exact ih
  | case2 k h => omega

theorem pow10_climb_le {n k : Nat} (h : pow10 k ≤ n) : pow10 (climb n k) ≤ n := by
  fun_induction climb n k with
  | case1 k hk ih => exact ih hk
  | case2 k _ => exact h

theorem digitCount_pos (n : Nat) : 0 < digitCount n := Nat.succ_pos _

theorem lt_pow10_digitCount (n : Nat) : n < pow10 (digitCount n) := lt_pow10_climb n _

theorem pow10_digitCount_le {n : Nat} (h : n ≠ 0) : pow10 (digitCount n - 1) ≤ n := by
  unfold digitCount
  simp only [Nat.add_sub_cancel]
  apply pow10_climb_le
  split
  · assumption
  · rw [pow10_zero]
    omega

end Reckoner.Integer
