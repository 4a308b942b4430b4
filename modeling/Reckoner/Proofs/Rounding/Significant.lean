import Mathlib.Data.Int.Log
import Reckoner.Proofs.Rounding.Nearest

/-!
# Rounding a number to significant digits

The last digit kept has a unit that is a power of ten, given by the exponent of the number. Rounding
keeps the numbers with few enough digits, and no number is rounded past one of them. What lies behind
the digits of a grid finer than the unit cannot be seen but for being there.
-/

namespace Reckoner.Rounding

variable {K : Type*} [Field K] {mode : Rounding} {digits : Nat} {q r : K} {n k : Int}

/-! ## Numbers with few digits -/

/-- A number that has few enough digits at some unit. -/
def Short (digits : Nat) (q : K) : Prop := ∃ n k : Int, q = n * 10 ^ k ∧ |n| < 10 ^ digits

theorem short_one (h : 0 < digits) : Short digits (1 : K) :=
  ⟨1, 0, by simp, by simpa using one_lt_pow₀ (by decide : (1 : Int) < 10) h.ne'⟩

variable [LinearOrder K] [IsStrictOrderedRing K]

theorem abs_lt_of_digits (h : q = n * 10 ^ k) (hn : |n| < 10 ^ digits) :
    |q| < 10 ^ (k + digits) := by
  have hn' : |(n : K)| < 10 ^ digits := by exact_mod_cast hn
  rw [h, abs_mul, abs_of_pos (by positivity : (0 : K) < 10 ^ k), add_comm, zpow_add₀ (by norm_num),
    zpow_natCast]
  exact mul_lt_mul_of_pos_right hn' (by positivity)

theorem pow_eq_mul (h : n ≤ k) : (10 : K) ^ k = ((10 ^ (k - n).toNat : Nat) : K) * 10 ^ n := by
  push_cast
  rw [← zpow_natCast, ← zpow_add₀ (by norm_num)]
  congr 1
  omega

variable [FloorRing K]

/-! ## Exponents -/

theorem pow_log_le (h : q ≠ 0) : (10 : K) ^ Int.log 10 |q| ≤ |q| := by
  exact_mod_cast Int.zpow_log_le_self (b := 10) (by decide) (abs_pos.2 h)

theorem pow_le_iff_le_log (h : q ≠ 0) : (10 : K) ^ k ≤ |q| ↔ k ≤ Int.log 10 |q| := by
  have hlog := Int.zpow_le_iff_le_log (b := 10) (x := k) (by decide) (abs_pos.2 h)
  exact_mod_cast hlog

theorem lt_pow_iff_log_lt (h : q ≠ 0) : |q| < (10 : K) ^ k ↔ Int.log 10 |q| < k := by
  rw [← not_le, pow_le_iff_le_log h, not_le]

theorem log_eq_of_bounds (h : q ≠ 0) (hlower : (10 : K) ^ k ≤ |q|)
    (hupper : |q| < (10 : K) ^ (k + 1)) : Int.log 10 |q| = k := by
  have hle := (pow_le_iff_le_log h).1 hlower
  have hlt := (lt_pow_iff_log_lt h).1 hupper
  omega

/-! ## Significant digits -/

/-- The unit of the last of `digits` digits. -/
def unit (digits : Nat) (q : K) : K := 10 ^ (Int.log 10 |q| + 1 - digits)

/-- A number rounded to `digits` significant digits. -/
def significant (mode : Rounding) (digits : Nat) (q : K) : K :=
  mode.nearest (q / unit digits q) * unit digits q

theorem unit_pos (digits : Nat) (q : K) : 0 < unit digits q := zpow_pos (by norm_num) _

theorem unit_of_one_le (hlower : 1 ≤ |q|) (hupper : |q| < 10) :
    unit digits q = 10 ^ (1 - digits : Int) := by
  have hlog : Int.log 10 |q| = 0 := by
    refine log_eq_of_bounds (abs_pos.1 (zero_lt_one.trans_le hlower)) ?_ ?_
    · rwa [zpow_zero]
    · rwa [zero_add, zpow_one]
  rw [unit, hlog, zero_add]

theorem significant_zero : mode.significant digits (0 : K) = 0 := by
  rw [significant, zero_div, nearest_zero, Int.cast_zero, zero_mul]

theorem significant_mul_unit (h : q = n * unit digits q) : mode.significant digits q = q := by
  have hunits : q / unit digits q = n := (div_eq_iff (unit_pos digits q).ne').2 h
  rw [significant, hunits, nearest_intCast, ← h]

theorem mul_pow_eq_mul_unit (h : Int.log 10 |q| + 1 - digits ≤ k) :
    ∃ m : Int, (n : K) * 10 ^ k = m * unit digits q := by
  refine ⟨n * (10 ^ (k - (Int.log 10 |q| + 1 - digits)).toNat : Nat), ?_⟩
  rw [pow_eq_mul h, unit]
  push_cast
  ring

/-- Every short number is a multiple of the unit of `q`, or is smaller than `q`. -/
theorem Short.mul_unit_or_lt (h : Short digits r) (q : K) :
    (∃ n : Int, r = n * unit digits q) ∨ |r| < 10 ^ Int.log 10 |q| := by
  obtain ⟨n, k, rfl, hn⟩ := h
  obtain hk | hk := le_or_gt (Int.log 10 |q| + 1 - digits) k
  · exact .inl (mul_pow_eq_mul_unit hk)
  · right
    refine (abs_lt_of_digits rfl hn).trans_le (zpow_le_zpow_right₀ (by norm_num) ?_)
    omega

theorem Short.significant (h : Short digits q) : mode.significant digits q = q := by
  by_cases hzero : q = 0
  · rw [hzero, significant_zero]
  obtain ⟨n, hq⟩ | hlt := h.mul_unit_or_lt q
  · exact significant_mul_unit hq
  · exact absurd hlt (pow_log_le hzero).not_gt

theorem pow_log_eq_mul_unit (hdigits : 0 < digits) (q : K) :
    (10 : K) ^ Int.log 10 |q| = ((10 ^ (digits - 1) : Nat) : Int) * unit digits q := by
  rw [unit, pow_eq_mul (show Int.log 10 |q| + 1 - digits ≤ Int.log 10 |q| by omega),
    show (Int.log 10 |q| - (Int.log 10 |q| + 1 - digits)).toNat = digits - 1 by omega]
  push_cast
  rfl

/-! ## Bounds -/

theorem significant_le_mul (h : q ≤ n * unit digits q) :
    mode.significant digits q ≤ n * unit digits q := by
  have hle : mode.nearest (q / unit digits q) ≤ n :=
    nearest_le mode ((div_le_iff₀ (unit_pos digits q)).2 h)
  exact mul_le_mul_of_nonneg_right (by exact_mod_cast hle) (unit_pos digits q).le

theorem mul_le_significant (h : n * unit digits q ≤ q) :
    n * unit digits q ≤ mode.significant digits q := by
  have hle : n ≤ mode.nearest (q / unit digits q) :=
    le_nearest mode ((le_div_iff₀ (unit_pos digits q)).2 h)
  exact mul_le_mul_of_nonneg_right (by exact_mod_cast hle) (unit_pos digits q).le

/-- No number is rounded past a short one above it. -/
theorem Short.significant_le (hr : Short digits r) (hdigits : 0 < digits) (h : q ≤ r) :
    mode.significant digits q ≤ r := by
  by_cases hzero : q = 0
  · rwa [hzero, significant_zero, ← hzero]
  obtain ⟨n, rfl⟩ | hlt := hr.mul_unit_or_lt q
  · exact significant_le_mul h
  -- A short number that is smaller in size is on the other side of a power of ten.
  have hle := pow_log_le hzero
  have hneg : q < 0 := by
    by_contra hpos
    linarith [abs_of_nonneg (not_lt.1 hpos), le_abs_self r]
  rw [pow_log_eq_mul_unit hdigits q] at hle hlt
  rw [abs_of_neg hneg] at hle
  have hq : q ≤ ((-(10 ^ (digits - 1) : Nat) : Int) : K) * unit digits q := by
    push_cast at hle ⊢
    linarith
  refine (significant_le_mul hq).trans ?_
  push_cast at hlt ⊢
  linarith [neg_abs_le r]

/-- No number is rounded past a short one below it. -/
theorem Short.le_significant (hr : Short digits r) (hdigits : 0 < digits) (h : r ≤ q) :
    r ≤ mode.significant digits q := by
  by_cases hzero : q = 0
  · rwa [hzero, significant_zero, ← hzero]
  obtain ⟨n, rfl⟩ | hlt := hr.mul_unit_or_lt q
  · exact mul_le_significant h
  have hle := pow_log_le hzero
  have hpos : 0 < q := by
    by_contra hneg
    linarith [abs_of_nonpos (not_lt.1 hneg), neg_abs_le r]
  rw [pow_log_eq_mul_unit hdigits q] at hle hlt
  rw [abs_of_pos hpos] at hle
  exact (le_abs_self r).trans (hlt.le.trans (mul_le_significant hle))

/-! ## A grid finer than the unit -/

/-- Numbers between the same neighbours of a grid have the same exponent, if the grid has it. -/
theorem log_eq_of_floor_eq (hq : 0 < q) (hk : k ≤ Int.log 10 |q|)
    (hfloor : ⌊q / 10 ^ k⌋ = ⌊r / 10 ^ k⌋) : 0 < r ∧ Int.log 10 |r| = Int.log 10 |q| := by
  have hgrid : (0 : K) < 10 ^ k := by positivity
  have hle : (10 : K) ^ Int.log 10 |q| ≤ q := (pow_log_le hq.ne').trans_eq (abs_of_pos hq)
  have hlt : q < (10 : K) ^ (Int.log 10 |q| + 1) :=
    (abs_of_pos hq).symm.trans_lt ((lt_pow_iff_log_lt hq.ne').2 (lt_add_one _))
  generalize Int.log 10 |q| = e at *
  rw [pow_eq_mul hk, ← le_div_iff₀ hgrid, ← Int.cast_natCast, ← Int.le_floor, hfloor, Int.le_floor,
    le_div_iff₀ hgrid, Int.cast_natCast, ← pow_eq_mul hk] at hle
  have hk' : k ≤ e + 1 := by omega
  rw [pow_eq_mul hk', ← div_lt_iff₀ hgrid, ← Int.cast_natCast, ← Int.floor_lt, hfloor, Int.floor_lt,
    div_lt_iff₀ hgrid, Int.cast_natCast, ← pow_eq_mul hk'] at hlt
  have hr : 0 < r := lt_of_lt_of_le (by positivity) hle
  refine ⟨hr, log_eq_of_bounds hr.ne' ?_ ?_⟩ <;> rwa [abs_of_pos hr]

theorem floor_neg (hq : ∀ n : Int, q ≠ n) : ⌊-q⌋ = -⌊q⌋ - 1 := by
  rw [Int.floor_neg, ceil_of_ne_floor (hq _)]
  ring

omit [IsStrictOrderedRing K] in
theorem div_ne_intCast (hq : ∀ n : Int, q ≠ n * 10 ^ k) (n : Int) : q / 10 ^ k ≠ n := by
  intro h
  exact hq n ((div_eq_iff (zpow_ne_zero k (by norm_num))).1 h)

theorem log_congr (hk : k ≤ Int.log 10 |q|) (hq : ∀ n : Int, q ≠ n * 10 ^ k)
    (hr : ∀ n : Int, r ≠ n * 10 ^ k) (hfloor : ⌊q / 10 ^ k⌋ = ⌊r / 10 ^ k⌋) :
    Int.log 10 |q| = Int.log 10 |r| := by
  rcases lt_trichotomy q 0 with hneg | hzero | hpos
  · have hfloor' : ⌊-q / 10 ^ k⌋ = ⌊-r / 10 ^ k⌋ := by
      rw [neg_div, neg_div, floor_neg (div_ne_intCast hq), floor_neg (div_ne_intCast hr), hfloor]
    have hlog := (log_eq_of_floor_eq (neg_pos.2 hneg) (by rwa [abs_neg]) hfloor').2
    rw [abs_neg, abs_neg] at hlog
    exact hlog.symm
  · exact absurd hzero (by simpa using hq 0)
  · exact (log_eq_of_floor_eq hpos hk hfloor).2.symm

/-- Half a unit is so many steps of a finer grid. -/
theorem exists_half_unit (hk : k < Int.log 10 |q| + 1 - digits) :
    ∃ half : Nat, (half : K) ≠ 0 ∧ unit digits q = 2 * (half * 10 ^ k) := by
  obtain ⟨j, hj⟩ : ∃ j : Nat, (Int.log 10 |q| + 1 - digits - k).toNat = j + 1 :=
    ⟨(Int.log 10 |q| + 1 - digits - k).toNat - 1, by omega⟩
  refine ⟨5 * 10 ^ j, by positivity, ?_⟩
  rw [unit, pow_eq_mul hk.le, hj]
  push_cast
  ring

/-- Numbers strictly between the same neighbours of a grid that is finer than their unit are
rounded alike. -/
theorem significant_congr (hk : k < Int.log 10 |q| + 1 - digits) (hdigits : 0 < digits)
    (hq : ∀ n : Int, q ≠ n * 10 ^ k) (hr : ∀ n : Int, r ≠ n * 10 ^ k)
    (hfloor : ⌊q / 10 ^ k⌋ = ⌊r / 10 ^ k⌋) :
    mode.significant digits q = mode.significant digits r := by
  have hunit : unit digits r = unit digits q := by
    rw [unit, unit, log_congr (by omega) hq hr hfloor]
  obtain ⟨half, hhalf0, hhalf⟩ := exists_half_unit hk
  have hhalves (q : K) : 2 * (q / (2 * (half * 10 ^ k))) = q / 10 ^ k / half := by
    field_simp
  have hne {q : K} (hq : ∀ n : Int, q ≠ n * 10 ^ k) (n : Int) : q / 10 ^ k / half ≠ n := by
    intro h
    refine div_ne_intCast hq (n * half) ?_
    rw [Int.cast_mul, Int.cast_natCast, (div_eq_iff hhalf0).1 h]
  rw [significant, significant, hunit, hhalf]
  congr 2
  refine nearest_congr mode ?_ ?_ ?_
  · rw [hhalves, hhalves, Int.floor_div_natCast, Int.floor_div_natCast, hfloor]
  · intro n
    rw [hhalves]
    exact hne hq n
  · intro n
    rw [hhalves]
    exact hne hr n

/-! ## Tails -/

theorem floor_eq_of_side {a b : K} (ha : |a| < 1) (hb : |b| < 1) (hside : 0 < a * b) :
    ⌊a⌋ = ⌊b⌋ := by
  have hbelow {a : K} (ha : -1 < a ∧ a < 1) (hneg : a < 0) : ⌊a⌋ = -1 := by
    rw [Int.floor_eq_iff]
    push_cast
    exact ⟨ha.1.le, by linarith⟩
  rw [abs_lt] at ha hb
  obtain ⟨ha', hb'⟩ | ⟨ha', hb'⟩ := pos_and_pos_or_neg_and_neg_of_mul_pos hside
  · rw [Int.floor_eq_zero_iff.2 ⟨ha'.le, ha.2⟩, Int.floor_eq_zero_iff.2 ⟨hb'.le, hb.2⟩]
  · rw [hbelow ha ha', hbelow hb hb']

omit [FloorRing K] in
theorem add_ne_intCast {a : K} (ha : |a| < 1) (hne : a ≠ 0) (n m : Int) : (n : K) + a ≠ m := by
  intro h
  have hwhole : a = ((m - n : Int) : K) := by
    push_cast
    linarith
  rw [hwhole] at ha hne
  have hlt : |m - n| < 1 := by exact_mod_cast ha
  exact hne (by rw [Int.abs_lt_one_iff.1 hlt, Int.cast_zero])

omit [FloorRing K] in
/-- A tail keeps a number off the grid in front of it. -/
theorem tail_ne_mul {a : K} (ha : |a| < 1) (hne : a ≠ 0) (k n m : Int) :
    ((n : K) + a) * 10 ^ k ≠ m * 10 ^ k := by
  have hgrid : (0 : K) < 10 ^ k := by positivity
  exact fun h => add_ne_intCast ha hne n m (mul_right_cancel₀ hgrid.ne' h)

theorem floor_tail {a b : K} (ha : |a| < 1) (hb : |b| < 1) (hside : 0 < a * b) (k n : Int) :
    ⌊((n : K) + a) * 10 ^ k / 10 ^ k⌋ = ⌊((n : K) + b) * 10 ^ k / 10 ^ k⌋ := by
  have hgrid : (0 : K) < 10 ^ k := by positivity
  rw [mul_div_cancel_right₀ _ hgrid.ne', mul_div_cancel_right₀ _ hgrid.ne', Int.floor_intCast_add,
    Int.floor_intCast_add, floor_eq_of_side ha hb hside]

theorem add_le_log_tail {a : K} (k : Int) (hlong : (10 : K) ^ digits ≤ |n + a|) :
    k + digits ≤ Int.log 10 |(n + a) * 10 ^ k| := by
  have hgrid : (0 : K) < 10 ^ k := by positivity
  have hsize : (10 : K) ^ (k + digits) ≤ |(n + a) * 10 ^ k| := by
    rw [abs_mul, abs_of_pos hgrid, add_comm k, zpow_add₀ (by norm_num), zpow_natCast]
    exact mul_le_mul_of_nonneg_right hlong hgrid.le
  exact (pow_le_iff_le_log (abs_pos.1 (lt_of_lt_of_le (by positivity) hsize))).1 hsize

/-- A tail does not reach the exponent. -/
theorem log_tail {a b : K} (k : Int) (hlong : (10 : K) ^ digits ≤ |n + a|) (ha : |a| < 1)
    (hb : |b| < 1) (hside : 0 < a * b) :
    Int.log 10 |(n + a) * 10 ^ k| = Int.log 10 |(n + b) * 10 ^ k| := by
  have hlog := add_le_log_tail k hlong
  refine log_congr (by omega) (tail_ne_mul ha ?_ k n) (tail_ne_mul hb ?_ k n)
    (floor_tail ha hb hside k n)
  · exact left_ne_zero_of_mul hside.ne'
  · exact right_ne_zero_of_mul hside.ne'

/-- Of what follows more digits than are kept, only the side can be seen. -/
theorem significant_tail {a b : K} (k : Int) (hlong : (10 : K) ^ digits ≤ |n + a|)
    (hdigits : 0 < digits) (ha : |a| < 1) (hb : |b| < 1) (hside : 0 < a * b) :
    mode.significant digits ((n + a) * 10 ^ k) = mode.significant digits ((n + b) * 10 ^ k) := by
  have hlog := add_le_log_tail k hlong
  refine significant_congr (by omega) hdigits (tail_ne_mul ha ?_ k n) (tail_ne_mul hb ?_ k n)
    (floor_tail ha hb hside k n)
  · exact left_ne_zero_of_mul hside.ne'
  · exact right_ne_zero_of_mul hside.ne'

end Reckoner.Rounding
