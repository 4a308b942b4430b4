import Mathlib.Tactic
import Mathlib.Algebra.Order.Floor.Ring
import Reckoner.Rounding

/-!
# Rounding a number to an integer

The seven ways of rounding, for the numbers of any field with a floor. A quotient of integers is
rounded as the number that it is. How a number that is no integer is rounded depends only on the
half it lies in: two numbers between the same neighbouring halves are rounded alike.
-/

namespace Reckoner.Rounding

variable {K : Type*} [Field K] [LinearOrder K] [IsStrictOrderedRing K] [FloorRing K]
  (mode : Rounding) {q r : K} {n : Int}

/-- The integer part, toward zero. -/
def truncate (q : K) : Int := if q < 0 then ⌈q⌉ else ⌊q⌋

/-- A number rounded to an integer: its integer part, or one step further from zero. -/
def nearest (q : K) : Int :=
  let cut := truncate q
  if q = cut then cut
  else if mode.leavesZero (decide (q < 0)) (cut.natAbs % 2 == 1)
      (compare (2 * |q|) (2 * |(cut : K)| + 1)) then
    if q < 0 then cut - 1 else cut + 1
  else cut

/-- Whether the mode moves a number that is no integer away from zero. -/
def movesOut (mode : Rounding) (q : K) : Bool :=
  mode.leavesZero (decide (q < 0)) ((truncate q).natAbs % 2 == 1)
    (compare (2 * |q|) (2 * |(truncate q : K)| + 1))

theorem truncate_intCast (n : Int) : truncate (n : K) = n := by
  unfold truncate
  split
  · exact Int.ceil_intCast n
  · exact Int.floor_intCast n

theorem nearest_intCast (n : Int) : mode.nearest (n : K) = n := by
  unfold nearest
  rw [truncate_intCast, if_pos rfl]

theorem nearest_zero : mode.nearest (0 : K) = 0 := by
  simpa using nearest_intCast (K := K) mode 0

omit [IsStrictOrderedRing K] in
theorem nearest_down (q : K) : Rounding.down.nearest q = truncate q := by
  simp [nearest, leavesZero]

/-! ## Bounds -/

omit [IsStrictOrderedRing K] in
theorem ceil_of_ne_floor (h : q ≠ ⌊q⌋) : ⌈q⌉ = ⌊q⌋ + 1 := by
  refine Int.ceil_eq_iff.2 ⟨?_, ?_⟩
  · push_cast
    rw [add_sub_cancel_right]
    exact lt_of_le_of_ne (Int.floor_le q) (Ne.symm h)
  · push_cast
    exact (Int.lt_floor_add_one q).le

/-- Rounding goes to a neighbour. -/
theorem nearest_eq_floor_or_ceil (q : K) : mode.nearest q = ⌊q⌋ ∨ mode.nearest q = ⌈q⌉ := by
  by_cases hwhole : q = ⌊q⌋
  · left
    conv_lhs => rw [hwhole]
    exact nearest_intCast mode ⌊q⌋
  have hceil := ceil_of_ne_floor hwhole
  unfold nearest truncate
  by_cases hneg : q < 0
  · simp only [if_pos hneg, hceil, add_sub_cancel_right]
    split
    · exact .inr rfl
    · split
      · exact .inl rfl
      · exact .inr rfl
  · simp only [if_neg hneg, hceil]
    split
    · exact .inl rfl
    · split
      · exact .inr rfl
      · exact .inl rfl

theorem nearest_le (h : q ≤ n) : mode.nearest q ≤ n := by
  have hceil : ⌈q⌉ ≤ n := Int.ceil_le.2 h
  obtain hr | hr := mode.nearest_eq_floor_or_ceil q
  · exact hr.trans_le ((Int.floor_le_ceil q).trans hceil)
  · exact hr.trans_le hceil

theorem le_nearest (h : (n : K) ≤ q) : n ≤ mode.nearest q := by
  have hfloor : n ≤ ⌊q⌋ := Int.le_floor.2 h
  obtain hr | hr := mode.nearest_eq_floor_or_ceil q
  · exact hfloor.trans_eq hr.symm
  · exact (hfloor.trans (Int.floor_le_ceil q)).trans_eq hr.symm

/-! ## Between two halves -/

theorem floor_half (q : K) : ⌊q⌋ = ⌊2 * q⌋ / 2 := by
  have h := Int.floor_div_natCast (2 * q) 2
  rwa [Nat.cast_ofNat, mul_div_cancel_left₀ q two_ne_zero] at h

theorem compare_congr {α β : Type*} [LinearOrder α] [LinearOrder β] {a b : α} {c d : β}
    (hlt : a < b ↔ c < d) (hgt : b < a ↔ d < c) : compare a b = compare c d := by
  rcases lt_trichotomy a b with h | h | h
  · rw [compare_lt_iff_lt.2 h, compare_lt_iff_lt.2 (hlt.1 h)]
  · have heq : c = d := le_antisymm (not_lt.1 fun h' => (hgt.2 h').ne' h)
      (not_lt.1 fun h' => (hlt.2 h').ne h)
    rw [compare_eq_iff_eq.2 h, compare_eq_iff_eq.2 heq]
  · rw [compare_gt_iff_gt.2 h, compare_gt_iff_gt.2 (hgt.1 h)]

/-- Two numbers between the same halves, and on neither of them, are rounded alike. -/
theorem nearest_congr (hfloor : ⌊2 * q⌋ = ⌊2 * r⌋) (hq : ∀ n : Int, 2 * q ≠ n)
    (hr : ∀ n : Int, 2 * r ≠ n) : mode.nearest q = mode.nearest r := by
  have hwhole {q : K} (hq : ∀ n : Int, 2 * q ≠ n) (n : Int) : q ≠ n := by
    rintro rfl
    exact hq (2 * n) (by push_cast; rfl)
  have hfloor' : ⌊q⌋ = ⌊r⌋ := by rw [floor_half q, floor_half r, hfloor]
  have hceil : ⌈q⌉ = ⌈r⌉ := by
    rw [ceil_of_ne_floor (hwhole hq _), ceil_of_ne_floor (hwhole hr _), hfloor']
  -- Every comparison with a half is decided by the floor.
  have hlt (n : Int) : 2 * q < n ↔ 2 * r < n := by
    rw [← Int.floor_lt, ← Int.floor_lt, hfloor]
  have hgt (n : Int) : (n : K) < 2 * q ↔ (n : K) < 2 * r := by
    rw [← not_le, ← not_le, (hq n).le_iff_lt, (hr n).le_iff_lt, hlt]
  have hneg : q < 0 ↔ r < 0 := by
    have h := hlt 0
    rw [Int.cast_zero] at h
    constructor
    · intro hneg
      linarith [h.1 (by linarith)]
    · intro hneg
      linarith [h.2 (by linarith)]
  have hcut : truncate q = truncate r := by
    unfold truncate
    simp only [hneg, hfloor', hceil]
  have hhalf (c : Int) : compare (2 * |q|) (2 * |(c : K)| + 1) =
      compare (2 * |r|) (2 * |(c : K)| + 1) := by
    have hcast : (2 * |(c : K)| + 1) = ((2 * |c| + 1 : Int) : K) := by push_cast; rfl
    rw [hcast]
    by_cases hneg' : q < 0
    · rw [abs_of_neg hneg', abs_of_neg (hneg.1 hneg')]
      have hlt' := hlt (-(2 * |c| + 1))
      have hgt' := hgt (-(2 * |c| + 1))
      rw [Int.cast_neg] at hlt' hgt'
      refine compare_congr ?_ ?_
      · rwa [mul_neg, mul_neg, neg_lt, neg_lt (a := 2 * r)]
      · rwa [mul_neg, mul_neg, lt_neg, lt_neg (b := 2 * r)]
    · rw [abs_of_nonneg (not_lt.1 hneg'), abs_of_nonneg (not_lt.1 fun h => hneg' (hneg.2 h))]
      exact compare_congr (hlt _) (hgt _)
  unfold nearest
  rw [if_neg (hwhole hq _), if_neg (hwhole hr _), hcut, hhalf]
  simp only [hneg]

/-! ## Quotients -/

/-- A quotient cut off toward zero and the remainder are on the side of the dividend. -/
theorem tdiv_tmod (v : Int) {d : Int} (hd : 0 < d) :
    v = v.tdiv d * d + v.tmod d ∧ |v.tmod d| < d ∧
      (0 ≤ v ∧ 0 ≤ v.tdiv d ∧ 0 ≤ v.tmod d ∨ v < 0 ∧ v.tdiv d ≤ 0 ∧ v.tmod d ≤ 0) := by
  refine ⟨(Int.tdiv_mul_add_tmod v d).symm, ?_, ?_⟩
  · have hrest := Int.natAbs_tmod v d
    have hlt : v.natAbs % d.natAbs < d.natAbs := Nat.mod_lt _ (by omega)
    rw [Int.abs_eq_natAbs]
    omega
  obtain hv | hv := le_or_gt 0 v
  · exact .inl ⟨hv, Int.tdiv_nonneg hv hd.le, Int.tmod_nonneg d hv⟩
  · right
    have hquotient : 0 ≤ (-v).tdiv d := Int.tdiv_nonneg (by omega) hd.le
    have hrest : 0 ≤ (-v).tmod d := Int.tmod_nonneg d (by omega)
    rw [Int.neg_tdiv] at hquotient
    rw [Int.neg_tmod] at hrest
    omega

theorem abs_tdiv_tmod (v : Int) {d : Int} (hd : 0 < d) :
    |v| = |v.tdiv d| * d + |v.tmod d| := by
  obtain ⟨hsplit, -, ⟨hv, hc, hr⟩ | ⟨hv, hc, hr⟩⟩ := tdiv_tmod v hd
  · rw [abs_of_nonneg hv, abs_of_nonneg hc, abs_of_nonneg hr]
    exact hsplit
  · rw [abs_of_neg hv, abs_of_nonpos hc, abs_of_nonpos hr, neg_mul]
    omega

omit [IsStrictOrderedRing K] in
theorem div_eq_tdiv_add (v : Int) {d : Int} (hd : 0 < d) :
    (v : K) / d = v.tdiv d + v.tmod d / d := by
  have hd' : (d : K) ≠ 0 := Int.cast_ne_zero.2 hd.ne'
  conv_lhs => rw [(tdiv_tmod v hd).1]
  rw [Int.cast_add, Int.cast_mul, add_div, mul_div_cancel_right₀ _ hd']

theorem truncate_div_of_pos (v : Int) {d : Int} (hd : 0 < d) :
    truncate ((v : K) / d) = v.tdiv d := by
  have hd' : (0 : K) < d := Int.cast_pos.2 hd
  obtain ⟨-, hrest, hsides⟩ := tdiv_tmod v hd
  have hfraction : |(v.tmod d : K) / d| < 1 := by
    rw [abs_div, abs_of_pos hd', div_lt_one hd']
    exact_mod_cast hrest
  have hsign : (v : K) / d < 0 ↔ v < 0 := by rw [div_lt_iff₀ hd', zero_mul, Int.cast_lt_zero]
  unfold truncate
  simp only [hsign]
  obtain ⟨hv, -, hr⟩ | ⟨hv, -, hr⟩ := hsides
  · have hr' : (0 : K) ≤ v.tmod d / d := div_nonneg (by exact_mod_cast hr) hd'.le
    rw [if_neg hv.not_gt, div_eq_tdiv_add v hd, Int.floor_eq_iff]
    constructor <;> linarith [le_abs_self ((v.tmod d : K) / d)]
  · have hr' : (v.tmod d / d : K) ≤ 0 := div_nonpos_of_nonpos_of_nonneg (by exact_mod_cast hr) hd'.le
    rw [if_pos hv, div_eq_tdiv_add v hd, Int.ceil_eq_iff]
    constructor <;> linarith [neg_abs_le ((v.tmod d : K) / d)]

/-- Twice the remainder tells on which side of the half between two integers a quotient lies. -/
theorem compare_half_div (v : Int) {d : Int} (hd : 0 < d) :
    compare (2 * |(v : K) / d|) (2 * |(v.tdiv d : K)| + 1) =
      compare ((v.tmod d).natAbs * 2) d.natAbs := by
  have hd' : (0 : K) < d := Int.cast_pos.2 hd
  have hsize : |(v : K)| = |(v.tdiv d : K)| * d + |(v.tmod d : K)| := by
    exact_mod_cast abs_tdiv_tmod v hd
  have hcast : (((v.tmod d).natAbs * 2 : Nat) : K) = 2 * |(v.tmod d : K)| ∧
      ((d.natAbs : Nat) : K) = d := by
    rw [Nat.cast_mul, Nat.cast_natAbs, Nat.cast_natAbs, abs_of_pos hd, Int.cast_abs, mul_comm]
    exact ⟨rfl, rfl⟩
  rw [abs_div, abs_of_pos hd', hsize, add_div, mul_div_cancel_right₀ _ hd'.ne']
  refine compare_congr ?_ ?_
  · rw [← Nat.cast_lt (α := K), hcast.1, hcast.2, mul_add, add_lt_add_iff_left, ← mul_div_assoc,
      div_lt_one hd']
  · rw [← Nat.cast_lt (α := K), hcast.1, hcast.2, mul_add, add_lt_add_iff_left, ← mul_div_assoc,
      one_lt_div hd']

/-- The quotient of two integers is rounded as the number that it is. -/
theorem quotient_eq_nearest (v : Int) {d : Int} (hd : 0 < d) :
    mode.quotient v d = mode.nearest ((v : K) / d) := by
  have hd' : (0 : K) < d := Int.cast_pos.2 hd
  have hsign : (v : K) / d < 0 ↔ v < 0 := by rw [div_lt_iff₀ hd', zero_mul, Int.cast_lt_zero]
  have hwhole : (v : K) / d = v.tdiv d ↔ v.tmod d = 0 := by
    rw [div_eq_tdiv_add v hd, add_eq_left, div_eq_zero_iff, or_iff_left hd'.ne', Int.cast_eq_zero]
  have hnegative : (decide (v < 0) != decide (d < 0)) = decide (v < 0) := by
    rw [decide_eq_false hd.not_gt, Bool.bne_false]
  -- both make the same three choices: whether the value is whole, where its half lies, its sign
  unfold quotient nearest
  simp only [truncate_div_of_pos v hd, hwhole, hsign, compare_half_div v hd, hnegative,
    decide_eq_true_eq]

end Reckoner.Rounding
