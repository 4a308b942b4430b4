import Reckoner.Proofs.Rounding.Significant

/-!
# What the modes of rounding have in common

Each mode goes to the neighbour that its name says, and the three that go to the nearest integer are
never further than a half from the number. All of them keep the order of numbers, also across a
power of ten, where the unit of the last digit changes.
-/

namespace Reckoner.Rounding

variable {K : Type*} [Field K] [LinearOrder K] [IsStrictOrderedRing K] [FloorRing K]
  {mode : Rounding} {digits : Nat} {q r : K}

/-! ## Neighbours -/

/-- The neighbour on the side away from zero. -/
def outward (q : K) : Int := if q < 0 then ⌊q⌋ else ⌈q⌉

theorem ne_truncate (h : q ≠ ⌊q⌋) : q ≠ truncate q := by
  unfold truncate
  split
  · intro heq
    have hceil := ceil_of_ne_floor h
    rw [heq, Int.ceil_intCast, Int.floor_intCast] at hceil
    omega
  · exact h

theorem nearest_eq (h : q ≠ ⌊q⌋) :
    mode.nearest q = if mode.movesOut q then outward q else truncate q := by
  have hceil := ceil_of_ne_floor h
  unfold nearest
  rw [if_neg (ne_truncate h)]
  change (if mode.movesOut q = true then _ else _) = _
  split
  · unfold outward truncate
    split <;> omega
  · rfl

theorem nearest_of_whole (h : q = ⌊q⌋) : mode.nearest q = ⌊q⌋ := by
  conv_lhs => rw [h]
  exact nearest_intCast mode _

theorem ceil_of_whole (h : q = ⌊q⌋) : ⌈q⌉ = ⌊q⌋ := by
  conv_lhs => rw [h]
  exact Int.ceil_intCast _

/-! ## The directed modes -/

theorem nearest_up (q : K) : up.nearest q = outward q := by
  by_cases h : q = ⌊q⌋
  · rw [nearest_of_whole h, outward, ceil_of_whole h, ite_self]
  · rw [nearest_eq h]
    exact if_pos rfl

theorem nearest_ceiling (q : K) : ceiling.nearest q = ⌈q⌉ := by
  by_cases h : q = ⌊q⌋
  · rw [nearest_of_whole h, ceil_of_whole h]
  rw [nearest_eq h, movesOut, leavesZero, outward, truncate]
  by_cases hneg : q < 0 <;> simp [hneg]

theorem nearest_floor (q : K) : floor.nearest q = ⌊q⌋ := by
  by_cases h : q = ⌊q⌋
  · exact nearest_of_whole h
  rw [nearest_eq h, movesOut, leavesZero, outward, truncate]
  by_cases hneg : q < 0 <;> simp [hneg]

/-! ## The modes that go to the nearest integer -/

/-- The size of a number, cut off toward zero, and what the other neighbour is short of. -/
theorem abs_truncate (q : K) :
    |(truncate q : K)| ≤ |q| ∧ |q - truncate q| = |q| - |(truncate q : K)| := by
  unfold truncate
  split
  · next hneg =>
    have hle : ((⌈q⌉ : Int) : K) ≤ 0 := by exact_mod_cast Int.ceil_le.2 (by simpa using hneg.le)
    have hceil := Int.le_ceil q
    rw [abs_of_nonpos hle, abs_of_neg hneg, abs_of_nonpos (by linarith)]
    constructor <;> linarith
  · next hpos =>
    rw [not_lt] at hpos
    have hle : (0 : K) ≤ (⌊q⌋ : Int) := by exact_mod_cast Int.floor_nonneg.2 hpos
    have hfloor := Int.floor_le q
    rw [abs_of_nonneg hle, abs_of_nonneg hpos, abs_of_nonneg (by linarith)]
    constructor <;> linarith

theorem abs_outward (h : q ≠ ⌊q⌋) : |q - outward q| = |(truncate q : K)| + 1 - |q| := by
  have hceil : ((⌈q⌉ : Int) : K) = ⌊q⌋ + 1 := by rw [ceil_of_ne_floor h]; push_cast; rfl
  unfold outward truncate
  split
  · next hneg =>
    have hle : ((⌈q⌉ : Int) : K) ≤ 0 := by exact_mod_cast Int.ceil_le.2 (by simpa using hneg.le)
    have hfloor := Int.floor_le q
    rw [abs_of_nonpos hle, abs_of_neg hneg, abs_of_nonneg (by linarith)]
    linarith
  · next hpos =>
    rw [not_lt] at hpos
    have hle : (0 : K) ≤ (⌊q⌋ : Int) := by exact_mod_cast Int.floor_nonneg.2 hpos
    have hle' := Int.le_ceil q
    rw [abs_of_nonneg hle, abs_of_nonneg hpos, abs_of_nonpos (by linarith)]
    linarith

theorem abs_sub_nearest_le (hmode : mode = halfUp ∨ mode = halfDown ∨ mode = halfEven) (q : K) :
    2 * |q - mode.nearest q| ≤ 1 := by
  by_cases h : q = ⌊q⌋
  · rw [nearest_of_whole h, ← h, sub_self, abs_zero, mul_zero]
    exact zero_le_one
  rw [nearest_eq h]
  split
  · next hout =>
    have hge : ¬ 2 * |q| < 2 * |(truncate q : K)| + 1 := by
      intro hlt
      rw [movesOut, compare_lt_iff_lt.2 hlt] at hout
      obtain rfl | rfl | rfl := hmode <;> simp [leavesZero] at hout
    rw [abs_outward h]
    linarith
  · next hin =>
    have hle : ¬ 2 * |(truncate q : K)| + 1 < 2 * |q| := by
      intro hgt
      rw [movesOut, compare_gt_iff_gt.2 hgt] at hin
      obtain rfl | rfl | rfl := hmode <;> simp [leavesZero] at hin
    rw [(abs_truncate q).2]
    linarith

/-- Where both neighbours are equally near, the three modes differ. -/
theorem nearest_tie (htie : 2 * |q| = 2 * |(truncate q : K)| + 1) :
    halfUp.nearest q = outward q ∧ halfDown.nearest q = truncate q ∧ Even (halfEven.nearest q) := by
  have h : q ≠ ⌊q⌋ := by
    intro h
    have hwhole : (truncate q : K) = q := by rw [← nearest_down, nearest_of_whole h, ← h]
    rw [hwhole] at htie
    linarith
  have hceil := ceil_of_ne_floor h
  have hcompare : compare (2 * |q|) (2 * |(truncate q : K)| + 1) = .eq := compare_eq_iff_eq.2 htie
  refine ⟨?_, ?_, ?_⟩
  · rw [nearest_eq h, movesOut, hcompare]
    exact if_pos rfl
  · rw [nearest_eq h, movesOut, hcompare]
    exact if_neg Bool.false_ne_true
  · rw [nearest_eq h, movesOut, hcompare, Int.even_iff]
    simp only [leavesZero, outward, truncate]
    by_cases hneg : q < 0 <;> simp [hneg] <;> split <;> omega

/-! ## Order -/

omit [Field K] [IsStrictOrderedRing K] [FloorRing K] in
theorem leavesZero_mono {negative odd : Bool} {a b c : K} (h : a ≤ b)
    (hleaves : mode.leavesZero negative odd (compare a c) = true) :
    mode.leavesZero negative odd (compare b c) = true := by
  rcases lt_trichotomy a c with ha | ha | ha
  · rw [compare_lt_iff_lt.2 ha] at hleaves
    cases mode <;> simp_all [leavesZero]
  · rw [compare_eq_iff_eq.2 ha] at hleaves
    rcases (ha.symm.trans_le h).eq_or_lt with hb | hb
    · rwa [compare_eq_iff_eq.2 hb.symm]
    · rw [compare_gt_iff_gt.2 hb]
      cases mode <;> simp_all [leavesZero]
  · rw [compare_gt_iff_gt.2 ha] at hleaves
    rwa [compare_gt_iff_gt.2 (ha.trans_le h)]

/-- Between two neighbouring integers, the mode moves the greater number up if it moves the smaller
one up. -/
theorem nearest_mono_of_floor_eq (h : q ≤ r) (hq : q ≠ ⌊q⌋) (hr : r ≠ ⌊r⌋) (hfloor : ⌊q⌋ = ⌊r⌋) :
    mode.nearest q ≤ mode.nearest r := by
  have hceilq := ceil_of_ne_floor hq
  have hceilr := ceil_of_ne_floor hr
  have hneg : q < 0 ↔ r < 0 := by rw [← Int.floor_lt_zero, hfloor, Int.floor_lt_zero]
  have hcut : truncate q = truncate r := by
    unfold truncate
    simp only [hneg]
    split <;> omega
  rw [nearest_eq hq, nearest_eq hr]
  -- outward is downward for negative numbers, so there the two moves change places
  by_cases hr0 : r < 0
  · have hq0 := hneg.2 hr0
    have hmoves : mode.movesOut r = true → mode.movesOut q = true := by
      unfold movesOut
      simp only [hneg, hcut]
      refine leavesZero_mono ?_
      rw [abs_of_neg hq0, abs_of_neg hr0]
      linarith
    rw [← hcut]
    unfold outward truncate
    simp only [hq0, hr0, if_true]
    split <;> split <;> first | omega | simp_all
  · have hq0 := mt hneg.1 hr0
    have hmoves : mode.movesOut q = true → mode.movesOut r = true := by
      unfold movesOut
      simp only [hneg, hcut]
      refine leavesZero_mono ?_
      rw [abs_of_nonneg (not_lt.1 hq0), abs_of_nonneg (not_lt.1 hr0)]
      linarith
    rw [← hcut]
    unfold outward truncate
    simp only [hq0, hr0, if_false]
    split <;> split <;> first | omega | simp_all

theorem nearest_mono (h : q ≤ r) : mode.nearest q ≤ mode.nearest r := by
  by_cases hq : q = ⌊q⌋
  · rw [nearest_of_whole hq]
    exact le_nearest mode (hq.symm.trans_le h)
  by_cases hr : r = ⌊r⌋
  · rw [nearest_of_whole hr]
    exact nearest_le mode (h.trans_eq hr)
  obtain hfloor | hfloor := (Int.floor_mono h).eq_or_lt
  · exact nearest_mono_of_floor_eq h hq hr hfloor
  · have hup : mode.nearest q ≤ ⌊q⌋ + 1 := by
      refine nearest_le mode ?_
      push_cast
      exact (Int.lt_floor_add_one q).le
    exact hup.trans (Int.add_one_le_iff.2 hfloor |>.trans (le_nearest mode (Int.floor_le r)))

omit [LinearOrder K] [IsStrictOrderedRing K] [FloorRing K] in
theorem short_zero : Short digits (0 : K) := ⟨0, 0, by simp, by simp⟩

omit [LinearOrder K] [IsStrictOrderedRing K] [FloorRing K] in
theorem short_pow (hdigits : 0 < digits) (k : Int) : Short digits ((10 : K) ^ k) :=
  ⟨1, k, by simp, by simpa using one_lt_pow₀ (by decide : (1 : Int) < 10) hdigits.ne'⟩

omit [LinearOrder K] [IsStrictOrderedRing K] [FloorRing K] in
theorem Short.neg (h : Short digits q) : Short digits (-q) := by
  obtain ⟨n, k, rfl, hn⟩ := h
  exact ⟨-n, k, by push_cast; ring, by rwa [abs_neg]⟩

omit [LinearOrder K] [IsStrictOrderedRing K] [FloorRing K] in
theorem Short.mono {more : Nat} (h : Short digits q) (hle : digits ≤ more) : Short more q := by
  obtain ⟨n, k, hq, hn⟩ := h
  exact ⟨n, k, hq, hn.trans_le (pow_le_pow_right₀ (by decide) hle)⟩

/-- No rounding passes a short number in size. -/
theorem Short.abs_significant_le {s : K} (hs : Short digits s) (hdigits : 0 < digits)
    (h : |q| ≤ s) : |mode.significant digits q| ≤ s :=
  abs_le.2 ⟨hs.neg.le_significant hdigits (abs_le.1 h).1, hs.significant_le hdigits (abs_le.1 h).2⟩

theorem Short.le_abs_significant {s : K} (hs : Short digits s) (hdigits : 0 < digits)
    (h : s ≤ |q|) : s ≤ |mode.significant digits q| := by
  obtain h | h := le_abs.1 h
  · exact (hs.le_significant hdigits h).trans (le_abs_self _)
  · have hneg : mode.significant digits q ≤ -s :=
      hs.neg.significant_le hdigits (le_neg_of_le_neg h)
    exact (le_neg_of_le_neg hneg).trans (neg_le_abs _)

omit [LinearOrder K] [IsStrictOrderedRing K] [FloorRing K] in
/-- A number of one digit is short for every precision. -/
theorem short_of_digit (hdigits : 0 < digits) {n k : Int} (hn : |n| < 10) (h : q = n * 10 ^ k) :
    Short digits q :=
  ⟨n, k, h, hn.trans_le (le_self_pow₀ (by decide) hdigits.ne')⟩

/-- The number next to one is short. -/
theorem short_next_to_one (hdigits : 0 < digits) :
    Short digits (1 + 10 ^ (1 - digits : Int) : ℚ) := by
  refine ⟨10 ^ (digits - 1) + 1, 1 - digits, ?_, ?_⟩
  · rw [Int.cast_add, Int.cast_pow, Int.cast_one, add_mul, one_mul, ← zpow_natCast, Int.cast_ofNat,
      ← zpow_add₀ (by norm_num), Nat.cast_sub (show 1 ≤ digits by omega)]
    norm_num
  · obtain ⟨k, rfl⟩ := Nat.exists_eq_succ_of_ne_zero hdigits.ne'
    have hpos : (0 : Int) < 10 ^ k := by positivity
    rw [abs_of_pos (by positivity), Nat.succ_sub_one, pow_succ]
    omega

omit [LinearOrder K] [IsStrictOrderedRing K] [FloorRing K] in
theorem Short.cast [CharZero K] {q : ℚ} (h : Short digits q) : Short digits (q : K) := by
  obtain ⟨n, k, rfl, hn⟩ := h
  exact ⟨n, k, by push_cast; rfl, hn⟩

theorem significant_mono_of_unit_eq (h : q ≤ r) (hunit : unit digits q = unit digits r) :
    mode.significant digits q ≤ mode.significant digits r := by
  have hpos := unit_pos digits r
  unfold significant
  rw [hunit]
  refine mul_le_mul_of_nonneg_right ?_ hpos.le
  exact_mod_cast nearest_mono (div_le_div_of_nonneg_right h hpos.le)

/-- A short number between two others keeps them in order when they are rounded. -/
theorem Short.significant_le_significant {s : K} (hs : Short digits s) (hdigits : 0 < digits)
    (hq : q ≤ s) (hr : s ≤ r) : mode.significant digits q ≤ mode.significant digits r :=
  (hs.significant_le hdigits hq).trans (hs.le_significant hdigits hr)

/-- Rounding to significant digits keeps the order of numbers. -/
theorem significant_mono (hdigits : 0 < digits) (h : q ≤ r) :
    mode.significant digits q ≤ mode.significant digits r := by
  obtain hq | hq := le_or_gt q 0
  · obtain hr | hr := le_or_gt 0 r
    · exact short_zero.significant_le_significant hdigits hq hr
    -- Of two negative numbers the smaller one has the greater exponent.
    have hqneg := h.trans_lt hr
    obtain hlog | hlog := (Int.log_mono_right (b := 10) (abs_pos.2 hr.ne)
      (by rw [abs_of_neg hr, abs_of_neg hqneg]; linarith : |r| ≤ |q|)).eq_or_lt
    · exact significant_mono_of_unit_eq h (by rw [unit, unit, hlog])
    · have hlt := (lt_pow_iff_log_lt hr.ne).2 hlog
      have hle := pow_log_le hqneg.ne
      generalize Int.log 10 |q| = e at *
      rw [abs_of_neg hr] at hlt
      rw [abs_of_neg hqneg] at hle
      have hq' : q ≤ -(10 : K) ^ e := by linarith
      have hr' : -(10 : K) ^ e ≤ r := by linarith
      exact (short_pow hdigits e).neg.significant_le_significant hdigits hq' hr'
  · have hr := hq.trans_le h
    obtain hlog | hlog := (Int.log_mono_right (b := 10) (abs_pos.2 hq.ne')
      (by rwa [abs_of_pos hr, abs_of_pos hq] : |q| ≤ |r|)).eq_or_lt
    · exact significant_mono_of_unit_eq h (by rw [unit, unit, hlog])
    · have hlt := (lt_pow_iff_log_lt hq.ne').2 hlog
      have hle := pow_log_le hr.ne'
      generalize Int.log 10 |r| = e at *
      rw [abs_of_pos hq] at hlt
      rw [abs_of_pos hr] at hle
      exact (short_pow hdigits e).significant_le_significant hdigits hlt.le hle

/-! ## Results -/

omit [FloorRing K] in
/-- A carry into one more digit leaves nothing but zeros behind it. -/
theorem short_of_abs_le (hdigits : 0 < digits) {n : Int} (hn : |n| ≤ 10 ^ digits) (k : Int) :
    Short digits ((n : K) * 10 ^ k) := by
  obtain hlt | heq := hn.lt_or_eq
  · exact ⟨n, k, rfl, hlt⟩
  have hpow : Short digits (((10 ^ digits : Int) : K) * 10 ^ k) := by
    rw [Int.cast_pow, Int.cast_ofNat, ← zpow_natCast, ← zpow_add₀ (by norm_num)]
    exact short_pow hdigits _
  obtain rfl | rfl := (abs_eq (by positivity)).1 heq
  · exact hpow
  · rw [Int.cast_neg, neg_mul]
    exact hpow.neg

theorem abs_div_unit_le (digits : Nat) (q : K) :
    |q / unit digits q| ≤ ((10 ^ digits : Int) : K) := by
  obtain rfl | hq := eq_or_ne q 0
  · simp
  have hunit := unit_pos digits q
  have hlt : |q| < 10 ^ (Int.log 10 |q| + 1) := (lt_pow_iff_log_lt hq).2 (lt_add_one _)
  rw [pow_eq_mul (show Int.log 10 |q| + 1 - digits ≤ Int.log 10 |q| + 1 by omega),
    show (Int.log 10 |q| + 1 - (Int.log 10 |q| + 1 - digits)).toNat = digits by omega] at hlt
  rw [abs_div, abs_of_pos hunit, div_le_iff₀ hunit]
  exact_mod_cast hlt.le

/-- What comes out has no more digits than are kept. -/
theorem short_significant (hdigits : 0 < digits) (q : K) :
    Short digits (mode.significant digits q) := by
  have hsize := abs_le.1 (abs_div_unit_le digits q)
  refine short_of_abs_le hdigits (abs_le.2 ⟨?_, ?_⟩) _
  · exact le_nearest mode (by exact_mod_cast hsize.1)
  · exact nearest_le mode hsize.2

/-! ## Distances -/

theorem abs_nearest_sub_le (q : K) : |(mode.nearest q : K) - q| ≤ 1 := by
  have hfloor := Int.floor_le q
  have hceil := Int.le_ceil q
  have hfloor' := (Int.sub_one_lt_floor q).le
  have hceil' := (Int.ceil_lt_add_one q).le
  have hcases : mode.nearest q = ⌊q⌋ ∨ mode.nearest q = ⌈q⌉ :=
    nearest_eq_floor_or_ceil mode q
  obtain h | h := hcases <;> rw [h, abs_le] <;> constructor <;> linarith

/-- Rounding to significant digits changes a number by no more than a unit of its last digit. -/
theorem abs_significant_sub_le_unit (q : K) : |mode.significant digits q - q| ≤ unit digits q := by
  have hpos := unit_pos digits q
  have hsplit : mode.significant digits q - q =
      ((mode.nearest (q / unit digits q) : K) - q / unit digits q) * unit digits q := by
    rw [significant, sub_mul, div_mul_cancel₀ _ hpos.ne']
  rw [hsplit, abs_mul, abs_of_pos hpos]
  exact mul_le_of_le_one_left hpos.le (abs_nearest_sub_le _)

theorem abs_significant_sub_le (q : K) :
    |mode.significant digits q - q| ≤ |q| * 10 ^ (1 - digits : Int) := by
  obtain rfl | hq := eq_or_ne q 0
  · simp [significant_zero]
  refine (abs_significant_sub_le_unit q).trans ?_
  rw [unit, add_sub_assoc, zpow_add₀ (by norm_num)]
  exact mul_le_mul_of_nonneg_right (pow_log_le hq) (by positivity)

end Reckoner.Rounding
