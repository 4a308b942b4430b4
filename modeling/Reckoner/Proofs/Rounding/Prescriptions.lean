import Reckoner.Proofs.Rounding.Modes

/-!
# What the modes of rounding prescribe

What the name of a mode asks for can be said by comparing with all integers, without the steps that
find the answer: the least integer that is not below, the greatest that is not above, or one that no
other is nearer than, with a rule for two that are equally near. Exactly one integer is so
prescribed, and it is the one that rounding goes to.
-/

namespace Reckoner.Rounding

variable {K : Type*} [Field K] [LinearOrder K] [IsStrictOrderedRing K] [FloorRing K]
  {mode : Rounding} {q : K} {n m : Int}

/-- No integer is nearer. -/
def Closest (q : K) (n : Int) : Prop := ∀ m : Int, |q - n| ≤ |q - m|

/-- The integer that a mode asks for. -/
def Prescribes (mode : Rounding) (q : K) (n : Int) : Prop :=
  let least := IsLeast {m : Int | q ≤ m} n
  let greatest := IsGreatest {m : Int | (m : K) ≤ q} n
  match mode with
  | up => (0 ≤ q → least) ∧ (q ≤ 0 → greatest)
  | down => (0 ≤ q → greatest) ∧ (q ≤ 0 → least)
  | ceiling => least
  | floor => greatest
  | halfUp => Closest q n ∧ ∀ m, Closest q m → |m| ≤ |n|
  | halfDown => Closest q n ∧ ∀ m, Closest q m → |n| ≤ |m|
  | halfEven => Closest q n ∧ ∀ m, Closest q m → m ≠ n → Even n

/-! ## The directed modes -/

omit [IsStrictOrderedRing K] in
theorem isLeast_iff : IsLeast {m : Int | q ≤ m} n ↔ n = ⌈q⌉ :=
  Int.gc_ceil_coe.isLeast_l.isLeast_iff_eq.trans eq_comm

omit [IsStrictOrderedRing K] in
theorem isGreatest_iff : IsGreatest {m : Int | (m : K) ≤ q} n ↔ n = ⌊q⌋ :=
  Int.gc_coe_floor.isGreatest_u.isGreatest_iff_eq.trans eq_comm

theorem eq_truncate_iff : (0 ≤ q → n = ⌊q⌋) ∧ (q ≤ 0 → n = ⌈q⌉) ↔ n = truncate q := by
  unfold truncate
  rcases lt_trichotomy q 0 with hneg | rfl | hpos
  · simp [hneg, hneg.le, hneg.not_ge]
  · simp
  · simp [hpos.not_gt, hpos.le, hpos.not_ge]

theorem eq_outward_iff : (0 ≤ q → n = ⌈q⌉) ∧ (q ≤ 0 → n = ⌊q⌋) ↔ n = outward q := by
  unfold outward
  rcases lt_trichotomy q 0 with hneg | rfl | hpos
  · simp [hneg, hneg.le, hneg.not_ge]
  · simp
  · simp [hpos.not_gt, hpos.le, hpos.not_ge]

/-! ## The modes that go to the nearest integer -/

theorem closest_iff : Closest q n ↔ 2 * |q - n| ≤ 1 := by
  constructor
  · intro h
    have hnear : 2 * |q - halfUp.nearest q| ≤ 1 := abs_sub_nearest_le (.inl rfl) q
    linarith [h (halfUp.nearest q)]
  · intro h m
    obtain rfl | hne := eq_or_ne m n
    · exact le_rfl
    have hapart : (1 : K) ≤ |(n : K) - m| := by
      exact_mod_cast Int.one_le_abs (sub_ne_zero.2 hne.symm)
    have htriangle := abs_sub_le (n : K) q m
    rw [abs_sub_comm (n : K) q] at htriangle
    linarith

omit [IsStrictOrderedRing K] in
theorem outward_adjacent (h : q ≠ ⌊q⌋) : |outward q| = |truncate q| + 1 ∧
    (outward q = truncate q + 1 ∨ outward q = truncate q - 1) := by
  have hceil := ceil_of_ne_floor h
  unfold outward truncate
  split
  · next hneg =>
    have hle : ⌈q⌉ ≤ 0 := Int.ceil_le.2 (by simpa using hneg.le)
    rw [abs_of_nonpos hle, abs_of_nonpos (by omega)]
    omega
  · next hpos =>
    have hle : 0 ≤ ⌊q⌋ := Int.floor_nonneg.2 (not_lt.1 hpos)
    rw [abs_of_nonneg hle, abs_of_nonneg (by omega)]
    omega

theorem Closest.neighbour (h : Closest q n) (hq : q ≠ ⌊q⌋) : n = truncate q ∨ n = outward q := by
  rw [closest_iff] at h
  have hbounds := abs_le.1 (show |q - n| ≤ 1 / 2 by linarith)
  have hfloor : n - 1 ≤ ⌊q⌋ := Int.le_floor.2 (by push_cast; linarith)
  have hceil : ⌈q⌉ ≤ n + 1 := Int.ceil_le.2 (by push_cast; linarith)
  rw [ceil_of_ne_floor hq] at hceil
  unfold truncate outward
  rw [ceil_of_ne_floor hq]
  split <;> omega

theorem closest_of_whole (h : q = ⌊q⌋) : Closest q n ↔ n = ⌊q⌋ := by
  rw [closest_iff, h, Int.floor_intCast]
  norm_cast
  rw [← sub_eq_zero, abs_sub_comm, ← Int.abs_lt_one_iff]
  omega

/-- One integer is nearest, or both neighbours are equally near. -/
theorem closest_single_or_tie (q : K) : (∃ c : Int, ∀ n, Closest q n ↔ n = c) ∨
    q ≠ ⌊q⌋ ∧ 2 * |q| = 2 * |(truncate q : K)| + 1 ∧
      ∀ n, Closest q n ↔ n = truncate q ∨ n = outward q := by
  by_cases hq : q = ⌊q⌋
  · exact .inl ⟨⌊q⌋, fun n => closest_of_whole hq⟩
  have hcut : Closest q (truncate q) ↔ 2 * |q| ≤ 2 * |(truncate q : K)| + 1 := by
    rw [closest_iff, (abs_truncate q).2]
    constructor <;> intro h <;> linarith
  have hout : Closest q (outward q) ↔ 2 * |(truncate q : K)| + 1 ≤ 2 * |q| := by
    rw [closest_iff, abs_outward hq]
    constructor <;> intro h <;> linarith
  -- the two neighbours are candidates, and the middle between them decides
  rcases lt_trichotomy (2 * |q|) (2 * |(truncate q : K)| + 1) with hlt | heq | hgt
  · refine .inl ⟨truncate q, fun n => ⟨fun h => ?_, ?_⟩⟩
    · exact (h.neighbour hq).resolve_right (by rintro rfl; exact hlt.not_ge (hout.1 h))
    · rintro rfl
      exact hcut.2 hlt.le
  · refine .inr ⟨hq, heq, fun n => ⟨fun h => h.neighbour hq, ?_⟩⟩
    rintro (rfl | rfl)
    · exact hcut.2 heq.le
    · exact hout.2 heq.ge
  · refine .inl ⟨outward q, fun n => ⟨fun h => ?_, ?_⟩⟩
    · exact (h.neighbour hq).resolve_left (by rintro rfl; exact hgt.not_ge (hcut.1 h))
    · rintro rfl
      exact hout.2 hgt.le

/-- A rule for two that are equally near does not matter where one is nearest. -/
theorem prescribes_of_single (hmode : mode = halfUp ∨ mode = halfDown ∨ mode = halfEven) {c : Int}
    (hc : ∀ n, Closest q n ↔ n = c) : mode.Prescribes q n ↔ n = mode.nearest q := by
  have hnearest : mode.nearest q = c := (hc _).1 (closest_iff.2 (abs_sub_nearest_le hmode q))
  rw [hnearest]
  obtain rfl | rfl | rfl := hmode <;> unfold Prescribes <;> simp only [hc]
  · exact ⟨And.left, by rintro rfl; exact ⟨rfl, by rintro m rfl; exact le_rfl⟩⟩
  · exact ⟨And.left, by rintro rfl; exact ⟨rfl, by rintro m rfl; exact le_rfl⟩⟩
  · exact ⟨And.left, by rintro rfl; exact ⟨rfl, fun m hm hne => absurd hm hne⟩⟩

section Ties

variable (hq : q ≠ ⌊q⌋) (hc : ∀ n, Closest q n ↔ n = truncate q ∨ n = outward q)
include hq hc
omit [IsStrictOrderedRing K]

theorem prescribes_halfUp_of_tie : halfUp.Prescribes q n ↔ n = outward q := by
  obtain ⟨hsize, -⟩ := outward_adjacent hq
  unfold Prescribes
  simp only [hc]
  constructor
  · rintro ⟨rfl | rfl, hbound⟩
    · exact absurd (hbound _ (.inr rfl)) (by omega)
    · rfl
  · rintro rfl
    refine ⟨.inr rfl, ?_⟩
    rintro m (rfl | rfl)
    · omega
    · exact le_rfl

theorem prescribes_halfDown_of_tie : halfDown.Prescribes q n ↔ n = truncate q := by
  obtain ⟨hsize, -⟩ := outward_adjacent hq
  unfold Prescribes
  simp only [hc]
  constructor
  · rintro ⟨rfl | rfl, hbound⟩
    · rfl
    · exact absurd (hbound _ (.inl rfl)) (by omega)
  · rintro rfl
    refine ⟨.inl rfl, ?_⟩
    rintro m (rfl | rfl)
    · exact le_rfl
    · omega

/-- Of two neighbouring integers only one is even. -/
theorem prescribes_halfEven_of_tie {r : Int} (hr : Closest q r) (heven : Even r) :
    halfEven.Prescribes q n ↔ n = r := by
  obtain ⟨-, hadjacent⟩ := outward_adjacent hq
  rw [Int.even_iff] at heven
  unfold Prescribes
  simp only [hc, Int.even_iff] at hr ⊢
  constructor
  · rintro ⟨hn, hrule⟩
    by_contra hne
    have hodd := hrule r hr (Ne.symm hne)
    omega
  · rintro rfl
    exact ⟨hr, fun m _ _ => heven⟩

end Ties

/-- Exactly one integer is prescribed, and numbers are rounded to it. -/
theorem prescribes_iff (mode : Rounding) (q : K) (n : Int) :
    mode.Prescribes q n ↔ n = mode.nearest q := by
  cases mode with
  | up =>
    rw [nearest_up, ← eq_outward_iff, ← isLeast_iff, ← isGreatest_iff]
    rfl
  | down =>
    rw [nearest_down, ← eq_truncate_iff, ← isLeast_iff, ← isGreatest_iff]
    rfl
  | ceiling =>
    rw [nearest_ceiling, ← isLeast_iff]
    rfl
  | floor =>
    rw [nearest_floor, ← isGreatest_iff]
    rfl
  | halfUp =>
    obtain ⟨c, hc⟩ | ⟨hq, htie, hc⟩ := closest_single_or_tie q
    · exact prescribes_of_single (by decide) hc
    · rw [prescribes_halfUp_of_tie hq hc, (nearest_tie htie).1]
  | halfDown =>
    obtain ⟨c, hc⟩ | ⟨hq, htie, hc⟩ := closest_single_or_tie q
    · exact prescribes_of_single (by decide) hc
    · rw [prescribes_halfDown_of_tie hq hc, (nearest_tie htie).2.1]
  | halfEven =>
    have hnear := closest_iff.2 (abs_sub_nearest_le (.inr (.inr rfl)) q)
    obtain ⟨c, hc⟩ | ⟨hq, htie, hc⟩ := closest_single_or_tie q
    · exact prescribes_of_single (by decide) hc
    · exact prescribes_halfEven_of_tie hq hc hnear (nearest_tie htie).2.2

end Reckoner.Rounding
