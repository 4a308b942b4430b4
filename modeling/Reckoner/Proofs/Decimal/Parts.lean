import Reckoner.Proofs.Decimal.Stripping

/-!
# Whole part and fraction

A number with digits behind the point is its whole part and its fraction, and nothing of either is
lost when the trailing zeros of the fraction go. The fraction then has a digit behind the point.
-/

namespace Reckoner.Decimal

open Integer

variable {x : Decimal} {u s : Nat}

/-! ## Trailing zeros -/

theorem canonical_zeros (h : x.unscaled ≠ 0) :
    ∃ zeros : Nat, x.unscaled = x.canonical.unscaled * 10 ^ zeros ∧
      x.canonical.scale = x.scale - zeros := by
  obtain ⟨zeros, hu, hscale, -⟩ := strip_zeros h le_rfl
  exact ⟨zeros, hu, hscale⟩

/-! ## Parts -/

/-- The whole part in front of the point, and the digits behind it at the own scale. -/
theorem wholePart_fractionPart (hu : x.unscaled = u) (hs : x.scale = s) (hpos : 0 < s) :
    ∃ a b : Nat, u = a * 10 ^ s + b ∧ b < 10 ^ s ∧ x.wholePart.unscaled = a ∧
      x.wholePart.scale = 0 ∧ x.fractionPart.unscaled = b ∧ x.fractionPart.scale = s := by
  have hscale : ¬ x.scale ≤ 0 := by omega
  have hplaces : x.scale.natAbs = s := by omega
  unfold wholePart fractionPart
  rw [if_neg hscale, if_neg hscale]
  by_cases hbelow : x.isBelowUnit
  · rw [if_pos hbelow, if_pos hbelow]
    refine ⟨0, u, by simp, ?_, rfl, rfl, hu, hs⟩
    have hdigits : x.digitCount + 1 ≤ s := by simpa [isBelowUnit, hplaces] using hbelow
    have hlt : u < 10 ^ x.digitCount := by
      rw [digitCount, hu]
      exact lt_pow10_digitCount u
    exact hlt.trans_le (Nat.pow_le_pow_right (by decide) (by omega))
  · rw [if_neg hbelow, if_neg hbelow]
    simp only [hu, hplaces]
    refine ⟨u / 10 ^ s, u % 10 ^ s, (Nat.div_add_mod' u _).symm, Nat.mod_lt _ (by positivity),
      ?_, rfl, ?_, hs⟩
    · exact (Int.ofNat_tdiv u (10 ^ s)).symm
    · exact (Int.ofNat_tmod u (10 ^ s)).symm

/-- Fewer trailing zeros are gone than there are places, and a positive number is left. -/
theorem exists_without_zeros {b s zeros : Nat} {n : Int} (hb : b ≠ 0) (hlt : b < 10 ^ s)
    (h : (b : Int) = n * 10 ^ zeros) : ∃ m : Nat, n = m ∧ m ≠ 0 ∧ b = m * 10 ^ zeros ∧ zeros < s := by
  have hn : 0 < n := by
    by_contra hneg
    have hle : n * 10 ^ zeros ≤ 0 := mul_nonpos_of_nonpos_of_nonneg (by omega) (by positivity)
    omega
  lift n to Nat using hn.le
  have hstrip : b = n * 10 ^ zeros := by exact_mod_cast h
  refine ⟨n, rfl, by omega, hstrip, ?_⟩
  refine (Nat.pow_lt_pow_iff_right (by decide : 1 < 10)).1 (lt_of_le_of_lt ?_ hlt)
  rw [hstrip]
  exact Nat.le_mul_of_pos_left _ (by omega)

/-- A number with digits behind the point is either whole or has a last place, where its digits
end once the trailing zeros are gone. -/
theorem whole_or_last_place (hu : x.unscaled = u) (hs : x.scale = s) (hpos : 0 < s) :
    ∃ a : Nat, x.wholePart.unscaled = a ∧ x.wholePart.scale = 0 ∧
      (x.fractionPart.canonical.isZero ∧ u = a * 10 ^ s ∨
        ∃ numerator places zeros : Nat, numerator ≠ 0 ∧ 0 < places ∧ places + zeros = s ∧
          x.fractionPart.canonical.unscaled = numerator ∧
          x.fractionPart.canonical.scale = places ∧
          u = (a * 10 ^ places + numerator) * 10 ^ zeros) := by
  rcases wholePart_fractionPart hu hs hpos with ⟨a, b, hsplit, hb, ha, hascale, hfraction, hfscale⟩
  refine ⟨a, ha, hascale, ?_⟩
  by_cases hzero : b = 0
  · left
    have hf : x.fractionPart.isZero := by simp [isZero, hfraction, hzero]
    refine ⟨?_, by omega⟩
    unfold canonical strip
    rw [if_pos hf]
    rfl
  · right
    have hf : x.fractionPart.unscaled ≠ 0 := by rw [hfraction]; exact_mod_cast hzero
    rcases canonical_zeros hf with ⟨zeros, hstrip, hscale⟩
    rw [hfraction] at hstrip
    rw [hfscale] at hscale
    generalize x.fractionPart.canonical.unscaled = n at *
    obtain ⟨m, rfl, hm, hb', hzeros⟩ := exists_without_zeros hzero hb hstrip
    refine ⟨m, s - zeros, zeros, hm, by omega, by omega, rfl, by omega, ?_⟩
    rw [add_mul, mul_assoc, ← pow_add, Nat.sub_add_cancel hzeros.le, ← hb']
    exact hsplit

end Reckoner.Decimal
