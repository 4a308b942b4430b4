import Reckoner.Proofs.Decimal.Whole
import Reckoner.Proofs.Numeral.Totals

/-!
# Groups of a whole number

The groups that are taken off a whole number, from the greatest power of a thousand on, are its
digits in base one thousand. So the names of a whole number add that number to any total.
-/

namespace Reckoner.Numeral

open Decimal Integer

/-! ## Digits and zeros -/

theorem digitCount_mono {a b : Nat} (h : a ≤ b) :
    Integer.digitCount a ≤ Integer.digitCount b :=
  (digitCount_le_iff (digitCount_pos b)).2 (h.trans_lt (lt_pow10_digitCount b))

/-- A whole number given by its first digits and the number of zeros behind them. -/
structure Padded (x : Decimal) (digits zeros : Nat) : Prop where
  unscaled : x.unscaled = digits
  scale : x.scale = -(zeros : Int)

variable {x : Decimal} {u j : Nat}

theorem Padded.totals (h : Padded x u j) : Totals x (u * 10 ^ j) := by
  constructor
  · rw [toRat, h.unscaled, h.scale, neg_neg, zpow_natCast]
    norm_cast
  · rw [h.scale]
    omega

theorem Padded.least_le (h : Padded x u j) : Word.least ≤ -(j : Int) := by
  rw [← h.scale]
  exact x.scale_fits.1

theorem Padded.digitCount (h : Padded x u j) : x.digitCount = Integer.digitCount u := by
  rw [Decimal.digitCount, h.unscaled, Int.natAbs_natCast]

theorem Padded.exponent (h : Padded x u j) (hu : u ≠ 0) :
    x.exponent = min (Integer.digitCount u - 1 + j : Int) Word.greatest := by
  have hx : x.unscaled ≠ 0 := by rw [h.unscaled]; exact_mod_cast hu
  rw [exponent_eq_min hx, h.digitCount, h.scale, sub_neg_eq_add]

theorem exponent_vocabularyLimit : (ofNat vocabularyLimit).exponent = 9 := by
  have hcount : (ofNat vocabularyLimit).digitCount = 10 := digitCount_pow 9
  rw [Decimal.exponent, if_neg (by decide), hcount]
  decide

/-- The vocabulary is left when the number has ten digits or more. -/
theorem Padded.vocabularyLimit_le_iff (h : Padded x u j) :
    ofNat vocabularyLimit ≤ x ↔ u ≠ 0 ∧ 9 < Integer.digitCount u + j := by
  change (compareValue (ofNat vocabularyLimit) x).isLE ↔ _
  have hsign : (ofNat vocabularyLimit).sign = 1 := rfl
  by_cases hu : u = 0
  · have hzero : x.sign = 0 := by rw [Decimal.sign, h.unscaled, hu]; rfl
    rw [compareValue, hsign, hzero]
    simpa [hu] using (by decide : compare (1 : Int) 0 = .gt)
  have hone : x.sign = 1 := by
    rw [Decimal.sign, h.unscaled]
    exact Int.sign_eq_one_of_pos (by omega)
  have hexponent := h.exponent hu
  have hpos := digitCount_pos u
  have hcount : 9 < Integer.digitCount u + j ↔ 10 ^ 9 ≤ u * 10 ^ j := by
    rw [← digitCount_mul_pow hu, lt_digitCount_iff (by decide)]
  rw [compareValue, hsign, hone, exponent_vocabularyLimit]
  simp only [ne_eq, not_true_eq_false, if_false, one_ne_zero, hu, not_false_eq_true, true_and,
    zero_lt_one, if_true, ite_not]
  split
  · next heq =>
    -- both exponents are nine: the numbers themselves are compared
    have hscale : max (ofNat vocabularyLimit).scale x.scale = 0 := by
      rw [h.scale]
      exact max_eq_left (by change -(j : Int) ≤ 0; omega)
    have hlimit : (ofNat vocabularyLimit).integerAt 0 = ((10 ^ 9 : Nat) : Int) := by decide
    have hx : x.integerAt 0 = ((u * 10 ^ j : Nat) : Int) := by
      rw [integerAt, h.unscaled, h.scale, zero_sub, neg_neg, Int.natAbs_natCast, Nat.cast_mul]
      rfl
    rw [hscale, hlimit, hx, Int.isLE_compare, hcount, Int.ofNat_le]
  · next hne =>
    rw [Int.isLE_compare, hexponent] at *
    unfold Word.greatest at *
    omega

/-! ## Quotient and rest -/

variable {n : Nat}

theorem pow_dvd_mod (h : 10 ^ j ∣ n) (e : Nat) : 10 ^ j ∣ n % 10 ^ e := by
  obtain hje | hej := le_total j e
  · exact (Nat.dvd_mod_iff (pow_dvd_pow 10 hje)).2 h
  · rw [Nat.mod_eq_zero_of_dvd ((pow_dvd_pow 10 hej).trans h)]
    exact dvd_zero _

/-- The group of a power, in front of names for what it leaves. -/
theorem Adds.quotient {names : List String} {index : Nat}
    (h : Adds names (n % 10 ^ ((index + 1) * 3)) j) (hle : 10 ^ ((index + 1) * 3) ≤ n)
    (hlt : n < 10 ^ ((index + 1) * 3 + 3)) (hfits : Word.Fits ((index + 1) * 3))
    (hdvd : 10 ^ j ∣ n) (hj : Word.least ≤ -(j : Int)) :
    Adds (smallWords (n / 10 ^ ((index + 1) * 3)) ++ powerName index :: names) n j := by
  have hpos : 0 < 10 ^ ((index + 1) * 3) := Nat.pow_pos (by decide)
  have hcount : n / 10 ^ ((index + 1) * 3) ≠ 0 := (Nat.div_pos hle hpos).ne'
  have hsmall : n / 10 ^ ((index + 1) * 3) < 1000 := by
    refine Nat.div_lt_of_lt_mul ?_
    rwa [pow_add] at hlt
  have hsplit := Nat.div_add_mod' n (10 ^ ((index + 1) * 3))
  have hgroup : 10 ^ j ∣ n / 10 ^ ((index + 1) * 3) * 10 ^ ((index + 1) * 3) := by
    rw [← hsplit] at hdvd
    exact (Nat.dvd_add_left (pow_dvd_mod (hsplit ▸ hdvd) _)).1 hdvd
  have hadds := h.group hcount hsmall hfits hgroup hj
  rwa [hsplit] at hadds

theorem adds_smallWords_of_lt (h : n < 10 ^ 9) (hdvd : 10 ^ j ∣ n)
    (hj : Word.least ≤ -(j : Int)) : Adds (smallWords n) n j := by
  have hthousands {n : Nat} (h : n < 10 ^ 6) (hdvd : 10 ^ j ∣ n) : Adds (smallWords n) n j := by
    by_cases hsmall : n < 1000
    · exact adds_smallWords hsmall
    have hgreatest : greatestUpTo? n = some ⟨powerName 0, 1000⟩ := by
      have hmillion : ¬ 1000000 ≤ n := by omega
      simp [greatestUpTo?, vocabulary, hmillion, not_lt.1 hsmall, powerName]
    have hrest : Adds (smallWords (n % 10 ^ ((0 + 1) * 3))) (n % 10 ^ ((0 + 1) * 3)) j :=
      adds_smallWords (Nat.mod_lt _ (by decide))
    rw [smallWords_great hgreatest (by decide)]
    exact hrest.quotient (not_lt.1 hsmall) h (by decide) hdvd hj
  by_cases hsmall : n < 1000000
  · exact hthousands hsmall hdvd
  have hgreatest : greatestUpTo? n = some ⟨powerName 1, 1000000⟩ := by
    simp [greatestUpTo?, vocabulary, not_lt.1 hsmall, powerName_one]
  have hrest : Adds (smallWords (n % 10 ^ ((1 + 1) * 3))) (n % 10 ^ ((1 + 1) * 3)) j :=
    hthousands (Nat.mod_lt _ (by decide)) (pow_dvd_mod hdvd _)
  rw [smallWords_great hgreatest (by decide)]
  exact hrest.quotient (not_lt.1 hsmall) h (by decide) hdvd hj

/-! ## Taking a group off -/

/-- The exponent of the first group; where the exponent of the number stops at the end of the word
range, the group is still the right one. -/
theorem Padded.namedExponent (h : Padded x u j) (hu : u ≠ 0)
    (hlarge : 9 < Integer.digitCount u + j)
    (hsize : (Integer.digitCount u + j : Int) ≤ Word.greatest + 2) :
    ∃ index : Nat, namedExponent x.exponent = ((index + 1) * 3 : Nat) ∧
      (index + 1) * 3 < Integer.digitCount u + j ∧
      Integer.digitCount u + j ≤ (index + 1) * 3 + 3 ∧ Word.Fits ((index + 1) * 3) := by
  refine ⟨(Integer.digitCount u + j - 1) / 3 - 1, ?_⟩
  rw [h.exponent hu, Numeral.namedExponent]
  unfold Word.Fits Word.least Word.greatest at *
  refine ⟨?_, ?_, ?_, ?_⟩
  all_goals omega

theorem Padded.group {e : Nat} (h : Padded x u j) (he : e < Integer.digitCount u + j)
    (hfits : Word.Fits e) :
    Padded (x.movePoint (-e)).wholePart (u / 10 ^ (e - j)) (j - e) := by
  have hmoved : (x.movePoint (-e)).scale = e - j := by
    have hscale : Word.Fits (x.scale - -e) := by
      have := h.least_le
      rw [h.scale]
      unfold Word.Fits at *
      omega
    rw [movePoint, scale_ofScaled, Word.saturate_of_fits hscale, h.scale]
    ring
  have hunscaled : (x.movePoint (-e)).unscaled = u := h.unscaled
  unfold wholePart
  rw [hmoved]
  -- the point comes to stand in the zeros, or it cuts digits off
  by_cases hje : e ≤ j
  · rw [if_pos (by omega)]
    constructor
    · rw [hunscaled, Nat.sub_eq_zero_of_le hje, pow_zero, Nat.div_one]
    · rw [hmoved]
      omega
  · have hlong : (x.movePoint (-e)).isBelowUnit = false := by
      rw [isBelowUnit, decide_eq_false_iff_not, hmoved]
      change ¬ x.digitCount + 1 ≤ _
      rw [h.digitCount]
      omega
    have hplaces : ((e : Int) - j).natAbs = e - j := by omega
    rw [if_neg (by omega), hlong, hunscaled, hplaces]
    constructor
    · exact (Int.ofNat_tdiv u (10 ^ (e - j))).symm
    · change (0 : Int) = _
      omega

theorem Padded.rest {e : Nat} {count : Decimal} (h : Padded x u j)
    (hcount : Padded count (u / 10 ^ (e - j)) (j - e)) (hfits : Word.Fits e) :
    Padded (x - count.movePoint e) (u % 10 ^ (e - j)) j := by
  have hmoved : (count.movePoint e).scale = -(max j e : Nat) := by
    have hscale : Word.Fits (count.scale - e) := by
      have := h.least_le
      rw [hcount.scale]
      unfold Word.Fits Word.least Word.greatest at *
      omega
    rw [movePoint, scale_ofScaled, Word.saturate_of_fits hscale, hcount.scale]
    omega
  have hunscaled : (count.movePoint e).unscaled = (u / 10 ^ (e - j) : Nat) := hcount.unscaled
  -- both operands are aligned at the zeros of the number that is left
  have hscale : max x.scale (count.movePoint e).scale = -(j : Int) := by
    rw [h.scale, hmoved]
    omega
  have hleft : x.integerAt (-j) = u := by
    rw [integerAt, h.unscaled, h.scale, sub_self]
    exact mul_one _
  have hright : (count.movePoint e).integerAt (-j) = (u / 10 ^ (e - j) * 10 ^ (e - j) : Nat) := by
    rw [integerAt, hunscaled, hmoved,
      show (-(j : Int) - -((max j e : Nat) : Int)).natAbs = e - j by omega, Nat.cast_mul]
    rfl
  change Padded (ofScaled _ _) _ _
  rw [hscale, hleft, hright]
  constructor
  · have hsplit := Nat.div_add_mod' u (10 ^ (e - j))
    rw [unscaled_ofScaled]
    omega
  · exact Word.saturate_of_fits (h.scale ▸ x.scale_fits)

/-- A number of few digits is spelled as such. -/
theorem Padded.smallCount (h : Padded x u j) (hu : u ≠ 0) (hsmall : u * 10 ^ j < 10 ^ 9) :
    smallCount x = .ok (u * 10 ^ j) := by
  have hvalue : x.toRat = ((u * 10 ^ j : Nat) : Int) := by
    rw [h.totals.value, Int.cast_natCast]
  have hzero : x.ZeroWithin := by
    refine zeroWithin_of_ne ?_
    rw [h.totals.value, Nat.cast_ne_zero]
    exact mul_ne_zero hu (by positivity)
  have hfits : Word.Fits ((u * 10 ^ j : Nat) : Int) := by
    unfold Word.Fits Word.least Word.greatest
    omega
  rw [Numeral.smallCount, (toWord?_eq_some_iff hzero).2 ⟨hvalue, hfits⟩]

/-! ## Spelling the groups -/

theorem shifted_div (u e j : Nat) : u * 10 ^ j / 10 ^ e = u / 10 ^ (e - j) * 10 ^ (j - e) := by
  obtain hej | hje := le_total e j
  · rw [Nat.sub_eq_zero_of_le hej, pow_zero, Nat.div_one]
    conv_lhs => rw [← Nat.sub_add_cancel hej, pow_add, ← mul_assoc]
    exact Nat.mul_div_cancel _ (by positivity)
  · rw [Nat.sub_eq_zero_of_le hje, pow_zero, mul_one]
    conv_lhs => rw [← Nat.sub_add_cancel hje, pow_add]
    exact Nat.mul_div_mul_right _ _ (by positivity)

theorem shifted_mod (u e j : Nat) : u * 10 ^ j % 10 ^ e = u % 10 ^ (e - j) * 10 ^ j := by
  obtain hej | hje := le_total e j
  · rw [Nat.sub_eq_zero_of_le hej, pow_zero, Nat.mod_one, zero_mul]
    exact Nat.mod_eq_zero_of_dvd ((pow_dvd_pow 10 hej).mul_left _)
  · conv_lhs => rw [← Nat.sub_add_cancel hje, pow_add]
    exact Nat.mul_mod_mul_right _ _ _

theorem yields_nameOfPower {index : Nat} :
    Yields (nameOfPower ((index + 1) * 3 : Nat)) (powerName index) := by
  have hindex : ((((index + 1) * 3 : Nat) : Int) / 3 - 1).toNat = index := by omega
  rw [nameOfPower, if_neg (by omega), hindex]
  exact (gives_nameOf index).lift

theorem yields_groupWords_small {limit : Nat} (h : Padded x u j)
    (hsmall : ¬ (u ≠ 0 ∧ 9 < Integer.digitCount u + j)) :
    ∃ names, Yields (groupWords (limit + 1) x) names ∧ Adds names (u * 10 ^ j) j := by
  refine ⟨smallWords (u * 10 ^ j), ?_⟩
  rw [groupWords, if_neg (h.vocabularyLimit_le_iff.not.2 hsmall)]
  by_cases hu : u = 0
  · have hzero : x.isZero = true := by rw [isZero, h.unscaled, hu]; rfl
    rw [hzero, if_pos rfl, hu, zero_mul]
    exact ⟨by rw [smallWords_zero]; exact yields_pure _, adds_smallWords (by decide)⟩
  · have hnonzero : x.isZero = false := by
      rw [isZero, h.unscaled]
      exact beq_eq_false_iff_ne.2 (by exact_mod_cast hu)
    have hlt : u * 10 ^ j < 10 ^ 9 := by
      rw [← digitCount_le_iff (by decide), digitCount_mul_pow hu]
      omega
    rw [hnonzero, if_neg (by decide), h.smallCount hu hlt]
    refine ⟨yields_ok.bind (yields_pure _), ?_⟩
    exact adds_smallWords_of_lt hlt (Dvd.intro_left u rfl) h.least_le

/-- A whole number is spelled by names that add it to a total. Every group takes a digit off it, so
the limit is not reached. -/
theorem yields_groupWords {limit : Nat} (h : Padded x u j) (hlimit : u < 10 ^ limit)
    (hsize : (Integer.digitCount u + j : Int) ≤ Word.greatest + 2) :
    ∃ names, Yields (groupWords (limit + 1) x) names ∧ Adds names (u * 10 ^ j) j := by
  induction limit generalizing x u with
  | zero =>
    have hu : u = 0 := by omega
    exact yields_groupWords_small h (by simp [hu])
  | succ limit ih =>
    by_cases hlarge : ¬ (u ≠ 0 ∧ 9 < Integer.digitCount u + j)
    · exact yields_groupWords_small h hlarge
    obtain ⟨hu, hlarge⟩ := not_not.1 hlarge
    obtain ⟨index, hexponent, hle, hlt, hfits⟩ := h.namedExponent hu hlarge hsize
    have hcount := h.group hle hfits
    have hrest := h.rest hcount hfits
    generalize he : (index + 1) * 3 = e at *
    -- the digits that are left are fewer
    have hdigits : Integer.digitCount u ≤ limit + 1 := (digitCount_le_iff (by omega)).2 hlimit
    have hfewer : u % 10 ^ (e - j) < 10 ^ limit :=
      (Nat.mod_lt _ (by positivity)).trans_le (Nat.pow_le_pow_right (by decide) (by omega))
    have hmono := digitCount_mono (Nat.mod_le u (10 ^ (e - j)))
    obtain ⟨names, hnames, hadds⟩ := ih hrest hfewer (by omega)
    have hpower : 10 ^ e ≤ u * 10 ^ j := by
      rw [← lt_digitCount_iff (by omega), digitCount_mul_pow hu]
      exact hle
    have hnext : u * 10 ^ j < 10 ^ (e + 3) := by
      rw [← digitCount_le_iff (by omega), digitCount_mul_pow hu]
      exact hlt
    have hquotient : u * 10 ^ j / 10 ^ e ≠ 0 := (Nat.div_pos hpower (by positivity)).ne'
    have hnonzero : u / 10 ^ (e - j) ≠ 0 := by
      intro hzero
      rw [shifted_div, hzero, zero_mul] at hquotient
      exact hquotient rfl
    have hsmall : u / 10 ^ (e - j) * 10 ^ (j - e) < 10 ^ 9 := by
      rw [← shifted_div]
      refine Nat.div_lt_of_lt_mul (hnext.trans_le ?_)
      rw [pow_add]
      exact Nat.mul_le_mul_left _ (by decide)
    subst he
    refine ⟨smallWords (u * 10 ^ j / 10 ^ ((index + 1) * 3)) ++ powerName index :: names, ?_, ?_⟩
    · rw [groupWords, if_pos (h.vocabularyLimit_le_iff.2 ⟨hu, hlarge⟩)]
      simp only [hexponent]
      rw [hcount.smallCount hnonzero hsmall, ← shifted_div]
      exact yields_ok.bind (yields_nameOfPower.bind (hnames.bind (yields_pure _)))
    · rw [← shifted_mod] at hadds
      exact hadds.quotient hpower hnext hfits (Dvd.intro_left u rfl) h.least_le

end Reckoner.Numeral
