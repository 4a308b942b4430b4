import Reckoner.Numeral.Short
import Reckoner.Proofs.Decimal.Canonical
import Reckoner.Proofs.Decimal.WholeDigits
import Reckoner.Proofs.Numeral.Groups
import Reckoner.Proofs.Rounding.Rescaling

/-!
# Short forms

The numeral of a short form is the value over the power that is named behind it, rounded once. The
exponent is taken off so that a digit before the point stays. A rounding that carries into the next
thousand makes the numeral a power of ten, and then the value is rounded again over the next power: it
is just as far from that power of ten there, so the second rounding carries as well.
-/

namespace Reckoner.Numeral

open Decimal

variable {x numeral : Decimal} {digits k : Nat} {q : ℚ}

/-! ## Rounded numerals -/

/-- The numeral of a number with so many digits behind the point, without zeros at their end. -/
structure RoundedTo (q : ℚ) (digits : Nat) (numeral : Decimal) : Prop where
  prescribed : ∃ units, Rounding.halfEven.Prescribes (q * 10 ^ digits) units ∧
    numeral.toRat = units / 10 ^ digits
  canonical : numeral.canonical = numeral

theorem RoundedTo.units (h : RoundedTo q digits numeral) :
    numeral.toRat = (Rounding.halfEven.nearest (q * 10 ^ digits) : ℚ) / 10 ^ digits := by
  obtain ⟨units, hunits, hvalue⟩ := h.prescribed
  rw [hvalue, (Rounding.prescribes_iff _ _ _).1 hunits]

theorem abs_mul_pow (q : ℚ) (digits : Nat) : |q * 10 ^ digits| = |q| * 10 ^ digits := by
  rw [abs_mul, abs_of_pos (show (0 : ℚ) < 10 ^ digits by positivity)]

theorem RoundedTo.abs_units (h : RoundedTo q digits numeral) :
    |numeral.toRat| * 10 ^ digits = |(Rounding.halfEven.nearest (q * 10 ^ digits) : ℚ)| := by
  rw [← abs_mul_pow, h.units, div_mul_cancel₀ _ (by positivity)]

/-- No power of ten is passed. -/
theorem RoundedTo.abs_le_pow (h : RoundedTo q digits numeral) (hq : |q| ≤ 10 ^ k) :
    |numeral.toRat| ≤ 10 ^ k := by
  have hunits : |q * 10 ^ digits| ≤ ((10 ^ k * 10 ^ digits : Int) : ℚ) := by
    rw [abs_mul_pow]
    push_cast
    exact mul_le_mul_of_nonneg_right hq (by positivity)
  have hbounds := abs_le.1 hunits
  refine le_of_mul_le_mul_right ?_ (show (0 : ℚ) < 10 ^ digits by positivity)
  rw [h.abs_units]
  have hnearest : |Rounding.halfEven.nearest (q * 10 ^ digits)| ≤ 10 ^ k * 10 ^ digits :=
    abs_le.2 ⟨Rounding.le_nearest _ (by exact_mod_cast hbounds.1),
      Rounding.nearest_le _ hbounds.2⟩
  exact_mod_cast hnearest

theorem RoundedTo.pow_le_abs (h : RoundedTo q digits numeral) (hq : 10 ^ k ≤ |q|) :
    10 ^ k ≤ |numeral.toRat| := by
  have hunits : ((10 ^ k * 10 ^ digits : Int) : ℚ) ≤ |q * 10 ^ digits| := by
    rw [abs_mul_pow]
    push_cast
    exact mul_le_mul_of_nonneg_right hq (by positivity)
  refine le_of_mul_le_mul_right ?_ (show (0 : ℚ) < 10 ^ digits by positivity)
  rw [h.abs_units]
  have hnearest : 10 ^ k * 10 ^ digits ≤ |Rounding.halfEven.nearest (q * 10 ^ digits)| := by
    obtain hpos | hneg := le_abs.1 hunits
    · exact (Rounding.le_nearest _ hpos).trans (le_abs_self _)
    · refine le_trans ?_ (neg_le_abs _)
      exact le_neg_of_le_neg (Rounding.nearest_le _ (by push_cast at hneg ⊢; linarith))
  exact_mod_cast hnearest

/-- Half a unit of the last place at most is lost. -/
theorem RoundedTo.abs_sub_le (h : RoundedTo q digits numeral) :
    2 * |(|q| - |numeral.toRat|)| * 10 ^ digits ≤ 1 := by
  have hnear := Rounding.abs_sub_nearest_le (.inr (.inr rfl)) (q * 10 ^ digits)
  have hvalue : q * 10 ^ digits - Rounding.halfEven.nearest (q * 10 ^ digits) =
      (q - numeral.toRat) * 10 ^ digits := by
    rw [sub_mul, h.units, div_mul_cancel₀ _ (by positivity)]
  rw [hvalue, abs_mul_pow, ← mul_assoc] at hnear
  refine le_trans ?_ hnear
  exact mul_le_mul_of_nonneg_right
    (mul_le_mul_of_nonneg_left (abs_abs_sub_abs_le_abs_sub _ _) two_pos.le) (by positivity)

/-- What carries into the next thousand is a power of ten, also when it is rounded over the next power
of a thousand. -/
theorem RoundedTo.abs_of_carry {next : Decimal} (h : RoundedTo q digits numeral)
    (hq : |q| < 10 ^ (k + 3)) (hcarry : 10 ^ (k + 3) ≤ |numeral.toRat|)
    (hnext : RoundedTo (q * 10 ^ (-3 : Int)) digits next) : |next.toRat| = 10 ^ k := by
  have hsize : |q * 10 ^ (-3 : Int)| = |q| / 1000 := by
    rw [abs_mul, abs_of_pos (show (0 : ℚ) < 10 ^ (-3 : Int) by positivity)]
    norm_num
    ring
  have hpow : (10 : ℚ) ^ (k + 3) = 10 ^ k * 1000 := by
    rw [pow_add]
    norm_num
  have hlast : (0 : ℚ) < 10 ^ digits := by positivity
  refine le_antisymm (hnext.abs_le_pow (by rw [hsize]; linarith)) ?_
  refine le_of_mul_le_mul_right ?_ hlast
  have hlost : 2 * (10 ^ (k + 3) - |q|) * 10 ^ digits ≤ 1 := by
    refine le_trans ?_ h.abs_sub_le
    gcongr
    rw [abs_sub_comm]
    exact (sub_le_sub_right hcarry _).trans (le_abs_self _)
  have hlost' : 2 * (|q| / 1000 - |next.toRat|) * 10 ^ digits ≤ 1 := by
    refine le_trans ?_ hnext.abs_sub_le
    rw [hsize]
    gcongr
    exact le_abs_self _
  -- Both roundings together lose less than a unit of the last place.
  have habove : ((10 ^ k * 10 ^ digits : Int) : ℚ) - 1 < |next.toRat| * 10 ^ digits := by
    rw [hpow] at hlost
    push_cast
    linarith
  rw [hnext.abs_units] at habove ⊢
  rw [← Int.cast_abs] at habove ⊢
  have hunits : 10 ^ k * 10 ^ digits ≤
      |Rounding.halfEven.nearest (q * 10 ^ (-3 : Int) * 10 ^ digits)| := by
    have hlt : 10 ^ k * 10 ^ digits - 1 <
        |Rounding.halfEven.nearest (q * 10 ^ (-3 : Int) * 10 ^ digits)| := by exact_mod_cast habove
    omega
  exact_mod_cast hunits

/-! ## The exponent taken off -/

variable {value : Decimal} {places e : Nat}

theorem strippedExponent_spec (whole places : Nat) :
    3 ∣ strippedExponent whole places ∧
    (strippedExponent whole places = 0 ∨ strippedExponent whole places < whole) ∧
    whole ≤ strippedExponent whole places + max places 3 := by
  unfold strippedExponent
  split <;> omega

/-- The exponent that is taken off before anything carries. -/
def firstExponent (value : Decimal) (places : Nat) : Nat :=
  strippedExponent value.wholeDigits (max places 1)

theorem firstExponent_lt (value : Decimal) (places : Nat) :
    (firstExponent value places : Int) < Word.greatest := by
  obtain ⟨-, hlt, -⟩ := strippedExponent_spec value.wholeDigits (max places 1)
  have hword := wholeDigits_le_greatest value
  unfold firstExponent Word.greatest at *
  omega

theorem min_firstExponent (value : Decimal) (places : Nat) :
    min (strippedExponent value.wholeDigits (max places 1) : Int) Word.greatest =
      firstExponent value places :=
  min_eq_left (firstExponent_lt value places).le

/-- A digit stays before the point. -/
theorem pow_firstExponent_le (value : Decimal) (places : Nat) :
    firstExponent value places = 0 ∨ (10 : ℚ) ^ firstExponent value places ≤ |value.toRat| := by
  obtain ⟨-, hlt, -⟩ := strippedExponent_spec value.wholeDigits (max places 1)
  exact hlt.imp_right (lt_wholeDigits_iff (firstExponent_lt value places)).1

theorem pow_le_abs_quotient : (10 : ℚ) ^ k ≤ |q * 10 ^ (-(e : Int))| ↔ 10 ^ (k + e) ≤ |q| := by
  rw [abs_mul, abs_of_pos (show (0 : ℚ) < 10 ^ (-(e : Int)) by positivity), zpow_neg, zpow_natCast,
    ← div_eq_mul_inv, le_div_iff₀ (by positivity), pow_add]

/-- Where the digits before the point are counted right, no more than three or the asked for stay. -/
theorem abs_quotient_lt (h : |value.toRat| < 10 ^ Word.greatest) :
    |value.toRat * 10 ^ (-(firstExponent value places : Int))| < 10 ^ max places 3 := by
  obtain ⟨-, -, hle⟩ := strippedExponent_spec value.wholeDigits (max places 1)
  have hnat : (Word.greatest.toNat : Int) = Word.greatest := Int.toNat_of_nonneg (by decide)
  rw [← hnat, zpow_natCast] at h
  have hcount := lt_wholeDigits_iff_of_lt hnat.le h
  rw [← not_le, pow_le_abs_quotient, ← hcount]
  unfold firstExponent
  omega

theorem moved_fits (places : Nat) (hshort : value.digitCount ≤ 10000) :
    Word.Fits (value.scale + firstExponent value places) := by
  have hscale := value.scale_fits
  unfold Word.Fits Word.least Word.greatest at *
  obtain hzero | hle := pow_firstExponent_le value places
  · omega
  · rw [← zpow_natCast] at hle
    have := scale_lt_of_pow_le hle
    omega

/-! ## Rounding over a power -/

theorem scale_moved (hmoved : Word.Fits (value.scale + e)) :
    (value.movePoint (-e)).scale = value.scale + e := by
  rw [movePoint, scale_ofScaled, sub_neg_eq_add, Word.saturate_of_fits hmoved]

theorem toRat_moved (hmoved : Word.Fits (value.scale + e)) :
    (value.movePoint (-e)).toRat = value.toRat * 10 ^ (-(e : Int)) :=
  toRat_movePoint (by rwa [sub_neg_eq_add])

/-- The value is rounded once, unless too many zeros would have to be appended. -/
theorem shortNumeral_rounds (hdigits : Word.Fits digits) (hmoved : Word.Fits (value.scale + e))
    (hlimit : digits - (value.scale + e) ≤ 1000000) :
    Succeeds (shortNumeral value e digits) (RoundedTo (value.toRat * 10 ^ (-(e : Int))) digits) := by
  obtain ⟨y, hy, hyscale, hunits⟩ := rescale_succeeds context.rounding hdigits
    (show digits - (value.movePoint (-e)).scale ≤ 1000000 by rwa [scale_moved hmoved])
  rw [toRat_moved hmoved, zpow_natCast] at hunits
  rw [shortNumeral, hy]
  refine succeeds_ok ⟨⟨y.unscaled, ?_, ?_⟩, canonical_canonical y⟩
  · exact (Rounding.prescribes_iff _ _ _).2 hunits
  · rw [toRat_canonical, toRat, hyscale, zpow_neg, zpow_natCast, div_eq_mul_inv]

theorem shortNumeral_refused (hmoved : Word.Fits (value.scale + e))
    (hlimit : 1000000 < digits - (value.scale + e)) :
    shortNumeral value e digits = .error .exponentTooLarge := by
  rw [shortNumeral, rescale_refused (by rwa [scale_moved hmoved])]
  rfl

/-- What is left of a value that is rescaled is far below the end of the word range. -/
theorem exists_abs_quotient_lt (hshort : value.digitCount ≤ 10000)
    (hlimit : digits - (value.scale + e) ≤ 1000000) :
    ∃ limit : Nat, (limit : Int) ≤ Word.greatest ∧
      |value.toRat * 10 ^ (-(e : Int))| < 10 ^ limit ∧
      ∀ numeral, RoundedTo (value.toRat * 10 ^ (-(e : Int))) digits numeral →
        |numeral.toRat| < 10 ^ limit := by
  have hlt : |value.toRat * 10 ^ (-(e : Int))| < 10 ^ (value.digitCount + 1000000) := by
    rw [← not_le, pow_le_abs_quotient, ← zpow_natCast]
    intro hle
    have := scale_lt_of_pow_le hle
    omega
  have hgrows : (10 : ℚ) ^ (value.digitCount + 1000000) < 10 ^ (value.digitCount + 1000000 + 1) :=
    pow_lt_pow_right₀ (by norm_num) (Nat.lt_succ_self _)
  exact ⟨value.digitCount + 1000000 + 1, by unfold Word.greatest; omega, hlt.trans hgrows,
    fun numeral hround => (hround.abs_le_pow hlt.le).trans_lt hgrows⟩

/-- A carry into the next thousand: the value can be rounded again over the next power, and what comes
out is a power of ten. -/
theorem shortNumeral_carries {kept : Nat} (hdigits : Word.Fits digits)
    (hshort : value.digitCount ≤ 10000) (hlimit : digits - (value.scale + e) ≤ 1000000)
    (hround : RoundedTo (value.toRat * 10 ^ (-(e : Int))) digits numeral)
    (hkept : |value.toRat * 10 ^ (-(e : Int))| < 10 ^ kept)
    (hcarry : 10 ^ kept ≤ |numeral.toRat|) (hthousand : (10 : ℚ) ^ 3 ≤ |numeral.toRat|) :
    ∃ k, kept = k + 3 ∧ Succeeds (shortNumeral value (e + 3 : Nat) digits) fun next =>
      RoundedTo (value.toRat * 10 ^ (-((e + 3 : Nat) : Int))) digits next ∧ |next.toRat| = 10 ^ k := by
  have hmore : 3 ≤ kept := (pow_le_pow_iff_right₀ (show (1 : ℚ) < 10 by norm_num)).1
    (hthousand.trans (hround.abs_le_pow hkept.le))
  obtain ⟨k, rfl⟩ := Nat.exists_eq_add_of_le' hmore
  have hone : (10 : ℚ) ^ (0 + e) ≤ |value.toRat| := by
    rw [← pow_le_abs_quotient, ← not_lt]
    intro hlt
    have hbelow := hround.abs_le_pow hlt.le
    norm_num at hbelow hthousand
    linarith
  have hmoved : Word.Fits (value.scale + (e + 3 : Nat)) := by
    rw [zero_add, ← zpow_natCast] at hone
    have hscale := value.scale_fits
    have := scale_lt_of_pow_le hone
    unfold Word.Fits Word.least Word.greatest at *
    omega
  refine ⟨k, rfl, (shortNumeral_rounds hdigits hmoved (by omega)).imp fun next hnext => ⟨hnext, ?_⟩⟩
  refine hround.abs_of_carry hkept hcarry ?_
  rw [mul_assoc, ← zpow_add₀ (by norm_num)]
  convert hnext using 3
  omega

/-! ## Short forms -/

/-- A numeral and the power of a thousand that is named behind it, if it is not the power of the
units. -/
structure ShortForm (q : ℚ) (digits : Nat) (numeral : Decimal) (power : Nat) : Prop where
  rounded : RoundedTo (q * 10 ^ (-((power * 3 : Nat) : Int))) digits numeral
  leading : power ≠ 0 → 1 ≤ |numeral.toRat|
  named : ((power * 3 : Nat) : Int) ≤ Word.greatest

/-- The text of a numeral and of a power. -/
def shortText (numeral : Decimal) : Nat → String
  | 0 => numeral.toText
  | index + 1 => numeral.toText ++ " " ++ powerName index

theorem abs_round_le_of_exponentFits (hfits : x.ExponentFits) :
    |(context.round x).toRat| ≤ 10 ^ (Word.greatest + 1) := by
  refine Context.abs_round_le (Rounding.short_pow (by decide) _) ?_
  by_cases hx : x.unscaled = 0
  · rw [toRat_eq_zero.2 hx, abs_zero]
    positivity
  · have hexponent := (hfits hx).2.2
    exact (abs_toRat_lt_pow x).le.trans (zpow_le_zpow_right₀ (by norm_num) (by omega))

/-- What is taken off at first leaves room for a carry in the word range. -/
theorem carried_fits (hsize : |value.toRat| ≤ 10 ^ (Word.greatest + 1))
    (hround : RoundedTo (value.toRat * 10 ^ (-(firstExponent value places : Int))) digits numeral)
    (hthousand : (10 : ℚ) ^ 3 ≤ |numeral.toRat|) :
    ((firstExponent value places + 3 : Nat) : Int) ≤ Word.greatest := by
  obtain ⟨hdvd, -, -⟩ := strippedExponent_spec value.wholeDigits (max places 1)
  have hlt := firstExponent_lt value places
  by_contra hlast
  -- Then the multiple of three is the last one, and at most a hundred is left.
  have hexponent : (firstExponent value places : Int) = Word.greatest - 1 := by
    unfold firstExponent Word.greatest at *
    omega
  have hleft : |value.toRat * 10 ^ (-(firstExponent value places : Int))| ≤ 10 ^ 2 := by
    rw [abs_mul, abs_of_pos (show (0 : ℚ) < 10 ^ (-(firstExponent value places : Int)) by positivity),
      hexponent]
    refine (mul_le_mul_of_nonneg_right hsize (by positivity)).trans_eq ?_
    rw [← zpow_add₀ (by norm_num), show Word.greatest + 1 + -(Word.greatest - 1) = 2 by ring]
    norm_num
  have hshort := hround.abs_le_pow hleft
  norm_num at hshort hthousand
  linarith

/-- What is asked of the parts of a short form. -/
def AreShort (value : Decimal) (places digits : Nat) (parts : Decimal × Int) : Prop :=
  ∃ power : Nat, parts.2 = (power * 3 : Nat) ∧ ShortForm value.toRat digits parts.1 power ∧
    (|value.toRat| < 10 ^ Word.greatest → |parts.1.toRat| < 10 ^ max places 3)

theorem exists_firstExponent (value : Decimal) (places : Nat) :
    ∃ power, firstExponent value places = power * 3 :=
  exists_eq_mul_left_of_dvd (strippedExponent_spec _ _).1

/-- Without a carry the digit that the exponent leaves in front of the point stays there. -/
theorem areShort_kept
    (hround : RoundedTo (value.toRat * 10 ^ (-(firstExponent value places : Int))) digits numeral)
    (hbound : |value.toRat| < 10 ^ Word.greatest → |numeral.toRat| < 10 ^ max places 3) :
    AreShort value places digits (numeral, firstExponent value places) := by
  have hleading := pow_firstExponent_le value places
  have hnamed := (firstExponent_lt value places).le
  obtain ⟨power, hpower⟩ := exists_firstExponent value places
  rw [hpower] at hround hleading hnamed ⊢
  refine ⟨power, rfl, ⟨hround, fun hpos => ?_, hnamed⟩, hbound⟩
  have hone := hleading.resolve_left (by omega)
  rw [← Nat.zero_add (power * 3), ← pow_le_abs_quotient] at hone
  simpa using hround.pow_le_abs hone

/-- With a carry the numeral is a power of ten, and that is no less than one. -/
theorem areShort_carried {next : Decimal}
    (hround : RoundedTo (value.toRat * 10 ^ (-((firstExponent value places + 3 : Nat) : Int))) digits
      next)
    (hpow : |next.toRat| = 10 ^ k)
    (hnamed : ((firstExponent value places + 3 : Nat) : Int) ≤ Word.greatest)
    (hbound : |value.toRat| < 10 ^ Word.greatest → k + 3 ≤ max places 3) :
    AreShort value places digits (next, (firstExponent value places + 3 : Nat)) := by
  obtain ⟨power, hpower⟩ := exists_firstExponent value places
  rw [hpower, ← Nat.add_one_mul] at hround hnamed ⊢
  refine ⟨power + 1, rfl, ⟨hround, fun _ => ?_, hnamed⟩, fun h => ?_⟩
  · rw [hpow]
    exact one_le_pow₀ (by norm_num)
  · have hle := hbound h
    rw [hpow]
    exact pow_lt_pow_right₀ (by norm_num) (by omega)

theorem shortParts_spec (places : Nat) (hfits : x.ExponentFits) (hdigits : Word.Fits digits)
    (hlimit : digits - ((context.round x).scale + firstExponent (context.round x) places) ≤
      1000000) :
    Succeeds (shortParts x places digits) (AreShort (context.round x) places digits) := by
  have hshort : (context.round x).digitCount ≤ 10000 := digitCount_roundTo_le (by decide)
  have hsize := abs_round_le_of_exponentFits hfits
  unfold shortParts
  simp only [min_firstExponent]
  generalize context.round x = value at *
  have hmoved := moved_fits places hshort
  obtain ⟨numeral, hnumeral, hround⟩ := shortNumeral_rounds hdigits hmoved hlimit
  -- No count of digits stops at the end of the word range any more.
  obtain ⟨limit, hword, hquotient, hnumeralLimit⟩ := exists_abs_quotient_lt hshort hlimit
  have hcarried := lt_wholeDigits_iff_of_lt hword (hnumeralLimit numeral hround)
  have hkept := lt_wholeDigits_iff_of_lt hword (by rwa [toRat_moved hmoved])
  rw [toRat_moved hmoved] at hkept
  rw [hnumeral]
  generalize (value.movePoint (-firstExponent value places)).wholeDigits = kept at *
  have hless (h : |value.toRat| < 10 ^ Word.greatest) : kept ≤ max places 3 :=
    not_lt.1 fun hlong => (abs_quotient_lt h).not_ge ((hkept _).1 hlong)
  change Succeeds (if _ then _ else _) _
  -- a carry into a fourth digit makes the next power of a thousand the better one
  split
  · next hcarry =>
    simp only [Bool.and_eq_true, decide_eq_true_eq, max_lt_iff] at hcarry
    obtain ⟨⟨-, hmore⟩, hthousand⟩ := hcarry
    have hthousand := (hcarried 3).1 hthousand
    have hbelow := not_le.1 (mt (hkept kept).2 (lt_irrefl _))
    obtain ⟨k, rfl, hnext⟩ := shortNumeral_carries hdigits hshort hlimit hround hbelow
      ((hcarried _).1 hmore) hthousand
    refine hnext.bind fun next hnext => succeeds_ok ?_
    exact areShort_carried hnext.1 hnext.2 (carried_fits hsize hround hthousand) hless
  · next hcarry =>
    simp only [Bool.and_eq_true, decide_eq_true_eq, not_and, not_lt] at hcarry
    refine succeeds_ok (areShort_kept hround fun h => ?_)
    have hle := hless h
    rw [← not_le, ← hcarried]
    omega

theorem yields_spellShort {power : Nat}
    (h : shortParts x places digits = .ok (numeral, ((power * 3 : Nat) : Int))) :
    Yields (spellShort x places digits) (shortText numeral power) := by
  unfold spellShort
  rw [h]
  refine (@yields_ok _ (numeral, ((power * 3 : Nat) : Int))).bind ?_
  cases power with
  | zero => exact yields_pure _
  | succ index =>
    dsimp only
    rw [if_neg (by omega)]
    exact yields_nameOfPower.bind (yields_pure _)

theorem gives_spellShort_refused
    (hlimit : 1000000 <
      digits - ((context.round x).scale + firstExponent (context.round x) places)) :
    Gives (spellShort x places digits).run (.error (.arithmetic .exponentTooLarge)) := by
  have hshort : (context.round x).digitCount ≤ 10000 := digitCount_roundTo_le (by decide)
  have hmoved := moved_fits places hshort
  have hparts : shortParts x places digits = .error .exponentTooLarge := by
    unfold shortParts
    simp only [min_firstExponent]
    rw [shortNumeral_refused hmoved hlimit]
    rfl
  unfold spellShort
  rw [hparts]
  exact gives_pure _

/-- A short form is refused if rescaling the value would append too many zeros. Otherwise it is a
numeral, alone or with the name of a power of a thousand behind it. The numeral is the value, first
rounded to ten thousand digits, over that power, rounded half to even to the places asked for, and
without zeros at its end. It is no less than one in front of a name, also when the rounding carries into
the next thousand. Unless the digits before the point of the value are too many to be counted in a
word, no more than those asked for or three stay. -/
theorem spellShort_faithful (x : Decimal) (places digits : Nat) (hfits : x.ExponentFits)
    (hdigits : Word.Fits digits) :
    let value := context.round x
    let zeros := digits - (value.scale + firstExponent value places)
    (1000000 < zeros ∧
      Gives (spellShort x places digits).run (.error (.arithmetic .exponentTooLarge))) ∨
    (zeros ≤ 1000000 ∧ ∃ numeral power,
      Yields (spellShort x places digits) (shortText numeral power) ∧
      ShortForm value.toRat digits numeral power ∧
      (|value.toRat| < 10 ^ Word.greatest → |numeral.toRat| < 10 ^ max places 3)) := by
  intro value zeros
  obtain hrefused | hlimit := lt_or_ge 1000000 zeros
  · exact .inl ⟨hrefused, gives_spellShort_refused hrefused⟩
  obtain ⟨⟨numeral, exponent⟩, hparts, power, hpower, hform, hbound⟩ :=
    shortParts_spec places hfits hdigits hlimit
  obtain rfl : exponent = (power * 3 : Nat) := hpower
  exact .inr ⟨hlimit, numeral, power, yields_spellShort hparts, hform, hbound⟩

/-- Nines that carry into the next thousand. -/
theorem spellShort_faithful_carry :
    let x := ofNat 999999
    x.ExponentFits ∧ Word.Fits 0 ∧ |(context.round x).toRat| < 10 ^ Word.greatest ∧
      Yields (spellShort x 3 0) ("1 " ++ powerName 1) ∧
      ∃ numeral power, Yields (spellShort x 3 0) (shortText numeral power) ∧
        ShortForm (context.round x).toRat 0 numeral power ∧ |numeral.toRat| < 10 ^ 3 := by
  intro x
  have hfits : x.ExponentFits := by decide +kernel
  have hparts : shortParts x 3 0 = .ok (ofScaled 1 0, (2 * 3 : Nat)) := by decide +kernel
  have hsmall : |(context.round x).toRat| < 10 ^ Word.greatest := by
    refine (abs_toRat_lt_pow _).trans_le (zpow_le_zpow_right₀ (by norm_num) ?_)
    decide +kernel
  obtain ⟨hrefused, -⟩ | ⟨-, numeral, power, htext, hform, hbound⟩ :=
    spellShort_faithful x 3 0 hfits Word.zero_fits
  · exact absurd hrefused (by decide +kernel)
  · exact ⟨hfits, Word.zero_fits, hsmall, yields_spellShort hparts, numeral, power, htext, hform,
      hbound hsmall⟩

/-- The short forms of the power of ten whose exponent is the greatest word, with few digits. -/
theorem ShortForm.of_greatest {power : Nat}
    (hform : ShortForm (10 ^ Word.greatest) 0 numeral power) (hbound : |numeral.toRat| < 10 ^ 4) :
    numeral = ofScaled 1 (-1) ∧ power = 3074457345618258602 := by
  obtain ⟨left, hleft⟩ := Int.eq_ofNat_of_zero_le (sub_nonneg.2 hform.named)
  have hquotient : (10 : ℚ) ^ Word.greatest * 10 ^ (-((power * 3 : Nat) : Int)) = 10 ^ left := by
    rw [← zpow_add₀ (by norm_num), ← sub_eq_add_neg, hleft, zpow_natCast]
  have hround := hform.rounded
  rw [hquotient] at hround
  have hlt : left < 4 := (pow_lt_pow_iff_right₀ (show (1 : ℚ) < 10 by norm_num)).1
    ((hround.pow_le_abs (le_abs_self _)).trans_lt hbound)
  obtain ⟨rfl, rfl⟩ : left = 1 ∧ power = 3074457345618258602 := by
    unfold Word.greatest at hleft
    omega
  refine ⟨?_, rfl⟩
  have hvalue : numeral.toRat = (ofInt 10).toRat := by
    have hten : (10 : ℚ) ^ 1 * 10 ^ 0 = (10 : Int) := by norm_num
    rw [hround.units, hten, Rounding.nearest_intCast, toRat_ofInt, pow_zero, div_one]
  rw [← hround.canonical, canonical_eq_of_toRat_eq hvalue]
  decide +kernel

/-- The digits before the point of this power of ten are one more than a word can count. Five of them
stay in its short form where four were asked for, and no short form with at most four is given. -/
theorem spellShort_five_digits :
    let x := powerOfTen Word.greatest
    x.ExponentFits ∧ Word.Fits 0 ∧
      Yields (spellShort x 4 0) ("10000 " ++ powerName 3074457345618258600) ∧
      ∀ numeral power, ShortForm (context.round x).toRat 0 numeral power →
        |numeral.toRat| < 10 ^ max 4 3 → ¬ Yields (spellShort x 4 0) (shortText numeral power) := by
  intro x
  have hparts : shortParts x 4 0 = .ok (ofScaled 1 (-4), (3074457345618258601 * 3 : Nat)) := by
    decide +kernel
  have hgiven := yields_spellShort hparts
  have hvalue : (context.round x).toRat = 10 ^ Word.greatest := by
    rw [show context.round x = x by decide +kernel]
    change (ofScaled 1 (-Word.greatest)).toRat = _
    rw [toRat_ofScaled _ (by decide), neg_neg, Int.cast_one, one_mul]
  refine ⟨by decide +kernel, Word.zero_fits, hgiven, fun numeral power hform hbound htext => ?_⟩
  rw [hvalue] at hform
  obtain ⟨rfl, rfl⟩ := hform.of_greatest hbound
  have hsame := congrArg String.toList (Except.ok.inj (hgiven.unique htext))
  have hfive : (ofScaled 1 (-4)).toText = "10000" := by decide +kernel
  have htwo : (ofScaled 1 (-1)).toText = "10" := by decide +kernel
  -- A zero here, the blank there.
  simp [shortText, hfive, htwo] at hsame

end Reckoner.Numeral
