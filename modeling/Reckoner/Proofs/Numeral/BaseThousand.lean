import Mathlib.Data.Nat.Digits.Lemmas
import Reckoner.Proofs.Decimal.Whole
import Reckoner.Proofs.Decimal.WholeDigits
import Reckoner.Proofs.Numeral.Groups

/-!
# Whole numbers in base one thousand

A whole number is spelled by its digits in base one thousand, from the most significant on: each digit
that is no zero by its one to three decimal digits, with the name of its power behind it. So the words
depend on the number alone, however it is represented.
-/

namespace Reckoner.Numeral

open Decimal Integer

/-! ## The reference -/

/-- The words of the numbers below twenty. -/
def unitWords : List String :=
  ["", "One", "Two", "Three", "Four", "Five", "Six", "Seven", "Eight", "Nine", "Ten", "Eleven",
    "Twelve", "Thirteen", "Fourteen", "Fifteen", "Sixteen", "Seventeen", "Eighteen", "Nineteen"]

/-- The words of the tens, by their first digit. -/
def tenWords : List String :=
  ["", "", "Twenty", "Thirty", "Forty", "Fifty", "Sixty", "Seventy", "Eighty", "Ninety"]

def unitNames (n : Nat) : List String := if n = 0 then [] else [unitWords.getD n ""]

/-- The spelling of a number of one or two digits; none for zero. -/
def twoDigitNames (n : Nat) : List String :=
  if n < 20 then unitNames n else tenWords.getD (n / 10) "" :: unitNames (n % 10)

/-- The spelling of a number of one to three digits; none for zero. -/
def threeDigitNames (n : Nat) : List String :=
  (if n / 100 = 0 then [] else unitNames (n / 100) ++ ["Hundred"]) ++ twoDigitNames (n % 100)

/-- The digits in base one thousand that are no zero, each with its place, from the greatest on. -/
def thousandDigits (n : Nat) : List (Nat × Nat) :=
  ((Nat.digits 1000 n).zipIdx.filter (·.1 ≠ 0)).reverse

/-- A digit with the name of its power, unless that is the power of the units. -/
def digitNames (digit : Nat × Nat) : List String :=
  threeDigitNames digit.1 ++ if digit.2 = 0 then [] else [powerName (digit.2 - 1)]

/-- The words of a whole number. -/
def wholeNames (n : Nat) : List String :=
  if n = 0 then ["Zero"] else (thousandDigits n).flatMap digitNames

/-! ## Digits and their places -/

variable {n d k below : Nat}

theorem thousandDigits_zero : thousandDigits 0 = [] := by simp [thousandDigits]

/-- The first digit, if it is no zero, stands in front of the digits of what it leaves. -/
theorem thousandDigits_first (hd : d ≠ 0) (hlt : d < 1000) (hbelow : below < 1000 ^ k) :
    thousandDigits (1000 ^ k * d + below) = (d, k) :: thousandDigits below := by
  have hlength : (Nat.digits 1000 below).length ≤ k :=
    (Nat.digits_length_le_iff (by decide) below).2 hbelow
  have hdigits : Nat.digits 1000 (1000 ^ k * d + below) =
      Nat.digits 1000 below ++ List.replicate (k - (Nat.digits 1000 below).length) 0 ++ [d] := by
    rw [← Nat.digits_of_lt 1000 d hd hlt,
      Nat.digits_append_zeroes_append_digits (by decide) (by omega),
      Nat.add_sub_of_le hlength, add_comm]
  have hplace : (Nat.digits 1000 below ++
      List.replicate (k - (Nat.digits 1000 below).length) 0).length = k := by
    rw [List.length_append, List.length_replicate, Nat.add_sub_of_le hlength]
  have hzeros (m i : Nat) :
      ((List.replicate m 0).zipIdx i).filter (fun x : Nat × Nat => x.1 ≠ 0) = [] := by
    refine List.filter_eq_nil_iff.2 fun x hx => ?_
    have := List.fst_mem_of_mem_zipIdx hx
    simp [List.eq_of_mem_replicate this]
  unfold thousandDigits
  rw [hdigits, List.zipIdx_append, hplace, List.zipIdx_append, List.filter_append, List.filter_append,
    hzeros, List.append_nil]
  simp [hd]

theorem mem_thousandDigits {digit : Nat × Nat} (h : digit ∈ thousandDigits n) :
    digit.1 ≠ 0 ∧ digit.1 < 1000 := by
  obtain ⟨hmem, hne⟩ := List.mem_filter.1 (List.mem_reverse.1 h)
  exact ⟨by simpa using hne, Nat.digits_lt_base (by decide) (List.fst_mem_of_mem_zipIdx hmem)⟩

/-- The places fall from digit to digit. -/
theorem thousandDigits_places (n : Nat) :
    (thousandDigits n).Pairwise fun first second => second.2 < first.2 := by
  have hall : (Nat.digits 1000 n).zipIdx.Pairwise fun first second => first.2 < second.2 := by
    have hplaces := List.pairwise_lt_range' (s := 0) (n := (Nat.digits 1000 n).length)
    rw [← List.zipIdx_map_snd, List.pairwise_map] at hplaces
    exact hplaces
  exact List.pairwise_reverse.2 (hall.filter _)

theorem digitNames_first (hd : d ≠ 0) (hlt : d < 1000) (hbelow : below < 1000 ^ k) :
    (thousandDigits (1000 ^ k * d + below)).flatMap digitNames =
      digitNames (d, k) ++ (thousandDigits below).flatMap digitNames := by
  rw [thousandDigits_first hd hlt hbelow, List.flatMap_cons]

/-! ## The vocabulary -/

/-- The word of the tens, or the only word below twenty. -/
theorem smallWords_twoDigits (h : n < 100) : smallWords n = twoDigitNames n := by
  have hunits : ∀ n < 20, n ≠ 0 → greatestUpTo? n = some ⟨unitWords.getD n "", n⟩ := by decide
  have htens : ∀ n < 100, 20 ≤ n →
      greatestUpTo? n = some ⟨tenWords.getD (n / 10) "", n / 10 * 10⟩ := by decide
  have hbelow {n : Nat} (h : n < 20) : smallWords n = unitNames n := by
    unfold unitNames
    split
    · next hzero => rw [hzero, smallWords_zero]
    · next hne =>
      rw [smallWords_eq (hunits n h hne), if_neg (by dsimp only; omega), Nat.mod_self, smallWords_zero]
      rfl
  unfold twoDigitNames
  split
  · next hlow => exact hbelow hlow
  · next hhigh =>
    have hrest : n % (n / 10 * 10) = n % 10 := by
      rw [Nat.mod_eq_sub_mod (by omega), show n - n / 10 * 10 = n % 10 by omega,
        Nat.mod_eq_of_lt (by omega)]
    rw [smallWords_eq (htens n h (by omega)), if_neg (by dsimp only; omega), hrest, hbelow (by omega)]
    rfl

theorem smallWords_threeDigits (h : n < 1000) : smallWords n = threeDigitNames n := by
  unfold threeDigitNames
  split
  · next hlow =>
    rw [Nat.mod_eq_of_lt (by omega), smallWords_twoDigits (by omega)]
    rfl
  · next hhundred =>
    have hcount : smallWords (n / 100) = unitNames (n / 100) := by
      rw [smallWords_twoDigits (by omega), twoDigitNames, if_pos (by omega)]
    rw [smallWords_great (greatestUpTo?_hundred (by omega) h) le_rfl, hcount,
      smallWords_twoDigits (by omega), List.append_assoc]
    rfl

/-- A first digit with its power, in front of the words for what it leaves. -/
theorem digitNames_group {index : Nat} (hle : 1000 ^ (index + 1) ≤ n)
    (hlt : n / 1000 ^ (index + 1) < 1000) :
    (thousandDigits n).flatMap digitNames = smallWords (n / 1000 ^ (index + 1)) ++
      powerName index :: (thousandDigits (n % 1000 ^ (index + 1))).flatMap digitNames := by
  have hpos : 0 < 1000 ^ (index + 1) := by positivity
  conv_lhs => rw [← Nat.div_add_mod n (1000 ^ (index + 1))]
  rw [digitNames_first (Nat.div_pos hle hpos).ne' hlt (Nat.mod_lt _ hpos),
    smallWords_threeDigits hlt, digitNames]
  simp

theorem smallWords_units (h : n < 1000) :
    smallWords n = (thousandDigits n).flatMap digitNames := by
  by_cases hn : n = 0
  · rw [hn, smallWords_zero, thousandDigits_zero, List.flatMap_nil]
  · have hfirst := digitNames_first hn h (show 0 < 1000 ^ 0 by decide)
    rw [pow_zero, one_mul, add_zero, thousandDigits_zero, List.flatMap_nil, List.append_nil] at hfirst
    rw [hfirst, smallWords_threeDigits h, digitNames, if_pos rfl, List.append_nil]

/-- A great word that is the name of its power stands behind the words of the first digit. -/
theorem smallWords_power {index : Nat}
    (hgreatest : greatestUpTo? n = some ⟨powerName index, 1000 ^ (index + 1)⟩)
    (hle : 1000 ^ (index + 1) ≤ n) (hlt : n / 1000 ^ (index + 1) < 1000)
    (hrest : smallWords (n % 1000 ^ (index + 1)) =
      (thousandDigits (n % 1000 ^ (index + 1))).flatMap digitNames) :
    smallWords n = (thousandDigits n).flatMap digitNames := by
  have hgreat : 100 ≤ 1000 ^ (index + 1) :=
    (show 100 ≤ 1000 by decide).trans (Nat.le_self_pow index.succ_ne_zero 1000)
  rw [digitNames_group hle hlt, ← hrest, smallWords_great hgreatest hgreat]

/-- Below the limit of the vocabulary its great words name the powers. -/
theorem smallWords_eq_digitNames (h : n < 10 ^ 9) :
    smallWords n = (thousandDigits n).flatMap digitNames := by
  have hthousands {n : Nat} (h : n < 10 ^ 6) :
      smallWords n = (thousandDigits n).flatMap digitNames := by
    by_cases hsmall : n < 1000
    · exact smallWords_units hsmall
    have hgreatest : greatestUpTo? n = some ⟨powerName 0, 1000⟩ := by
      have hmillion : ¬ 1000000 ≤ n := by omega
      simp [greatestUpTo?, vocabulary, hmillion, not_lt.1 hsmall, show powerName 0 = "Thousand" from rfl]
    exact smallWords_power hgreatest (not_lt.1 hsmall) (by omega)
      (smallWords_units (Nat.mod_lt _ (by decide)))
  by_cases hsmall : n < 10 ^ 6
  · exact hthousands hsmall
  have hgreatest : greatestUpTo? n = some ⟨powerName 1, 1000000⟩ := by
    simp [greatestUpTo?, vocabulary, show 1000000 ≤ n by omega, powerName_one]
  exact smallWords_power hgreatest (not_lt.1 hsmall) (by omega)
    (hthousands (Nat.mod_lt _ (by decide)))

/-! ## Taking the first digit off -/

/-- A representation of a whole number whose digits can be counted in words, those of the number and
those of its unscaled integer. -/
structure Represents (x : Decimal) (n : Nat) : Prop where
  value : x.toRat = n
  number_fits : n ≠ 0 → (Integer.digitCount n : Int) - 1 ≤ Word.greatest
  unscaled_fits : n ≠ 0 → (Integer.digitCount n : Int) + x.scale ≤ Word.greatest

variable {x : Decimal}

theorem Represents.unscaled_ne (h : Represents x n) (hn : n ≠ 0) : x.unscaled ≠ 0 := by
  rw [ne_eq, ← toRat_eq_zero, h.value]
  exact_mod_cast hn

theorem Represents.digitCount (h : Represents x n) (hn : n ≠ 0) :
    (x.digitCount : Int) = Integer.digitCount n + x.scale :=
  digitCount_of_toRat (n := (n : Int)) (h.unscaled_ne hn) (by simpa using h.value)

theorem vocabularyLimit_le_iff (h : x.toRat = n) : ofNat vocabularyLimit ≤ x ↔ 10 ^ 9 ≤ n := by
  rw [le_iff, toRat_ofNat, h]
  exact_mod_cast Iff.rfl

theorem Represents.namedExponent (h : Represents x n) (hn : 10 ^ 9 ≤ n) :
    ∃ index : Nat, namedExponent x.exponent = ((index + 1) * 3 : Nat) ∧
      10 ^ ((index + 1) * 3) ≤ n ∧ n < 10 ^ ((index + 1) * 3 + 3) ∧
      Word.Fits ((index + 1) * 3 : Nat) := by
  have hne : n ≠ 0 := by omega
  have hcount : 9 < Integer.digitCount n := (lt_digitCount_iff (by decide)).2 hn
  have hfits := h.number_fits hne
  refine ⟨(Integer.digitCount n - 1) / 3 - 1, ?_, ?_, ?_, ?_⟩
  · have hword : Word.Fits (x.digitCount - 1 - x.scale) := by
      rw [h.digitCount hne]
      unfold Word.Fits Word.least Word.greatest at *
      omega
    rw [exponent, if_neg (h.unscaled_ne hne), Word.saturate_of_fits hword, h.digitCount hne,
      Numeral.namedExponent]
    omega
  · rw [← lt_digitCount_iff (by omega)]
    omega
  · rw [← digitCount_le_iff (by omega)]
    omega
  · unfold Word.Fits Word.least Word.greatest at *
    omega

variable {e : Nat}

theorem Represents.moved_fits (h : Represents x n) (hle : 10 ^ e ≤ n) :
    Word.Fits (x.scale + e) := by
  have hpos : 0 < 10 ^ e := by positivity
  have hcount : e < Integer.digitCount n := by
    obtain rfl | he := Nat.eq_zero_or_pos e
    · exact digitCount_pos n
    · exact (lt_digitCount_iff he).2 hle
  have hfits := h.unscaled_fits (by omega)
  have hscale := x.scale_fits
  unfold Word.Fits at *
  omega

theorem Represents.count (h : Represents x n) (hle : 10 ^ e ≤ n) :
    (x.movePoint (-e)).wholePart.toRat = (n / 10 ^ e : Nat) := by
  have hmoved : (x.movePoint (-e)).toRat = ((n : Int) : ℚ) / ((10 ^ e : Nat) : Int) := by
    rw [toRat_movePoint (by rw [sub_neg_eq_add]; exact h.moved_fits hle), h.value, zpow_neg,
      zpow_natCast, div_eq_mul_inv]
    norm_cast
  rw [toRat_wholePart, hmoved, truncate_div]
  norm_cast

theorem scale_wholePart (x : Decimal) : x.wholePart.scale = min x.scale 0 := by
  unfold wholePart
  split
  · omega
  · split
    · change (0 : Int) = _
      omega
    · change (0 : Int) = _
      omega

/-- What a power leaves of a number. -/
def withoutGroup (x : Decimal) (e : Nat) : Decimal :=
  x - (x.movePoint (-e)).wholePart.movePoint e

theorem Represents.scale_count (h : Represents x n) (hle : 10 ^ e ≤ n) :
    (x.movePoint (-e)).wholePart.scale - e = min x.scale (-e) := by
  have hmoved : (x.movePoint (-e)).scale = x.scale + e := by
    rw [movePoint, scale_ofScaled, sub_neg_eq_add, Word.saturate_of_fits (h.moved_fits hle)]
  rw [scale_wholePart, hmoved]
  omega

theorem Represents.count_fits (h : Represents x n) (hle : 10 ^ e ≤ n) (hfits : Word.Fits e) :
    Word.Fits ((x.movePoint (-e)).wholePart.scale - e) := by
  have hscale := x.scale_fits
  rw [h.scale_count hle]
  unfold Word.Fits Word.least Word.greatest at *
  omega

theorem Represents.scale_withoutGroup (h : Represents x n) (hle : 10 ^ e ≤ n)
    (hfits : Word.Fits e) : (withoutGroup x e).scale = x.scale := by
  change Word.saturate (max x.scale (Word.saturate _)) = _
  rw [Word.saturate_of_fits (h.count_fits hle hfits), h.scale_count hle,
    max_eq_left (min_le_left _ _), Word.saturate_of_fits x.scale_fits]

theorem Represents.withoutGroup (h : Represents x n) (hle : 10 ^ e ≤ n) (hfits : Word.Fits e) :
    Represents (withoutGroup x e) (n % 10 ^ e) := by
  have hn : n ≠ 0 := fun hzero => by simp [hzero] at hle
  have hsplit : ((n / 10 ^ e : Nat) : ℚ) * 10 ^ e + (n % 10 ^ e : Nat) = n := by
    exact_mod_cast Nat.div_add_mod' n (10 ^ e)
  have hcount := digitCount_mono (Nat.mod_le n (10 ^ e))
  have hnumber := h.number_fits hn
  have hunscaled := h.unscaled_fits hn
  refine ⟨?_, fun _ => by omega, fun _ => by rw [h.scale_withoutGroup hle hfits]; omega⟩
  rw [Numeral.withoutGroup, toRat_sub, toRat_movePoint (h.count_fits hle hfits), h.count hle, h.value,
    zpow_natCast]
  linear_combination -hsplit

/-- A digit of the unscaled integer goes with the power. -/
theorem Represents.digitCount_withoutGroup (h : Represents x n) (hle : 10 ^ e ≤ n)
    (hfits : Word.Fits e) (hne : n % 10 ^ e ≠ 0) :
    (Numeral.withoutGroup x e).digitCount < x.digitCount := by
  have he : 0 < e := Nat.pos_of_ne_zero fun hzero => hne (by rw [hzero, pow_zero, Nat.mod_one])
  have hlonger : e < Integer.digitCount n := (lt_digitCount_iff he).2 hle
  have hshorter : Integer.digitCount (n % 10 ^ e) ≤ e :=
    (digitCount_le_iff he).2 (Nat.mod_lt _ (by positivity))
  have hx := h.digitCount (by omega)
  have hrest := (h.withoutGroup hle hfits).digitCount hne
  rw [h.scale_withoutGroup hle hfits] at hrest
  omega

/-- A number below the limit of the vocabulary is spelled as such. -/
theorem smallCount_of_value (h : x.toRat = n) (hn : n ≠ 0) (hlt : n < 10 ^ 9) :
    smallCount x = .ok n := by
  have hfits : Word.Fits (n : Int) := by
    unfold Word.Fits Word.least Word.greatest
    omega
  have hzero : x.ZeroWithin := zeroWithin_of_ne (by rw [h]; exact_mod_cast hn)
  have hword : x.toWord? = some (n : Int) :=
    (toWord?_eq_some_iff hzero).2 ⟨by rw [h, Int.cast_natCast], hfits⟩
  rw [smallCount, hword]

/-! ## Spelling -/

theorem isZero_iff_of_value (h : x.toRat = n) : x.isZero = true ↔ n = 0 := by
  rw [isZero_iff, h, Nat.cast_eq_zero]

/-- A whole number is spelled by its digits. Every power takes a digit off the unscaled integer, so the
limit is not reached. -/
theorem yields_groupWords_digits {limit : Nat} (h : Represents x n)
    (hlimit : n ≠ 0 → x.digitCount ≤ limit) :
    Yields (groupWords limit x) ((thousandDigits n).flatMap digitNames) := by
  induction limit generalizing x n with
  | zero =>
    have hn : n = 0 := by
      by_contra hn
      have hpos : 0 < x.digitCount := digitCount_pos _
      have := hlimit hn
      omega
    rw [hn, thousandDigits_zero]
    exact yields_pure _
  | succ limit ih =>
    rw [groupWords]
    by_cases hlarge : 10 ^ 9 ≤ n
    · obtain ⟨index, hexponent, hle, hlt, hfits⟩ := h.namedExponent hlarge
      have hpower : 10 ^ ((index + 1) * 3) = 1000 ^ (index + 1) := by
        rw [pow_mul']
        norm_num
      have hpos : 0 < 10 ^ ((index + 1) * 3) := by positivity
      have hcount : n / 10 ^ ((index + 1) * 3) ≠ 0 := (Nat.div_pos hle hpos).ne'
      have hsmall : n / 10 ^ ((index + 1) * 3) < 1000 :=
        Nat.div_lt_of_lt_mul (by rwa [pow_add] at hlt)
      -- the group takes the leading digits off, so the limit of the rest is one less
      have hrest := ih (h.withoutGroup hle hfits) fun hne => by
        have hshorter := h.digitCount_withoutGroup hle hfits hne
        have hlonger := hlimit (by omega)
        omega
      have hnames : (thousandDigits n).flatMap digitNames =
          smallWords (n / 10 ^ ((index + 1) * 3)) ++ powerName index ::
            (thousandDigits (n % 10 ^ ((index + 1) * 3))).flatMap digitNames := by
        rw [hpower] at hle hsmall ⊢
        exact digitNames_group hle hsmall
      rw [if_pos ((vocabularyLimit_le_iff h.value).2 hlarge), hnames]
      simp only [hexponent]
      rw [smallCount_of_value (h.count hle) hcount (by omega)]
      exact yields_ok.bind (yields_nameOfPower.bind (hrest.bind (yields_pure _)))
    · rw [if_neg (mt (vocabularyLimit_le_iff h.value).1 hlarge)]
      rw [← smallWords_eq_digitNames (by omega)]
      by_cases hn : n = 0
      · rw [if_pos ((isZero_iff_of_value h.value).2 hn), hn, smallWords_zero]
        exact yields_pure _
      · rw [if_neg (mt (isZero_iff_of_value h.value).1 hn),
          smallCount_of_value h.value hn (by omega)]
        exact yields_ok.bind (yields_pure _)

theorem represents_of_exponentFits (h : x.toRat = n) (hfits : x.ExponentFits) : Represents x n := by
  have hcount (hn : n ≠ 0) : Word.Fits (Integer.digitCount n + x.scale) ∧
      Word.Fits (Integer.digitCount n - 1) := by
    have hx : x.unscaled ≠ 0 := by
      rw [ne_eq, ← toRat_eq_zero, h]
      exact_mod_cast hn
    have hdigits := digitCount_of_toRat (n := (n : Int)) hx (by simpa using h)
    have hwords := hfits hx
    rw [Int.natAbs_natCast] at hdigits
    rw [hdigits] at hwords
    exact ⟨hwords.1, by convert hwords.2 using 1; ring⟩
  exact ⟨h, fun hn => (hcount hn).2.2, fun hn => (hcount hn).1.2⟩

/-- A whole number is spelled by its digits in base one thousand, whichever representation it is given
in and whatever names are remembered. The powers fall from group to group, and each has a count from
one to 999 in front. -/
theorem wholeWords_eq_wholeNames (x : Decimal) (n : Nat) (hvalue : x.toRat = n)
    (hfits : x.ExponentFits) :
    Yields (wholeWords x) (wholeNames n) ∧
    ((thousandDigits n).Pairwise fun first second => second.2 < first.2) ∧
    ∀ digit ∈ thousandDigits n, 1 ≤ digit.1 ∧ digit.1 ≤ 999 := by
  refine ⟨?_, thousandDigits_places n, fun digit hdigit => ?_⟩
  · unfold wholeWords wholeNames
    by_cases hn : n = 0
    · rw [if_pos ((isZero_iff_of_value hvalue).2 hn), if_pos hn]
      exact yields_pure _
    · rw [if_neg (mt (isZero_iff_of_value hvalue).1 hn), if_neg hn]
      exact yields_groupWords_digits (represents_of_exponentFits hvalue hfits) fun _ => Nat.le_succ _
  · have hbounds := mem_thousandDigits hdigit
    omega

/-- A number with an empty group, given with three digits behind its point. -/
theorem wholeWords_eq_wholeNames_billions :
    let x : Decimal := ofScaled 12000000345000 3
    x.toRat = (12000000345 : Nat) ∧ x.ExponentFits ∧
      Yields (wholeWords x) ["Twelve", "Billion", "Three", "Hundred", "Forty", "Five"] ∧
      ((thousandDigits 12000000345).Pairwise fun first second => second.2 < first.2) ∧
      ∀ digit ∈ thousandDigits 12000000345, 1 ≤ digit.1 ∧ digit.1 ≤ 999 := by
  intro x
  have hvalue : x.toRat = (12000000345 : Nat) := by
    rw [toRat_ofScaled _ (by decide)]
    norm_num
  have hfits : x.ExponentFits := by decide +kernel
  have hnames : wholeNames 12000000345 =
      ["Twelve", "Billion", "Three", "Hundred", "Forty", "Five"] := by decide +kernel
  obtain ⟨hwords, hplaces, hcounts⟩ := wholeWords_eq_wholeNames x 12000000345 hvalue hfits
  exact ⟨hvalue, hfits, hnames ▸ hwords, hplaces, hcounts⟩

end Reckoner.Numeral
