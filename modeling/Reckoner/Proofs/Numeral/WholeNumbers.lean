import Reckoner.Proofs.Numeral.Groups
import Reckoner.Proofs.Numeral.Scanning

/-!
# Whole numbers are read back

The names of a whole number that is not too long are read as that number, exactly.
-/

namespace Reckoner.Numeral

open Decimal

/-- Names that are read as a whole number, in any letter case. -/
structure NamesWhole (names : List String) (total : Decimal) : Prop where
  plain : ∀ name ∈ names, IsPlainWord name.toList
  reads (words : List (List Char)) :
    words.map Text.lower = names.map (fun name => Text.lower name.toList) →
    Yields (readWhole words) total

theorem CountName.isPlainWord {name : String} (h : CountName name) : IsPlainWord name.toList :=
  { isWordText_of_letters h.nonempty h.letters with
    plain := ⟨fun heq => h.plain (by simp [heq, specialWords]),
      fun heq => h.plain (by simp [heq, specialWords])⟩ }

theorem namesWhole_zero : NamesWhole ["Zero"] 0 := by
  constructor
  · have hletters : "Zero".toList.all Char.isAlpha := by decide
    intro name hname
    rw [List.mem_singleton.1 hname]
    exact ⟨isWordText_of_letters (by decide) (List.all_eq_true.1 hletters), by decide⟩
  · intro words hwords
    obtain ⟨only, rfl, honly⟩ := List.map_eq_singleton_iff.1 hwords
    have hzero : isWord "zero" only = true := by
      rw [isWord, Text.sameLetters, honly]
      decide
    rw [readWhole, if_pos hzero]
    exact yields_pure _

/-- Names that are counted are read together. Only the name of zero is read by itself. -/
theorem Steps.yields_readWhole {names : List String} {total : Decimal} {count : Nat}
    {words : List (List Char)} (h : Steps names (0, 0) (total, count)) (hnames : names ≠ [])
    (hwords : words.map Text.lower = names.map fun name => Text.lower name.toList) :
    Yields (readWhole words) (context.add total (ofNat count)) := by
  have hreads : Yields (readWords 0 0 words) _ := h.yields hwords
  cases words with
  | nil => exact absurd (by simpa using hwords.symm) hnames
  | cons word rest =>
    cases rest with
    | nil =>
      obtain ⟨name, rfl, hname⟩ := List.map_eq_singleton_iff.1 hwords.symm
      have hplain := (h.countName name List.mem_cons_self).plain
      have hzero : isWord "zero" word = false := by
        rw [isWord, Text.sameLetters, ← hname]
        refine beq_eq_false_iff_ne.2 fun heq => hplain ?_
        rw [heq]
        decide
      rw [readWhole, hzero, if_neg (by decide)]
      exact hreads
    | cons next rest => exact hreads

/-- Names that take zero to a number other than zero are read as it. -/
theorem Adds.namesWhole {names : List String} {n j : Nat} (h : Adds names n j) (hpos : n ≠ 0)
    (hdvd : 10 ^ j ∣ n) (hlong : n < 10 ^ (context.precision + j))
    (hj : Word.least ≤ -(j : Int)) : ∃ total, NamesWhole names total ∧ Totals total n := by
  obtain ⟨total, a, count, hsteps, htotal, ha, hsum⟩ :=
    h 0 0 (totals_ofNat 0) (dvd_zero _) (by omega)
  rw [zero_add] at hsum
  have hcount : 10 ^ j ∣ count := by
    rw [← hsum] at hdvd
    exact (Nat.dvd_add_right ha).1 hdvd
  have hnames : names ≠ [] := by
    rintro rfl
    -- no names add nothing
    cases hsteps
    have hzero : (a : ℚ) = 0 := htotal.value.symm.trans toRat_zero
    rw [Nat.cast_eq_zero] at hzero
    omega
  refine ⟨context.add total (ofNat count), ⟨fun name hname => ?_, fun words hwords => ?_⟩, ?_⟩
  · exact (hsteps.countName name hname).isPlainWord
  · exact hsteps.yields_readWhole hnames hwords
  · rw [← hsum]
    exact htotal.add (totals_ofNat count) ha hcount (by omega) hj

/-- A whole number that is not too long is spelled by names that are read as it. -/
theorem yields_wholeWords {x : Decimal} {u j : Nat} (h : Padded x u j)
    (hu : u < 10 ^ context.precision)
    (hsize : (Integer.digitCount u + j : Int) ≤ Word.greatest + 2) :
    ∃ names total, Yields (wholeWords x) names ∧ NamesWhole names total ∧
      Totals total (u * 10 ^ j) := by
  by_cases hzero : u = 0
  · have hx : x.isZero = true := by rw [isZero, h.unscaled, hzero]; rfl
    refine ⟨["Zero"], 0, ?_, namesWhole_zero, ?_⟩
    · rw [wholeWords, if_pos hx]
      exact yields_pure _
    · rw [hzero, zero_mul]
      exact totals_ofNat 0
  have hx : x.isZero = false := by
    rw [isZero, h.unscaled]
    exact beq_eq_false_iff_ne.2 (by exact_mod_cast hzero)
  have hlimit : u < 10 ^ x.digitCount := by
    rw [h.digitCount]
    exact Integer.lt_pow10_digitCount u
  obtain ⟨names, hnames, hadds⟩ := yields_groupWords h hlimit hsize
  have hlong : u * 10 ^ j < 10 ^ (context.precision + j) := by
    rw [pow_add]
    exact Nat.mul_lt_mul_of_pos_right hu (by positivity)
  have hpos : u * 10 ^ j ≠ 0 := mul_ne_zero hzero (by positivity)
  obtain ⟨total, hwhole, htotal⟩ :=
    hadds.namesWhole hpos (Dvd.intro_left u rfl) hlong h.least_le
  refine ⟨names, total, ?_, hwhole, htotal⟩
  rw [wholeWords, hx, if_neg (by decide)]
  exact hnames

end Reckoner.Numeral
