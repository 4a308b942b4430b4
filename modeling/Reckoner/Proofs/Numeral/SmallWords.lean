import Reckoner.Numeral.Spelling
import Reckoner.Proofs.Numeral.Steps

/-!
# Numbers below a thousand

The words of a number below a thousand make up a count of that number again.
-/

namespace Reckoner.Numeral

open Decimal

variable {n count : Nat} {total : Decimal}

theorem smallWords_zero : smallWords 0 = [] := by
  have hnone : greatestUpTo? 0 = none := by decide
  rw [smallWords]
  split
  · rfl
  · next entry hentry => simp [hnone] at hentry

/-- The word of the greatest value, after the words for how often and before those of the rest. -/
theorem smallWords_eq {entry : NumberWord} (h : greatestUpTo? n = some entry) :
    smallWords n = (if 100 ≤ entry.value then smallWords (n / entry.value) else []) ++
      entry.word :: smallWords (n % entry.value) := by
  rw [smallWords]
  split
  · next hnone => simp [hnone] at h
  · next found hfound =>
    obtain rfl : found = entry := Option.some.inj (hfound.symm.trans h)
    by_cases hrest : 0 < n % found.value
    · rw [if_pos hrest]
    · rw [if_neg hrest, Nat.eq_zero_of_not_pos hrest, smallWords_zero]

theorem smallWords_great {word : String} {value : Nat}
    (h : greatestUpTo? n = some ⟨word, value⟩) (hvalue : 100 ≤ value) :
    smallWords n = smallWords (n / value) ++ word :: smallWords (n % value) := by
  rw [smallWords_eq h, if_pos hvalue]

/-- Below a hundred the words add up. -/
theorem steps_smallWords_add (h : n < 100) (hcount : count + n < 1000) :
    Steps (smallWords n) (total, count) (total, count + n) := by
  have hnone : ∀ n < 100, greatestUpTo? n = none → n = 0 := by decide
  have hhalf : ∀ n < 100, ∀ entry ∈ greatestUpTo? n, n < 2 * entry.value := by decide
  induction n using Nat.strongRecOn generalizing count with
  | ind n ih =>
    cases hentry : greatestUpTo? n with
    | none =>
      rw [hnone n h hentry, smallWords_zero]
      exact .nil _
    | some entry =>
      have hle := value_le_of_greatestUpTo? hentry
      have hlt := hhalf n h entry hentry
      have hpos := value_pos_of_greatestUpTo? hentry
      have hrest : n % entry.value = n - entry.value := by
        rw [Nat.mod_eq_sub_mod hle, Nat.mod_eq_of_lt (by omega)]
      have hword : Step entry.word (total, count) (total, count + entry.value) :=
        .unit (List.mem_of_find?_eq_some hentry) (by omega) (by omega)
      have hwords : Steps (smallWords (n - entry.value)) (total, count + entry.value)
          (total, count + entry.value + (n - entry.value)) :=
        ih (n - entry.value) (by omega) (by omega) (by omega)
      rw [show count + entry.value + (n - entry.value) = count + n by omega] at hwords
      rw [smallWords_eq hentry, if_neg (by omega), hrest]
      exact .cons hword hwords

theorem greatestUpTo?_hundred (h : 100 ≤ n) (hn : n < 1000) :
    greatestUpTo? n = some ⟨"Hundred", 100⟩ := by
  have hthousand : ¬ 1000 ≤ n := by omega
  have hmillion : ¬ 1000000 ≤ n := by omega
  simp [greatestUpTo?, vocabulary, h, hthousand, hmillion]

theorem steps_smallWords (h : n < 1000) : Steps (smallWords n) (total, 0) (total, n) := by
  have hnew {n : Nat} (h : n < 100) : Steps (smallWords n) (total, 0) (total, n) := by
    have hadd : Steps (smallWords n) (total, 0) (total, 0 + n) :=
      steps_smallWords_add h (by omega)
    rwa [zero_add] at hadd
  by_cases hhundred : n < 100
  · exact hnew hhundred
  · rw [smallWords_great (greatestUpTo?_hundred (not_lt.1 hhundred) h) le_rfl]
    have hback : Steps (smallWords (n % 100)) (total, n / 100 * 100)
        (total, n / 100 * 100 + n % 100) := steps_smallWords_add (by omega) (by omega)
    rw [show n / 100 * 100 + n % 100 = n by omega] at hback
    exact (hnew (by omega)).append (.cons (.hundred (by omega) (by omega)) hback)

end Reckoner.Numeral
