import Reckoner.Expression.Grammar
import Reckoner.Proofs.Reading.Runs

/-!
# What a production has read

Where a production succeeds, the characters that it took tell which of its forms was read.
-/

namespace Reckoner.Grammar

open Reading

variable {settings : Settings} {state last : State} {value : Decimal}

/-! ## Levels -/

theorem factor_zero : factor 0 = tooDeep := by
  funext settings state
  rw [factor]

theorem factor_succ (levels : Nat) :
    factor (levels + 1) =
      factorWithin (levels + 1) (factor levels) (statement levels ',') := by
  funext settings state
  rw [factor]

/-- The statement inside a group that is entered with `levels` levels left. -/
def groupStatement : Nat → Reading Bool
  | 0 => tooDeep
  | inner + 1 => statement inner ')'

theorem statement_eq (levels : Nat) (stop : Char) :
    statement levels stop =
      conditions stop (condition levels (factor levels) (groupStatement levels)) := by
  funext settings state
  cases levels with
  | zero => rw [statement, factor_zero, groupStatement]
  | succ inner => rw [statement, factor_succ, groupStatement]

/-! ## Combinators -/

theorem nested_eq_done {α : Type} {levels : Nat} {reading : Reading α} {value : α} :
    nested levels reading settings state = .done value last ↔
      state.lost < levels ∧ reading settings state = .done value last := by
  unfold nested tooDeep
  split <;> simp [*]

theorem accept_eq_done {c : Char} {taken : Bool} :
    accept c settings state = .done taken last ↔
      (∃ cursor, state.cursor.accept? c = some cursor ∧ taken = true ∧
        last = { state with cursor }) ∨
      (state.cursor.ahead ≠ .at c ∧ taken = false ∧ last = state) := by
  constructor
  · intro h
    cases taken with
    | true =>
      obtain ⟨cursor, hc, hlast⟩ := accept_eq_true h
      exact .inl ⟨cursor, hc, rfl, hlast⟩
    | false => exact .inr ⟨(accept_eq_false h).1, rfl, (accept_eq_false h).2⟩
  · rintro (⟨cursor, hc, rfl, rfl⟩ | ⟨hahead, rfl, rfl⟩)
    · exact accept_takes hc
    · exact accept_refuses hahead

theorem acceptThen_eq_done {α : Type} {c : Char} {yes no : Reading α} {value : α} :
    (accept c >>= fun taken => if taken then yes else no) settings state = .done value last ↔
      (∃ cursor, state.cursor.accept? c = some cursor ∧
        yes settings { state with cursor } = .done value last) ∨
      (state.cursor.ahead ≠ .at c ∧ no settings state = .done value last) := by
  rw [bind_eq_done]
  constructor
  · rintro ⟨taken, mid, ha, h⟩
    rcases accept_eq_done.1 ha with ⟨cursor, hc, rfl, rfl⟩ | ⟨hahead, rfl, rfl⟩
    · exact .inl ⟨cursor, hc, h⟩
    · exact .inr ⟨hahead, h⟩
  · rintro (⟨cursor, hc, h⟩ | ⟨hahead, h⟩)
    · exact ⟨true, _, accept_takes hc, h⟩
    · exact ⟨false, _, accept_refuses hahead, h⟩

theorem enclosed_eq_done {α : Type} {phrase : Reading α} {value : α} :
    enclosed phrase settings state = .done value last ↔
      ∃ mid cursor, phrase settings state = .done value mid ∧
        mid.cursor.accept? ')' = some cursor ∧ last = { mid with cursor } := by
  unfold enclosed
  rw [bind_eq_done]
  constructor
  · rintro ⟨_, mid, hp, h⟩
    obtain ⟨_, closed, hc, h⟩ := bind_eq_done.1 h
    obtain ⟨cursor, ha, rfl⟩ := expect_eq_done hc
    rw [pure_run, Outcome.done.injEq] at h
    obtain ⟨rfl, rfl⟩ := h
    exact ⟨mid, cursor, hp, ha, rfl⟩
  · rintro ⟨mid, cursor, hp, ha, rfl⟩
    exact ⟨value, mid, hp, bind_eq_done.2 ⟨(), _, expect_takes ha, rfl⟩⟩

/-! ## Factors -/

theorem not_beginsNumber_of_isAlpha {c : Char} (h : c.isAlpha) : beginsNumber c = false := by
  have hletter : 'A'.val ≤ c.val := by
    obtain h | h := Bool.or_eq_true_iff.1 h
    · exact (of_decide_eq_true h : 'A'.val ≤ c.val ∧ c.val ≤ 'Z'.val).1
    · have : 'A'.val ≤ 'a'.val := by decide
      exact UInt32.le_trans this (of_decide_eq_true (Bool.and_eq_true_iff.1 h).1)
  have hdigit : c.isDigit = false := by
    have : '9'.val < 'A'.val := by decide
    simp only [Char.isDigit, Bool.and_eq_false_iff, decide_eq_false_iff_not, UInt32.not_le]
    exact .inr (UInt32.lt_of_lt_of_le this hletter)
  have hpoint : c ≠ '.' := by rintro rfl; exact absurd h (by decide)
  simp [beginsNumber, hdigit, hpoint]

theorem parenthesis_begins_nothing : beginsNumber '(' = false ∧ '('.isAlpha = false := by
  decide

section

variable {factor : Reading Decimal} {statement : Reading Bool}

theorem operand_eq_done {start : Cursor} :
    operand factor statement start settings state = .done value last ↔
      ∃ c, start.current = .at c ∧
        (beginsNumber c ∧ number settings state = .done value last ∨
          c.isAlpha ∧ call factor statement settings state = .done value last) := by
  unfold operand
  cases start.current with
  | beforeStart => simp [failAt]
  | pastEnd => simp [failAt]
  | «at» c =>
    simp only [Spot.at.injEq, exists_eq_left']
    by_cases hnumber : beginsNumber c
    · have halpha : ¬c.isAlpha := fun h => by simp [not_beginsNumber_of_isAlpha h] at hnumber
      simp [hnumber, halpha]
    · by_cases halpha : c.isAlpha
      · simp [hnumber, halpha]
      · rw [if_neg hnumber, if_neg halpha]
        by_cases hplaceholder : c == '$' <;> simp [hnumber, halpha, hplaceholder, failAt]

theorem primary_eq_done :
    primary factor statement settings state = .done value last ↔
      (∃ cursor, state.cursor.accept? '(' = some cursor ∧
        enclosed (expression factor) settings { state with cursor } = .done value last) ∨
      (∃ c, state.cursor.ahead = .at c ∧
        (beginsNumber c ∧ number settings { state with cursor := state.cursor.passSpaces } =
            .done value last ∨
          c.isAlpha ∧ call factor statement settings
            { state with cursor := state.cursor.passSpaces } = .done value last)) := by
  unfold primary
  rw [acceptThen_eq_done]
  refine or_congr Iff.rfl ?_
  change _ ∧ operand factor statement state.cursor.passSpaces settings _ = _ ↔ _
  rw [operand_eq_done]
  change _ ∧ (∃ c, state.cursor.ahead = .at c ∧ _) ↔ _
  constructor
  · exact fun h => h.2
  · refine fun h => ⟨fun hparenthesis => ?_, h⟩
    obtain ⟨c, hc, h⟩ := h
    rw [hparenthesis, Spot.at.injEq] at hc
    subst hc
    exact absurd h (by simp [parenthesis_begins_nothing])

theorem factorWithin_eq_done {levels : Nat} :
    factorWithin levels factor statement settings state = .done value last ↔
      state.lost < levels ∧
        ((∃ cursor, state.cursor.accept? '+' = some cursor ∧
          factor settings { state with cursor } = .done value last) ∨
        (state.cursor.ahead ≠ .at '+' ∧
          ((∃ cursor, state.cursor.accept? '-' = some cursor ∧
            ∃ x, factor settings { state with cursor } = .done x last ∧ -x = value) ∨
          (state.cursor.ahead ≠ .at '-' ∧
            ∃ x mid, primary factor statement settings state = .done x mid ∧
              withTail factor x settings mid = .done value last)))) := by
  unfold factorWithin
  rw [nested_eq_done, acceptThen_eq_done]
  refine and_congr_right' (or_congr_right (and_congr_right' ?_))
  rw [acceptThen_eq_done, bind_eq_done]
  refine or_congr (exists_congr fun cursor => and_congr_right' ?_) Iff.rfl
  rw [bind_eq_done]
  simp [pure_run]

end

end Reckoner.Grammar
