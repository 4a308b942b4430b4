import Mathlib.Tactic
import Reckoner.Expression.Reading

/-!
# Runs of readings

What a single run of a composed reading says about the runs of its parts, and when the
elementary readings take a character.
-/

namespace Reckoner

/-! ## What a cursor accepts -/

namespace Cursor

/-- What stands under the cursor when it looks for a character. -/
def ahead (cursor : Cursor) : Spot := cursor.passSpaces.place.spot

theorem accept?_eq_some {cursor : Cursor} {c : Char} (h : cursor.ahead = .at c) :
    ∃ after, cursor.accept? c = some after := by
  unfold ahead at h
  unfold accept?
  cases hp : cursor.passSpaces.place with
  | beforeStart text => rw [hp] at h; simp [Place.spot] at h
  | pastEnd behind => rw [hp] at h; simp [Place.spot] at h
  | on behind current rest =>
    rw [hp] at h
    simp only [Place.spot, Spot.at.injEq] at h
    simp [hp, h]

theorem accept?_eq_none {cursor : Cursor} {c : Char} (h : cursor.ahead ≠ .at c) :
    cursor.accept? c = none := by
  unfold ahead at h
  unfold accept?
  cases hp : cursor.passSpaces.place with
  | beforeStart text => simp [hp]
  | pastEnd behind => simp [hp]
  | on behind current rest =>
    rw [hp] at h
    simp only [Place.spot, ne_eq, Spot.at.injEq] at h
    simp [hp, h]

theorem ahead_of_accept? {cursor after : Cursor} {c : Char} (h : cursor.accept? c = some after) :
    cursor.ahead = .at c := by
  by_contra hne
  rw [accept?_eq_none hne] at h
  exact absurd h (by simp)

/-- A peek sees at least what would be accepted. -/
theorem peek_of_ahead {cursor : Cursor} {c : Char} (h : cursor.ahead = .at c) :
    cursor.peek = .at c := by
  unfold ahead passSpaces at h
  unfold peek
  split at h
  · simp [*]
  · cases hp : cursor.place <;> simp_all [Place.spot, Place.enter]

end Cursor

namespace Reading

variable {α β : Type} {settings : Settings} {state after : State}

/-! ## Sequences -/

theorem bind_run (reading : Reading α) (next : α → Reading β) (settings : Settings)
    (state : State) :
    (reading >>= next) settings state =
      match reading settings state with
      | .done value mid => next value settings mid
      | .failed error mid => .failed error mid := rfl

theorem pure_run (value : α) (settings : Settings) (state : State) :
    (pure value : Reading α) settings state = .done value state := rfl

theorem bind_eq_done {reading : Reading α} {next : α → Reading β} {result : β} :
    (reading >>= next) settings state = .done result after ↔
      ∃ value mid, reading settings state = .done value mid ∧
        next value settings mid = .done result after := by
  rw [bind_run]
  cases reading settings state with
  | done value mid => simp [and_assoc]
  | failed error mid => simp

theorem bind_of_done {reading : Reading α} {next : α → Reading β} {value : α} {mid : State}
    (h : reading settings state = .done value mid) :
    (reading >>= next) settings state = next value settings mid := by
  rw [bind_run, h]

theorem bind_of_failed {reading : Reading α} {next : α → Reading β} {error : EvalError}
    {mid : State} (h : reading settings state = .failed error mid) :
    (reading >>= next) settings state = .failed error mid := by
  rw [bind_run, h]

/-! ## Characters -/

theorem accept_takes {c : Char} {cursor : Cursor} (h : state.cursor.accept? c = some cursor) :
    accept c settings state = .done true { state with cursor } := by
  simp [accept, h]

theorem accept_refuses {c : Char} (h : state.cursor.ahead ≠ .at c) :
    accept c settings state = .done false state := by
  simp [accept, Cursor.accept?_eq_none h]

theorem accept_eq_true {c : Char} (h : accept c settings state = .done true after) :
    ∃ cursor, state.cursor.accept? c = some cursor ∧ after = { state with cursor } := by
  unfold accept at h
  split at h
  · next cursor hc => exact ⟨cursor, hc, by simpa using h.symm⟩
  · simp at h

theorem accept_eq_false {c : Char} (h : accept c settings state = .done false after) :
    state.cursor.ahead ≠ .at c ∧ after = state := by
  unfold accept at h
  split at h
  · simp at h
  · next hc =>
    refine ⟨fun ha => ?_, by simpa using h.symm⟩
    obtain ⟨cursor, hs⟩ := Cursor.accept?_eq_some ha
    simp [hs] at hc

theorem expect_takes {c : Char} {fault : Fault} {cursor : Cursor}
    (h : state.cursor.accept? c = some cursor) :
    expect c fault settings state = .done () { state with cursor } := by
  rw [expect, bind_of_done (accept_takes h)]
  rfl

theorem expect_eq_done {c : Char} {fault : Fault} {value : Unit}
    (h : expect c fault settings state = .done value after) :
    ∃ cursor, state.cursor.accept? c = some cursor ∧ after = { state with cursor } := by
  rw [expect, bind_eq_done] at h
  obtain ⟨taken, mid, ha, h⟩ := h
  cases taken with
  | true =>
    obtain ⟨cursor, hc, rfl⟩ := accept_eq_true ha
    exact ⟨cursor, hc, by simpa [pure_run] using h.symm⟩
  | false => simp [failNext, bind_run, passSpaces, Reading.cursor, failAt] at h

/-! ## Repetition -/

theorem iterate_stops {step : α → Reading (Option α)} {value : α}
    (h : step value settings state = .done none after)
    (hrest : state.cursor.place.rest = [] → after = state) :
    iterate step value settings state = .done value after := by
  unfold iterate
  cases hr : state.cursor.place.rest with
  | nil => rw [iterateAlong, pure_run, hrest hr]
  | cons c text => rw [iterateAlong, bind_of_done h]; rfl

end Reading

end Reckoner
