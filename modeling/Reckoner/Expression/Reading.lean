import Reckoner.Text.Cursor
import Reckoner.Decimal.Rescale
import Reckoner.Expression.Error
import Reckoner.Context.Basic

/-!
# Readings

A reading takes a phrase off a text and computes its value on the way. It moves a cursor and
keeps count of nesting levels that were lost: a phrase that fails for being nested too deep
leaves one level less to whatever is read instead of it.
-/

namespace Reckoner

/-- What does not change while a text is read. -/
structure Settings where
  context : Context
  /-- How deep phrases may nest. -/
  maxDepth : Nat

/-- Where a reading stands. -/
structure State where
  cursor : Cursor
  /-- The nesting levels that failed phrases have lost. -/
  lost : Nat
  /-- Whether phrases are read without being computed. -/
  skipping : Bool
  deriving DecidableEq

inductive Outcome (α : Type) where
  | done (value : α) (state : State)
  | failed (error : EvalError) (state : State)
  deriving DecidableEq

def Reading (α : Type) : Type := Settings → State → Outcome α

namespace Reading

variable {α : Type}

instance : Monad Reading where
  pure value := fun _ state => .done value state
  bind reading next := fun settings state =>
    match reading settings state with
    | .done value state => next value settings state
    | .failed error state => .failed error state

/-! ## Characters -/

/-- The cursor as it stands. -/
def cursor : Reading Cursor := fun _ state => .done state.cursor state

/-- Fails at the character under a cursor, which need not be the present one. -/
def failAt (fault : Fault) (place : Cursor) : Reading α :=
  fun _ state => .failed (.unreadable ⟨fault, place.position⟩) state

/-- Takes a character, if it comes next. -/
def accept (target : Char) : Reading Bool := fun _ state =>
  match state.cursor.accept? target with
  | some cursor => .done true { state with cursor }
  | none => .done false state

def peek : Reading Spot := fun _ state => .done state.cursor.peek state

def passSpaces : Reading Unit := fun _ state =>
  .done () { state with cursor := state.cursor.passSpaces }

def takeWhile (p : Char → Bool) : Reading (List Char) := fun _ state =>
  let (taken, cursor) := state.cursor.takeWhile p
  .done taken { state with cursor }

/-- Fails at the next character. -/
def failNext (fault : Fault) : Reading α := do
  passSpaces
  failAt fault (← cursor)

/-- Takes a character, or fails where it should be. -/
def expect (target : Char) (fault : Fault) : Reading Unit := do
  if !(← accept target) then failNext fault

def closeParenthesis : Reading Unit := expect ')' .unmatchedParenthesis

/-! ## Computing -/

/-- Computes a value; while skipping, zero stands for it. -/
def calculate (operation : Context → Arithmetic Decimal) : Reading Decimal :=
  fun settings state =>
    if state.skipping then .done 0 state
    else
      match operation settings.context with
      | .ok value => .done value state
      | .error error => .failed (.arithmetic error) state

/-- Reads a branch, which is computed only if it is taken. What follows it is computed or skipped
as before. -/
def branch (taken : Bool) (reading : Reading α) : Reading α := fun settings state =>
  match reading settings { state with skipping := state.skipping || !taken } with
  | .done value after => .done value { after with skipping := state.skipping }
  | .failed error after => .failed error { after with skipping := state.skipping }

/-! ## Nesting -/

/-- Fails for being nested too deep, and loses a level. -/
def tooDeep : Reading α := fun settings state =>
  .failed (.unreadable ⟨.nestingTooDeep settings.maxDepth, state.cursor.position⟩)
    { state with lost := state.lost + 1 }

/-- Enters a phrase with `levels` levels left above it, of which some may be lost. -/
def nested (levels : Nat) (reading : Reading α) : Reading α := fun settings state =>
  if state.lost < levels then reading settings state else tooDeep settings state

/-! ## Repetition -/

/-- Takes steps until one says to stop, at most one for each character of a text. -/
def iterateAlong (step : α → Reading (Option α)) : List Char → α → Reading α
  | [], value => pure value
  | _ :: text, value => do
    match ← step value with
    | some value => iterateAlong step text value
    | none => return value

/-- Takes steps until one says to stop. Every other step takes a character of the text, so
there are not more of them than characters left. -/
def iterate (step : α → Reading (Option α)) (value : α) : Reading α :=
  fun settings state => iterateAlong step state.cursor.place.rest value settings state

/-- Reads `first`, unless it fails or what follows it is not accepted; then the text is read
again from the same place as `second`. -/
def orElse (first : Reading α) (accepted : Cursor → Bool) (second : Reading α) : Reading α :=
  fun settings state =>
    match first settings state with
    | .done value after =>
      if accepted after.cursor then .done value after
      else second settings { after with cursor := state.cursor }
    | .failed _ after => second settings { after with cursor := state.cursor }

end Reading

end Reckoner
