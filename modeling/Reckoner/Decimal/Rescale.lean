import Reckoner.ArithmeticError
import Reckoner.Decimal.Basic
import Reckoner.Rounding

/-!
# Changing the scale

Stripping trailing zeros, fixing the number of fractional or of significant digits, and
splitting a value into its whole part and its fraction.
-/

namespace Reckoner.Decimal

open Integer

/-! ## Trailing zeros -/

/-- Takes trailing zeros off an unscaled integer while the scale stays above `lowest`. -/
def stripZeros (lowest unscaled scale : Int) : Int × Int :=
  if unscaled ≠ 0 ∧ lowest < scale ∧ unscaled.tmod 10 = 0 then
    stripZeros lowest (unscaled.tdiv 10) (scale - 1)
  else (unscaled, scale)
termination_by unscaled.natAbs
decreasing_by
  rw [Int.natAbs_tdiv]
  exact Nat.div_lt_self (by omega) (by decide)

/-- Strips trailing zeros while the scale is above `lowest`. Zero becomes plain zero. -/
def strip (x : Decimal) (lowest : Int) : Decimal :=
  if x.isZero then 0
  else
    let (unscaled, scale) := stripZeros lowest x.unscaled x.scale
    ofScaled unscaled scale

/-- The representation without any trailing zero. -/
def canonical (x : Decimal) : Decimal := x.strip Word.least

/-! ## Powers of ten that are written out -/

/-- The greatest number of zeros that is ever appended to align two scales. -/
def shiftLimit : Nat := 1000000

/-- A power of ten within the shift limit. -/
def shiftFactor (places : Nat) : Arithmetic Nat :=
  if shiftLimit < places then .error .exponentTooLarge else .ok (pow10 places)

theorem shiftFactor_eq_ok {places : Nat} (h : places ≤ 1000000) :
    shiftFactor places = .ok (pow10 places) := if_neg (Nat.not_lt.2 h)

theorem shiftFactor_eq_error {places : Nat} (h : 1000000 < places) :
    shiftFactor places = .error .exponentTooLarge := if_pos h

/-! ## Rounding -/

/-- The value at exactly the scale `scale`. To drop more digits than the value has decides
like dropping one more than it has, so no power beyond that is written out. -/
def rescale (x : Decimal) (scale : Int) (mode : Rounding) : Arithmetic Decimal :=
  if scale = x.scale then .ok x
  else if x.scale < scale then do
    let factor ← shiftFactor (scale - x.scale).natAbs
    return ofScaled (x.unscaled * factor) scale
  else
    let dropped := min (scale - x.scale).natAbs (x.digitCount + 1)
    .ok (ofScaled (mode.quotient x.unscaled (pow10 dropped)) scale)

/-- Rounds to at most `digits` significant digits. -/
def roundTo (x : Decimal) (digits : Nat) (mode : Rounding) : Decimal :=
  if x.isZero || decide (x.digitCount ≤ digits) then x
  else
    let dropped := x.digitCount - digits
    let rounded := ofScaled (mode.quotient x.unscaled (pow10 dropped)) (x.scale - dropped)
    -- Nines can carry into a new digit; then the last digit is a zero and goes.
    if digits < rounded.digitCount then
      ofScaled (rounded.unscaled.tdiv 10) (rounded.scale - 1)
    else rounded

/-! ## Whole part and fraction -/

/-- Whether the scale reaches past every digit, so that the value is below one tenth. -/
def isBelowUnit (x : Decimal) : Bool := decide (x.digitCount + 1 ≤ x.scale.natAbs)

/-- The whole part, toward zero. -/
def wholePart (x : Decimal) : Decimal :=
  if x.scale ≤ 0 then x
  else if x.isBelowUnit then 0
  else ofInt (x.unscaled.tdiv (pow10 x.scale.natAbs))

/-- What the whole part leaves, with the sign of the value. -/
def fractionPart (x : Decimal) : Decimal :=
  if x.scale ≤ 0 then 0
  else if x.isBelowUnit then x
  else { x with unscaled := x.unscaled.tmod (pow10 x.scale.natAbs) }

def isWhole (x : Decimal) : Bool :=
  x.isZero || decide (x.scale ≤ 0) ||
    (decide (x.scale.natAbs < x.digitCount) && x.unscaled.tmod (pow10 x.scale.natAbs) == 0)

/-- The value as an integer, if it is whole and not too long to be written out. -/
def toInt? (x : Decimal) : Option Int :=
  if !x.isWhole then none
  else if x.scale ≤ 0 then
    if shiftLimit < x.scale.natAbs then none else some (x.unscaled * pow10 x.scale.natAbs)
  else some (x.unscaled.tdiv (pow10 x.scale.natAbs))

/-- The value as a signed word. -/
def toWord? (x : Decimal) : Option Int :=
  if 19 < x.wholeDigits then none
  else x.toInt?.filter fun n => decide (Word.Fits n)

/-- The remainder after a quotient cut off toward zero; its sign is the dividend's. -/
def remainder (x y : Decimal) : Arithmetic Decimal :=
  if y.isZero then .error .divisionByZero
  else do
    let scale := max x.scale y.scale
    let left ← shiftFactor (scale - x.scale).natAbs
    let right ← shiftFactor (scale - y.scale).natAbs
    return ofScaled ((x.unscaled * left).tmod (y.unscaled * right)) scale

end Reckoner.Decimal
