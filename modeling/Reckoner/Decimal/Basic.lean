import Reckoner.Word
import Reckoner.Integer.Digits

/-!
# Decimal numbers

A decimal is an integer and the place of its point: the value is `unscaled × 10 ^ (-scale)`.
One value has many representations, and the operations say which of them they return.
Sums and products are exact.
-/

namespace Reckoner

open Integer

structure Decimal where
  unscaled : Int
  scale : Int
  scale_fits : Word.Fits scale
  deriving DecidableEq

namespace Decimal

/-- A decimal whose scale stops at the ends of the word range. -/
def ofScaled (unscaled scale : Int) : Decimal :=
  ⟨unscaled, Word.saturate scale, Word.saturate_fits scale⟩

@[simp] theorem unscaled_ofScaled (u s : Int) : (ofScaled u s).unscaled = u := rfl

@[simp] theorem scale_ofScaled (u s : Int) : (ofScaled u s).scale = Word.saturate s := rfl

theorem ofScaled_eta (x : Decimal) : ofScaled x.unscaled x.scale = x := by
  cases x
  simp [ofScaled, Word.saturate_of_fits, *]

def ofInt (n : Int) : Decimal := ⟨n, 0, Word.zero_fits⟩

def ofNat (n : Nat) : Decimal := ofInt n

instance (n : Nat) : OfNat Decimal n := ⟨ofNat n⟩

/-- Exactly one half. -/
def half : Decimal := ofScaled 5 1

/-- A power of ten. -/
def powerOfTen (exponent : Int) : Decimal := ofScaled 1 (-exponent)

/-! ## Size -/

def isZero (x : Decimal) : Bool := x.unscaled == 0

def isNegative (x : Decimal) : Bool := decide (x.unscaled < 0)

def isPositive (x : Decimal) : Bool := decide (0 < x.unscaled)

def sign (x : Decimal) : Int := x.unscaled.sign

/-- The number of digits of the unscaled integer. -/
def digitCount (x : Decimal) : Nat := Integer.digitCount x.unscaled.natAbs

/-- The exponent in scientific notation; zero has exponent zero. -/
def exponent (x : Decimal) : Int :=
  if x.unscaled = 0 then 0 else Word.saturate (x.digitCount - 1 - x.scale)

/-- The number of digits before the point; none for values below one. -/
def wholeDigits (x : Decimal) : Nat :=
  if x.unscaled = 0 then 0 else (Word.saturate (x.exponent + 1)).toNat

/-- The unscaled integer at a scale that is not below the own one. -/
def integerAt (x : Decimal) (scale : Int) : Int :=
  x.unscaled * pow10 (scale - x.scale).natAbs

/-! ## Exact operations -/

def add (x y : Decimal) : Decimal :=
  let scale := max x.scale y.scale
  ofScaled (x.integerAt scale + y.integerAt scale) scale

def sub (x y : Decimal) : Decimal :=
  let scale := max x.scale y.scale
  ofScaled (x.integerAt scale - y.integerAt scale) scale

def mul (x y : Decimal) : Decimal := ofScaled (x.unscaled * y.unscaled) (x.scale + y.scale)

def neg (x : Decimal) : Decimal := { x with unscaled := -x.unscaled }

def abs (x : Decimal) : Decimal := { x with unscaled := x.unscaled.natAbs }

instance : Add Decimal := ⟨add⟩

instance : Sub Decimal := ⟨sub⟩

instance : Mul Decimal := ⟨mul⟩

instance : Neg Decimal := ⟨neg⟩

/-- Moves the point: the value times a power of ten. -/
def movePoint (x : Decimal) (places : Int) : Decimal := ofScaled x.unscaled (x.scale - places)

/-- The value over its power of ten: between one and ten in size, unless it is zero. -/
def mantissa (x : Decimal) : Decimal := x.movePoint (-x.exponent)

/-! ## Order -/

/-- The order of the values. The sign decides first and the exponent next; only values of one
sign and one exponent are brought to a common scale. -/
def compareValue (x y : Decimal) : Ordering :=
  if x.sign ≠ y.sign then compare x.sign y.sign
  else if x.sign = 0 then .eq
  else if x.exponent ≠ y.exponent then
    if 0 < x.sign then compare x.exponent y.exponent else compare y.exponent x.exponent
  else
    let scale := max x.scale y.scale
    compare (x.integerAt scale) (y.integerAt scale)

instance : Ord Decimal := ⟨compareValue⟩

instance : LT Decimal := ltOfOrd

instance : LE Decimal := leOfOrd

instance (x y : Decimal) : Decidable (x < y) := inferInstanceAs (Decidable (compare x y = .lt))

instance (x y : Decimal) : Decidable (x ≤ y) :=
  inferInstanceAs (Decidable ((compare x y).isLE = true))

/-- Equality of the values, whatever their scales. -/
def sameValue (x y : Decimal) : Bool := compare x y == .eq

/-- The greater of two; of equal values the second. -/
def larger (x y : Decimal) : Decimal := if y < x then x else y

/-- The smaller of two; of equal values the first. -/
def smaller (x y : Decimal) : Decimal := if y < x then y else x

end Decimal

end Reckoner
