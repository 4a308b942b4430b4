import Reckoner.Context.Basic
import Reckoner.Integer.Root

/-!
# Roots of positive numbers

A root of small whole degree is the whole root of the unscaled integer, after enough zeros have
been appended to it for the digits wanted.
-/

namespace Reckoner.Context

open Decimal

/-- The root of a positive number. A root that comes out exact is stripped toward the scale of the
radicand divided by the degree; any other gets a last digit that stands for the tail. -/
def wholeRoot (ctx : Context) (x : Decimal) (degree : Nat) : Decimal :=
  let shift := (ctx.precision + 2) * degree - x.digitCount
  let scale := Word.saturate (x.scale + shift)
  -- Zeros that make the scale a multiple of the degree.
  let pad := (-scale) % degree
  let radicand := x.unscaled.natAbs * Integer.pow10 (shift + pad.natAbs)
  let root := Integer.floorRoot degree radicand
  let rootScale := (scale + pad) / degree
  if root.pow degree = radicand then
    (ctx.round (ofScaled root rootScale)).strip (x.scale / degree)
  else ctx.round (ofScaled (root * 10 + 1) (rootScale + 1))

def sqrt (ctx : Context) (x : Decimal) : Arithmetic Decimal :=
  if x.isNegative then .error (.undefined "sqrt" "argument must not be negative")
  else if x.isZero then .ok 0
  else .ok (ctx.wholeRoot x 2)

end Reckoner.Context
