import Reckoner.Decimal.Rescale

/-!
# Contexts

A context fixes how many significant digits a result keeps and how the rest is rounded off.
Sums, products and quotients are computed so that the rounding sees the exact value.
-/

namespace Reckoner

open Integer Decimal

structure Context where
  precision : Nat
  rounding : Rounding
  precision_pos : 0 < precision
  deriving DecidableEq

namespace Context

/-- A context, unless it would keep no digit. -/
def ofPrecision? (precision : Nat) (rounding : Rounding) : Option Context :=
  if h : 0 < precision then some ⟨precision, rounding, h⟩ else none

/-- Thirty-four digits, ties to even. -/
def standard : Context := ⟨34, .halfEven, by decide⟩

/-- The same rounding with more digits. -/
def wider (ctx : Context) (extra : Nat) : Context :=
  ⟨ctx.precision + extra, ctx.rounding, Nat.add_pos_left ctx.precision_pos extra⟩

/-- The digits that intermediate results carry beyond those of the answer. -/
def guardDigits : Nat := 10

/-- The context of intermediate results. -/
def guarded (ctx : Context) : Context := ctx.wider guardDigits

def round (ctx : Context) (x : Decimal) : Decimal := x.roundTo ctx.precision ctx.rounding

/-- The rounded sum. An operand too small to reach the rounding position only nudges the
other one in a digit behind that position, so no long alignment is written out. -/
def add (ctx : Context) (x y : Decimal) : Decimal :=
  if x.isZero then ctx.round y
  else if y.isZero then ctx.round x
  else
    let (large, small) := if y.exponent ≤ x.exponent then (x, y) else (y, x)
    let reach := max (ctx.precision + 2) large.digitCount
    let gap := (large.exponent - small.exponent).natAbs
    if reach + 1 < gap then
      let pad := reach - large.digitCount + 1
      ctx.round (ofScaled (large.unscaled * pow10 pad + small.sign) (large.scale + pad))
    else ctx.round (x + y)

def sub (ctx : Context) (x y : Decimal) : Decimal := ctx.add x (-y)

def mul (ctx : Context) (x y : Decimal) : Decimal := ctx.round (x * y)

/-- The rounded quotient. An exact one has no more trailing zeros than the difference of the
scales asks for; any other gets a last digit that stands for the tail cut off. -/
def div (ctx : Context) (x y : Decimal) : Arithmetic Decimal :=
  if y.isZero then .error .divisionByZero
  else if x.isZero then .ok 0
  else
    let preferred := Word.saturate (x.scale - y.scale)
    let shift := ctx.precision + 3 + y.digitCount - x.digitCount
    let dividend := x.unscaled * pow10 shift
    let quotient := dividend.tdiv y.unscaled
    if dividend.tmod y.unscaled = 0 then
      .ok ((ctx.round (ofScaled quotient (preferred + shift))).strip preferred)
    else
      let tail := if x.isNegative = y.isNegative then 1 else -1
      .ok (ctx.round (ofScaled (quotient * 10 + tail) (preferred + shift + 1)))

end Context

end Reckoner
