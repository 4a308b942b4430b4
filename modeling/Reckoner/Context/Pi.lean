import Reckoner.Context.Series

/-!
# The circle constant

Machin's formula: `π = 16 atan (1/5) - 4 atan (1/239)`.
-/

namespace Reckoner.Context

open Decimal

/-- Odd powers of `1/n` over their exponents, with alternating signs. -/
def reciprocalSeries (ctx : Context) (n : Nat) (first : Decimal) : Series where
  next _ power := ctx.div power (ofNat (n * n))
  term k power := return alternating k (← ctx.div power (ofNat (2 * k + 1)))
  reference _ := first

/-- The arc tangent of `1/n`. -/
def atanOfReciprocal (ctx : Context) (n : Nat) : Arithmetic Decimal := do
  let first ← ctx.div 1 (ofNat n)
  ctx.sumSeries (reciprocalSeries ctx n first) first

def pi (ctx : Context) : Arithmetic Decimal := do
  let wide := ctx.guarded
  let fifth ← wide.atanOfReciprocal 5
  let small ← wide.atanOfReciprocal 239
  return ctx.round (wide.sub (wide.mul 16 fifth) (wide.mul 4 small))

def quarterTurn (ctx : Context) : Arithmetic Decimal := do
  ctx.div (← ctx.pi) 2

/-- An angle in degrees, in radians. -/
def radians (ctx : Context) (x : Decimal) : Arithmetic Decimal := do
  let wide := ctx.guarded
  ctx.div (wide.mul x (← wide.pi)) 180

/-- An angle in radians, in degrees. -/
def degrees (ctx : Context) (x : Decimal) : Arithmetic Decimal := do
  let wide := ctx.guarded
  ctx.div (wide.mul x 180) (← wide.pi)

end Reckoner.Context
