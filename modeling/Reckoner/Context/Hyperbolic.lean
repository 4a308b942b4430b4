import Reckoner.Context.Exponential

/-!
# Hyperbolic functions

They are put together from exponentials and their inverses from logarithms. Small arguments
cancel, so most contexts are wider by the zeros behind the point of the argument.
-/

namespace Reckoner.Context

open Decimal

/-- The context for an argument that cancels when it is small. -/
def forCancellation (ctx : Context) (x : Decimal) : Context :=
  ctx.guarded.wider (-x.exponent).toNat

def sinh (ctx : Context) (x : Decimal) : Arithmetic Decimal :=
  if x.isZero then .ok 0
  else do
    let wide := ctx.forCancellation x
    let grow ← wide.exp x
    let shrink ← wide.div 1 grow
    return ctx.round (wide.mul (wide.sub grow shrink) half)

def cosh (ctx : Context) (x : Decimal) : Arithmetic Decimal := do
  let wide := ctx.guarded
  let grow ← wide.exp x
  let shrink ← wide.div 1 grow
  return ctx.round (wide.mul (wide.add grow shrink) half)

def tanh (ctx : Context) (x : Decimal) : Arithmetic Decimal :=
  if x.isZero then .ok 0
  else do
    let wide := ctx.forCancellation x
    let grow ← wide.exp (wide.mul x 2)
    ctx.div (wide.sub grow 1) (wide.add grow 1)

def coth (ctx : Context) (x : Decimal) : Arithmetic Decimal :=
  if x.isZero then .error .divisionByZero
  else do
    let tangent ← ctx.guarded.tanh x
    ctx.div 1 tangent

def asinhOfPositive (ctx : Context) (x : Decimal) : Arithmetic Decimal := do
  let wide := ctx.forCancellation x
  let root ← wide.sqrt (wide.add (wide.mul x x) 1)
  let result ← wide.ln (wide.add x root)
  return ctx.round result

def asinh (ctx : Context) (x : Decimal) : Arithmetic Decimal :=
  if x.isZero then .ok 0
  else if x.isNegative then return -(← ctx.asinhOfPositive (-x))
  else ctx.asinhOfPositive x

def acosh (ctx : Context) (x : Decimal) : Arithmetic Decimal :=
  if x < 1 then .error (.undefined "acosh" "argument must be at least 1")
  else do
    let wide := ctx.guarded
    let root ← wide.sqrt (wide.sub (wide.mul x x) 1)
    let result ← wide.ln (wide.add x root)
    return ctx.round result

def atanh (ctx : Context) (x : Decimal) : Arithmetic Decimal :=
  if 1 ≤ x.abs then .error (.undefined "atanh" "argument must lie strictly between -1 and 1")
  else if x.isZero then .ok 0
  else do
    let wide := ctx.forCancellation x
    let ratio ← wide.div (wide.add 1 x) (wide.sub 1 x)
    let result ← wide.ln ratio
    return ctx.round (wide.mul result half)

def acoth (ctx : Context) (x : Decimal) : Arithmetic Decimal :=
  if x.abs ≤ 1 then .error (.undefined "acoth" "argument must lie outside [-1, 1]")
  else do
    let wide := ctx.guarded
    let ratio ← wide.div (wide.add x 1) (wide.sub x 1)
    let result ← wide.ln ratio
    return ctx.round (wide.mul result half)

end Reckoner.Context
