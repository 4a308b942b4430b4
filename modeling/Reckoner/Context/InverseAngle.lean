import Reckoner.Context.Pi
import Reckoner.Context.SquareRoot

/-!
# Angles from their functions

Everything rests on the arc tangent, whose argument is made small by halving the angle.
-/

namespace Reckoner.Context

open Decimal

/-- Halves the angle until its tangent is at most a tenth, and counts the halvings. -/
def halveAngle (ctx : Context) : (limit : Nat) → Decimal → Arithmetic (Decimal × Nat)
  | 0, x => .ok (x, 0)
  | limit + 1, x =>
    if ofScaled 1 1 < x then do
      let root ← ctx.sqrt (ctx.add 1 (ctx.mul x x))
      let tangent ← ctx.div x (ctx.add 1 root)
      let (reduced, count) ← halveAngle ctx limit tangent
      return (reduced, count + 1)
    else .ok (x, 0)

/-- Odd powers over their exponents, with alternating signs. -/
def atanSeries (ctx : Context) (x : Decimal) : Series :=
  let square := ctx.mul x x
  { next _ power := .ok (ctx.mul power square)
    term k power := return alternating k (← ctx.div power (ofNat (2 * k + 1)))
    reference _ := x }

/-- The arc tangent of a number between zero and one. Four halvings reach a tenth. -/
def atanUpToOne (ctx : Context) (x : Decimal) : Arithmetic Decimal := do
  let (reduced, count) ← ctx.halveAngle 16 x
  let sum ← ctx.sumSeries (atanSeries ctx reduced) reduced
  return ctx.mul sum (ofNat (Nat.pow 2 count))

def atanOfPositive (ctx : Context) (x : Decimal) : Arithmetic Decimal := do
  let wide := ctx.guarded
  if 1 < x then
    let inverse ← wide.div 1 x
    let quarter ← wide.quarterTurn
    let rest ← wide.atanUpToOne inverse
    return ctx.round (wide.sub quarter rest)
  else
    let angle ← wide.atanUpToOne x
    return ctx.round angle

def atan (ctx : Context) (x : Decimal) : Arithmetic Decimal :=
  if x.isZero then .ok 0
  else if x.isNegative then return -(← ctx.atanOfPositive (-x))
  else ctx.atanOfPositive x

def asin (ctx : Context) (x : Decimal) : Arithmetic Decimal :=
  if 1 < x.abs then .error (.undefined "asin" "argument must lie in [-1, 1]")
  else if x.isZero then .ok 0
  else do
    let wide := ctx.guarded
    if x.abs.sameValue 1 then
      let quarter ← wide.quarterTurn
      return ctx.round (if x.isNegative then -quarter else quarter)
    let cosine ← wide.sqrt (wide.sub 1 (wide.mul x x))
    let tangent ← wide.div x cosine
    ctx.atan tangent

def acos (ctx : Context) (x : Decimal) : Arithmetic Decimal := do
  let wide := ctx.guarded
  let quarter ← wide.quarterTurn
  let angle ← wide.asin x
  return ctx.round (wide.sub quarter angle)

def acot (ctx : Context) (x : Decimal) : Arithmetic Decimal := do
  let wide := ctx.guarded
  let quarter ← wide.quarterTurn
  let angle ← wide.atan x
  return ctx.round (wide.sub quarter angle)

end Reckoner.Context
