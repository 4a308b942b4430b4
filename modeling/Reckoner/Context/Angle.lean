import Reckoner.Context.Pi

/-!
# Functions of an angle

Angles are in radians. An angle is brought between `-π` and `π` before its series is summed, in a
context that has one digit more for every digit before the point of the angle.
-/

namespace Reckoner.Context

open Decimal

/-- The greatest decimal exponent of an angle. -/
def angleLimit : Int := 1000

/-- The context in which an angle is reduced. -/
def forAngle (ctx : Context) (x : Decimal) : Arithmetic Context :=
  if angleLimit < x.exponent then .error .exponentTooLarge
  else .ok (ctx.guarded.wider x.exponent.toNat)

/-- Takes whole turns off an angle, so that it lies between `-π` and `π`. -/
def principalAngle (ctx : Context) (x : Decimal) : Arithmetic Decimal := do
  let pi ← ctx.pi
  if x.abs ≤ pi then return x
  let turn := ctx.mul pi 2
  let turns := (← ctx.div x turn).wholePart
  let reduced := ctx.sub x (ctx.mul turns turn)
  -- The number of turns comes from a rounded quotient and can be one short.
  return if pi < reduced then ctx.sub reduced turn
    else if reduced < -pi then ctx.add reduced turn
    else reduced

/-- Each term is the one before times `-x²` over the two factors that its factorial gains. -/
def sinSeries (ctx : Context) (x : Decimal) : Series :=
  let square := ctx.mul x x
  { next k term := return -(← ctx.div (ctx.mul term square) (ofNat (2 * k * (2 * k + 1))))
    term _ term := .ok term
    reference _ := x }

def cosSeries (ctx : Context) (x : Decimal) : Series :=
  let square := ctx.mul x x
  { next k term := return -(← ctx.div (ctx.mul term square) (ofNat ((2 * k - 1) * (2 * k))))
    term _ term := .ok term
    reference _ := 1 }

def sin (ctx : Context) (x : Decimal) : Arithmetic Decimal :=
  if x.isZero then .ok 0
  else do
    let wide ← ctx.forAngle x
    let reduced ← wide.principalAngle x
    let sum ← wide.sumSeries (sinSeries wide reduced) reduced
    return ctx.round sum

def cos (ctx : Context) (x : Decimal) : Arithmetic Decimal :=
  if x.isZero then .ok 1
  else do
    let wide ← ctx.forAngle x
    let reduced ← wide.principalAngle x
    let sum ← wide.sumSeries (cosSeries wide reduced) 1
    return ctx.round sum

def tan (ctx : Context) (x : Decimal) : Arithmetic Decimal := do
  let sine ← ctx.guarded.sin x
  let cosine ← ctx.guarded.cos x
  ctx.div sine cosine

def cot (ctx : Context) (x : Decimal) : Arithmetic Decimal := do
  let cosine ← ctx.guarded.cos x
  let sine ← ctx.guarded.sin x
  ctx.div cosine sine

end Reckoner.Context
