import Reckoner.Context.Series
import Reckoner.Context.SquareRoot

/-!
# Exponentials and logarithms

The argument is first brought into a range where its series converges fast, by halving for the
exponential and by square roots for the logarithm, and the result is taken back.
-/

namespace Reckoner.Context

open Decimal

/-! ## The exponential function -/

/-- The greatest decimal exponent of an argument. -/
def exponentLimit : Int := 15

/-- Halves until the value is at most one half, at most `limit` times, and counts the halvings. -/
def halve : (limit : Nat) → Decimal → Decimal × Nat
  | 0, x => (x, 0)
  | limit + 1, x =>
    if half < x then
      let (reduced, count) := halve limit (x * half)
      (reduced, count + 1)
    else (x, 0)

/-- Each term is the one before times `x` over the index. -/
def expSeries (ctx : Context) (x : Decimal) : Series where
  next k term := ctx.div (ctx.mul term x) (ofNat k)
  term _ term := .ok term
  reference sum := sum

/-- The exponential of a positive number. Sixty-four halvings are enough below `10 ^ 16`. -/
def expOfPositive (ctx : Context) (x : Decimal) : Arithmetic Decimal := do
  let (reduced, count) := halve 64 x
  let wide := ctx.wider (guardDigits + count)
  let sum ← wide.sumSeries (expSeries wide (wide.round reduced)) 1
  return ctx.round (Nat.repeat (fun s => wide.mul s s) count sum)

def exp (ctx : Context) (x : Decimal) : Arithmetic Decimal :=
  if x.isZero then .ok 1
  else if exponentLimit < x.exponent then .error .exponentTooLarge
  else if x.isNegative then do
    let positive ← ctx.guarded.expOfPositive (-x)
    ctx.div 1 positive
  else ctx.expOfPositive x

/-- The base of the natural logarithm. -/
def e (ctx : Context) : Arithmetic Decimal := ctx.exp 1

/-! ## Logarithms -/

/-- Takes square roots until the value is within a tenth of one, and counts them. -/
def approachOne (ctx : Context) : (limit : Nat) → Decimal → Arithmetic (Decimal × Nat)
  | 0, x => .ok (x, 0)
  | limit + 1, x =>
    if ofScaled 11 1 < x ∨ x < ofScaled 9 1 then do
      let root ← ctx.sqrt x
      let (reduced, count) ← approachOne ctx limit root
      return (reduced, count + 1)
    else .ok (x, 0)

/-- Odd powers of `z` over their exponents: the inverse hyperbolic tangent. -/
def atanhSeries (ctx : Context) (z : Decimal) : Series :=
  let square := ctx.mul z z
  { next _ power := .ok (ctx.mul power square)
    term k power := ctx.div power (ofNat (2 * k + 1))
    reference _ := z }

/-- The logarithm of a number that is near one after a few square roots: twice the inverse
hyperbolic tangent of `(m - 1) / (m + 1)`. -/
def lnUpToTen (ctx : Context) (m : Decimal) : Arithmetic Decimal := do
  let wide := ctx.wider 4
  let (value, count) ← wide.approachOne (m.digitCount + 64) m
  let z ← wide.div (wide.sub value 1) (wide.add value 1)
  if z.isZero then return 0
  let sum ← wide.sumSeries (atanhSeries wide z) z
  return wide.mul sum (ofNat (Nat.pow 2 (count + 1)))

/-- The natural logarithm. The power of ten is split off and adds its own multiple. -/
def ln (ctx : Context) (x : Decimal) : Arithmetic Decimal :=
  if !x.isPositive then .error (.undefined "ln" "argument must be positive")
  else if x.sameValue 1 then .ok 0
  else do
    let exponent := x.exponent
    let wide := ctx.guarded.wider (ofInt exponent).digitCount
    let result ← wide.lnUpToTen (x.movePoint (-exponent))
    if exponent = 0 then return ctx.round result
    let lnTen ← wide.lnUpToTen 10
    return ctx.round (wide.add result (wide.mul lnTen (ofInt exponent)))

/-- The logarithm to any base, as a quotient of natural ones. -/
def log (ctx : Context) (base x : Decimal) : Arithmetic Decimal := do
  let wide := ctx.guarded
  let denominator ← wide.ln base
  let numerator ← wide.ln x
  ctx.div numerator denominator

def log10 (ctx : Context) (x : Decimal) : Arithmetic Decimal := ctx.log 10 x

def log2 (ctx : Context) (x : Decimal) : Arithmetic Decimal := ctx.log 2 x

end Reckoner.Context
