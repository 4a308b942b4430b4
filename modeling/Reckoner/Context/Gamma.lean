import Reckoner.Context.Angle
import Reckoner.Context.Power

/-!
# Factorials and the gamma function

Whole arguments are multiplied out. Others go through Spouge's formula from one half upward and
through the reflection `Γ(x) Γ(1 - x) = π / sin (π x)` below.
-/

namespace Reckoner.Context

open Decimal

/-! ## Whole arguments -/

/-- The greatest factorial that is multiplied out. -/
def factorialLimit : Int := 1000000

/-- The product of the numbers from one to `n`. -/
def product (ctx : Context) (n : Nat) : Decimal :=
  Nat.fold (n - 1) (fun k _ result => ctx.mul result (ofNat (k + 2))) 1

/-- The factorial of a whole number. -/
def wholeFactorial (ctx : Context) (x : Decimal) : Arithmetic Decimal :=
  match x.toWord? with
  | none => .error .exponentTooLarge
  | some n =>
    if n < 0 then .error (.undefined "factorial" "negative integers have no factorial")
    else if factorialLimit < n then .error .exponentTooLarge
    else
      let wide := ctx.guarded.wider (ofInt n).digitCount
      .ok (ctx.round (wide.product n.toNat))

/-! ## Spouge's formula -/

/-- The `k`-th term without its sign, where `factorial` is that of `k - 1`. -/
def spougeTerm (ctx : Context) (z : Decimal) (a k : Nat) (factorial : Decimal) :
    Arithmetic Decimal := do
  let base := ofNat (a - k)
  let power ← ctx.wholePow base (k - 1 : Nat)
  let root ← ctx.sqrt base
  let growth ← ctx.exp base
  let coefficient ← ctx.div (ctx.mul (ctx.mul power root) growth) factorial
  ctx.div coefficient (ctx.add z (ofNat k))

/-- Adds `steps` terms from the `k`-th on, with alternating signs. -/
def spougeSum (ctx : Context) (z : Decimal) (a : Nat) :
    (steps k : Nat) → (factorial sum : Decimal) → Arithmetic Decimal
  | 0, _, _, sum => .ok sum
  | steps + 1, k, factorial, sum => do
    let factorial := if 1 < k then ctx.mul factorial (ofNat (k - 1)) else factorial
    let term ← ctx.spougeTerm z a k factorial
    spougeSum ctx z a steps (k + 1) factorial
      (if k % 2 = 1 then ctx.add sum term else ctx.sub sum term)

/-- The number of terms for which the error of the formula stays below the last digit kept. -/
def spougeOrder (ctx : Context) : Nat := ctx.precision * 1253 / 1000 + 2

/-- The gamma function of `z + 1`. -/
def spouge (ctx : Context) (z : Decimal) : Arithmetic Decimal := do
  let a := ctx.spougeOrder
  let wide := ctx.wider a
  let pi ← wide.pi
  let first ← wide.sqrt (wide.mul 2 pi)
  let sum ← wide.spougeSum z a (a - 1) 1 1 first
  let base := wide.add z (ofNat a)
  let growth ← wide.pow base (wide.add z half)
  let decay ← wide.exp (-base)
  return wide.mul (wide.mul growth decay) sum

/-! ## All arguments -/

/-- The gamma function from one half upward. -/
def gammaAboveHalf (ctx : Context) (x : Decimal) : Arithmetic Decimal :=
  if x.isWhole then ctx.wholeFactorial (x - 1)
  else do
    let wide := ctx.guarded
    let result ← wide.spouge (wide.sub x 1)
    return ctx.round result

def gamma (ctx : Context) (x : Decimal) : Arithmetic Decimal :=
  if x.isWhole && !x.isPositive then
    .error (.undefined "gamma" "poles at zero and the negative integers")
  else if !x.isWhole && decide (x < half) then do
    let wide := ctx.guarded
    let pi ← wide.pi
    let sine ← wide.sin (wide.mul pi x)
    let reflected ← wide.gammaAboveHalf (wide.sub 1 x)
    ctx.div pi (wide.mul sine reflected)
  else ctx.gammaAboveHalf x

/-- The factorial; of a fraction it is the gamma function one further. -/
def factorial (ctx : Context) (x : Decimal) : Arithmetic Decimal :=
  if x.isWhole then ctx.wholeFactorial x else ctx.gamma (ctx.guarded.add x 1)

end Reckoner.Context
