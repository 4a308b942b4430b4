import Reckoner.Context.Exponential

/-!
# Powers and roots

Whole exponents are multiplied out and small whole degrees are rooted exactly; all other
exponents and degrees go through logarithms.
-/

namespace Reckoner.Context

open Decimal

/-! ## Powers -/

/-- The greatest product of exponents that a whole power may reach. -/
def powerReach : Nat := 1000000000000000

/-- Repeated squaring: `result` times the `n`-th power of `square`. -/
def squareUp (ctx : Context) (result square : Decimal) (n : Nat) : Decimal :=
  if n = 0 then result
  else
    let result := if n % 2 = 1 then ctx.mul result square else result
    if n / 2 = 0 then result else squareUp ctx result (ctx.mul square square) (n / 2)
termination_by n
decreasing_by omega

/-- A power whose exponent is whole. -/
def wholePow (ctx : Context) (base : Decimal) (n : Int) : Arithmetic Decimal :=
  if n = 0 then .ok 1
  else if base.isZero then if 0 < n then .ok 0 else .error .divisionByZero
  else if powerReach < (base.exponent.natAbs + 1) * n.natAbs then .error .exponentTooLarge
  else
    let wide := ctx.guarded.wider (Integer.digitCount n.natAbs)
    let result := wide.squareUp 1 base n.natAbs
    if n < 0 then ctx.div 1 result else .ok (ctx.round result)

def pow (ctx : Context) (base exponent : Decimal) : Arithmetic Decimal :=
  if exponent.isZero then .ok 1
  else
    match exponent.toWord? with
    | some n => ctx.wholePow base n
    | none =>
      if base.isZero then if exponent.isPositive then .ok 0 else .error .divisionByZero
      else if base.isNegative then
        .error (.undefined "pow" "negative base with a fractional exponent")
      else do
        let wide := ctx.guarded.wider exponent.exponent.toNat
        let lnBase ← wide.ln base
        let result ← wide.exp (wide.mul exponent lnBase)
        return ctx.round result

/-! ## Roots -/

/-- The greatest degree of a whole root: each degree more costs as many digits as the precision. -/
def wholeRootLimit : Nat := 64

/-- The root of a positive number by logarithms, for any degree but zero. -/
def logarithmicRoot (ctx : Context) (x degree : Decimal) : Arithmetic Decimal := do
  let wide := ctx.guarded
  let lnX ← wide.ln x
  let quotient ← wide.div lnX degree
  let result ← wide.exp quotient
  return ctx.round result

/-- The root of a positive number for a whole degree. -/
def rootOfPositive (ctx : Context) (x : Decimal) (degree : Nat) : Arithmetic Decimal :=
  if degree = 1 then .ok (ctx.round x)
  else if wholeRootLimit < degree then ctx.logarithmicRoot x (ofNat degree)
  else .ok (ctx.wholeRoot x degree)

/-- The root for a whole degree. Odd roots of negative numbers are negative. -/
def rootOfDegree (ctx : Context) (x : Decimal) (degree : Nat) : Arithmetic Decimal :=
  if degree = 0 then .error (.undefined "root" "degree must not be zero")
  else if x.isZero then .ok 0
  else if x.isNegative then
    if degree % 2 = 0 then .error (.undefined "root" "even root of a negative number")
    else do
      let root ← ctx.rootOfPositive (-x) degree
      return -root
  else ctx.rootOfPositive x degree

/-- The unsigned 32-bit number that a decimal denotes, as the degree of a whole root. -/
def wholeDegree? (degree : Decimal) : Option Nat :=
  degree.toWord?.bind fun n => if 0 ≤ n ∧ n < 4294967296 then some n.toNat else none

def root (ctx : Context) (x degree : Decimal) : Arithmetic Decimal :=
  match wholeDegree? degree with
  | some n => ctx.rootOfDegree x n
  | none =>
    if degree.isZero then .error (.undefined "root" "degree must not be zero")
    else if x.isZero then .ok 0
    else if x.isNegative then .error (.undefined "root" "fractional root of a negative number")
    else ctx.logarithmicRoot x degree

end Reckoner.Context
