import Reckoner.Context.Basic

/-!
# Summing series

A series is added up term by term until a term falls below the last digit kept. Terms come
from a running factor, such as a power or the term before.
-/

namespace Reckoner

structure Series where
  /-- The running factor at an index, from the one before. -/
  next : Nat → Decimal → Arithmetic Decimal
  /-- The signed term at an index, from the running factor. -/
  term : Nat → Decimal → Arithmetic Decimal
  /-- What the size of a term is measured against, from the sum so far. -/
  reference : Decimal → Decimal

namespace Context

/-- Whether a term lies below the last digit kept of the reference. -/
def isNegligible (ctx : Context) (term reference : Decimal) : Bool :=
  term.isZero || decide ((ctx.precision : Int) < Word.saturate (reference.exponent - term.exponent))

/-- Terms are counted by a word. No series below comes near the end of its range, unless its terms
stop shrinking because their scales have stopped. -/
def termLimit : Nat := Word.greatest.toNat

/-- Adds the terms from index `k` on to `sum`, at most `limit` of them. -/
def sumFrom (ctx : Context) (series : Series) :
    (limit k : Nat) → (factor sum : Decimal) → Arithmetic Decimal
  | 0, _, _, sum => .ok sum
  | limit + 1, k, factor, sum => do
    let factor ← series.next k factor
    let term ← series.term k factor
    if ctx.isNegligible term (series.reference sum) then return sum
    sumFrom ctx series limit (k + 1) factor (ctx.add sum term)

/-- Adds the terms from the first on to `first`, which is also the running factor before them. -/
def sumSeries (ctx : Context) (series : Series) (first : Decimal) : Arithmetic Decimal :=
  ctx.sumFrom series termLimit 1 first first

/-- Negates at odd indices. -/
def alternating (k : Nat) (term : Decimal) : Decimal := if k % 2 = 1 then -term else term

end Context

end Reckoner
