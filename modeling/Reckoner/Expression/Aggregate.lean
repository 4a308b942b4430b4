import Reckoner.Context.Basic

/-!
# Aggregates

A function of any number of arguments folds them from left to right in a context.
-/

namespace Reckoner

inductive Aggregate where
  | average
  | sum
  | reduce
  | multiply
  | divide
  | max
  | min
  deriving DecidableEq, Repr

namespace Aggregate

def name : Aggregate → String
  | average => "average"
  | sum => "sum"
  | reduce => "reduce"
  | multiply => "multiply"
  | divide => "divide"
  | max => "max"
  | min => "min"

/-- Takes one more argument into a running result. -/
def step (kind : Aggregate) (ctx : Context) (total value : Decimal) : Arithmetic Decimal :=
  match kind with
  | average | sum => .ok (ctx.add total value)
  | reduce => .ok (ctx.sub total value)
  | multiply => .ok (ctx.mul total value)
  | divide => ctx.div total value
  | max => .ok (total.larger (ctx.round value))
  | min => .ok (total.smaller (ctx.round value))

/-- What the folded arguments come to. -/
def finish (kind : Aggregate) (ctx : Context) (total : Decimal) (count : Nat) :
    Arithmetic Decimal :=
  match kind with
  | average => ctx.div total (Decimal.ofNat count)
  | _ => .ok total

def fold (kind : Aggregate) (ctx : Context) : List Decimal → Arithmetic Decimal
  | [] => .error (.undefined kind.name "no arguments were given")
  | first :: rest => do
    let total ← rest.foldlM (kind.step ctx) (ctx.round first)
    kind.finish ctx total (rest.length + 1)

end Aggregate

end Reckoner
