/-!
# Rounding

The seven ways to round a quotient to an integer.
-/

namespace Reckoner

inductive Rounding where
  /-- away from zero -/
  | up
  /-- toward zero -/
  | down
  /-- toward positive infinity -/
  | ceiling
  /-- toward negative infinity -/
  | floor
  /-- to the nearest, a tie away from zero -/
  | halfUp
  /-- to the nearest, a tie toward zero -/
  | halfDown
  /-- to the nearest, a tie to the even neighbour -/
  | halfEven
  deriving DecidableEq, Repr

namespace Rounding

/-- Whether a quotient that lost a remainder moves one step away from zero: `odd` is the parity
of the quotient cut off toward zero, `half` compares the remainder with half the divisor. -/
def leavesZero (mode : Rounding) (negative odd : Bool) (half : Ordering) : Bool :=
  match mode with
  | up => true
  | down => false
  | ceiling => !negative
  | floor => negative
  | halfUp => half != .lt
  | halfDown => half == .gt
  | halfEven => half == .gt || (half == .eq && odd)

/-- The quotient of two integers, rounded to an integer. -/
def quotient (mode : Rounding) (value divisor : Int) : Int :=
  let cut := value.tdiv divisor
  let rest := value.tmod divisor
  if rest = 0 then cut
  else
    let negative := decide (value < 0) != decide (divisor < 0)
    let half := compare (rest.natAbs * 2) divisor.natAbs
    if mode.leavesZero negative (cut.natAbs % 2 == 1) half then
      if negative then cut - 1 else cut + 1
    else cut

end Rounding

end Reckoner
