/-!
# Whole roots

The greatest integer whose power does not exceed a number, by Newton's method from above:
every step stays at or above the root, so the first step that does not go down has arrived.
-/

namespace Reckoner.Integer

/-- Newton steps for the root of `a`, as long as they go down. -/
def lowerRoot (degree a x : Nat) : Nat :=
  let next := ((degree - 1) * x + a / x.pow (degree - 1)) / degree
  if next < x then lowerRoot degree a next else x
termination_by x

/-- The root of `a` rounded down. The start is a power of two above the root. -/
def floorRoot (degree a : Nat) : Nat :=
  if a = 0 then 0 else lowerRoot degree a (Nat.pow 2 (a.log2 / degree + 1))

end Reckoner.Integer
