import Reckoner.Proofs.Loops.ArcTangents
import Reckoner.Proofs.Loops.Exponentials
import Reckoner.Proofs.Loops.GammaCalls

/-!
# Functions that come to an end

The loops of the special functions have no count. They end for every argument whose digits leave
room in the words, after a number of passes that grows with the digits and no faster, so that the
limit on the terms of a series is never reached.
-/

namespace Reckoner

open Integer Decimal

/-- The functions with open loops, and the two that call each other. -/
inductive OpenFunction where
  | pi
  | exp
  | ln
  | sin
  | cos
  | atan
  | gamma
  | factorial

namespace OpenFunction

variable {f : OpenFunction} {ctx : Context} {x : Decimal}

/-- What the checks ahead of the loops ask of an argument. -/
def Admits : OpenFunction → Decimal → Prop
  | pi, _ | gamma, _ | factorial, _ => True
  | exp, x => x.exponent ≤ Context.exponentLimit
  | ln, x => x.isPositive = true
  | sin, x | cos, x => x.isZero = false ∧ x.exponent ≤ Context.angleLimit
  | atan, x => x.isZero = false

/-- The digits of the context and of the argument leave room in the words. Where the series is
measured against the argument, so do the places between its leading digit and the point. -/
def HasRoom : OpenFunction → Context → Decimal → Prop
  | pi, ctx, _ => ctx.Ample 0 0
  | exp, ctx, x | ln, ctx, x | cos, ctx, x => ctx.Ample x.digitCount 0
  | sin, ctx, x => ctx.Ample x.digitCount (-x.exponent).toNat
  | atan, ctx, x => ctx.Ample x.digitCount x.exponent.natAbs
  | gamma, _, _ | factorial, _, _ => True

/-- Each loop breaks off within so many passes, and the recursion is no deeper. -/
def Ends : OpenFunction → Context → Decimal → Nat → Prop
  | pi, ctx, _ => ctx.PiEnds
  | exp, ctx, x => ctx.ExpEnds x
  | ln, ctx, x => ctx.LnEnds x
  | sin, ctx, x => Context.AngleEnds Context.sin Context.sinSeries id ctx x
  | cos, ctx, x => Context.AngleEnds Context.cos Context.cosSeries (fun _ => 1) ctx x
  | atan, ctx, x => ctx.AtanEnds x
  | gamma, ctx, x => (GammaCall.gamma ctx x).BottomsOut
  | factorial, ctx, x => (GammaCall.factorial ctx x).BottomsOut

/-- The passes that are enough. -/
def passes : OpenFunction → Context → Decimal → Nat
  | pi, ctx, _ => ctx.precision + 12
  | exp, ctx, _ => ctx.precision + 86
  | ln, ctx, x => ctx.precision + x.digitCount + 50
  | sin, ctx, _ | cos, ctx, _ => ctx.precision + 1100
  | atan, ctx, _ => ctx.precision + 22
  | gamma, _, _ | factorial, _, _ => 4

/-- Every open function ends for the arguments that its checks let through. -/
theorem ends_of_hasRoom (hadmits : f.Admits x) (hroom : f.HasRoom ctx x) :
    f.Ends ctx x (f.passes ctx x) := by
  cases f with
  | pi =>
    have hroom : ctx.Ample 0 0 := hroom
    unfold Context.Ample at hroom
    exact (Context.pi_ends ⟨by omega, by push_cast; omega⟩).1
  | exp => exact Context.exp_ends hadmits hroom
  | ln => exact Context.ln_ends hadmits hroom
  | sin => exact Context.sin_ends hadmits.1 hadmits.2 (by omega) hroom
  | cos => exact Context.cos_ends hadmits.1 hadmits.2 hroom
  | atan => exact Context.atan_ends hadmits le_rfl hroom
  | gamma => exact GammaCall.bottomsOut _
  | factorial => exact GammaCall.bottomsOut _

theorem ends_of_hasRoom_atan_two :
    atan.Admits 2 ∧ atan.HasRoom .standard 2 ∧ atan.Ends .standard 2 56 := by
  have hdigits : (2 : Decimal).digitCount = 1 := by decide +kernel
  have hexponent : (2 : Decimal).exponent = 0 := by decide +kernel
  have hroom : atan.HasRoom .standard 2 := by
    change Context.standard.Ample (2 : Decimal).digitCount (2 : Decimal).exponent.natAbs
    rw [hdigits, hexponent]
    unfold Context.Ample
    decide
  exact ⟨rfl, hroom, ends_of_hasRoom rfl hroom⟩

/-- At the lower end of the exponents the arc tangent passes its checks and never ends. -/
theorem atan_least_never_ends :
    atan.Admits (ofScaled 1 Word.greatest) ∧
      ¬ ∃ passes, atan.Ends .standard (ofScaled 1 Word.greatest) passes := by
  refine ⟨rfl, fun ⟨passes, hends⟩ => Context.atan_never_ends rfl ?_ (by decide) hends⟩
  decide +kernel

end OpenFunction

end Reckoner
