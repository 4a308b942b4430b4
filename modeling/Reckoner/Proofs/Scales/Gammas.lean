import Reckoner.Context.Gamma
import Reckoner.Proofs.Scales.Angles
import Reckoner.Proofs.Scales.Powers

/-!
# Factorials and gamma functions of one value

A factorial only sees the word that its argument denotes. In a term of Spouge's formula the argument
comes in with the last quotient; all that is divided there is the same for every argument.
-/

namespace Reckoner

open Decimal

namespace Traced

variable {ctx : Context} {x x' y y' : Decimal}

/-! ## Spouge's formula -/

/-- The dividend of a term, which does not depend on the argument. -/
def spougeCoefficient (ctx : Context) (a k : Nat) (factorial : Decimal) : Arithmetic Decimal := do
  let base := ofNat (a - k)
  let power ← ctx.wholePow base (k - 1 : Nat)
  let root ← ctx.sqrt base
  let growth ← ctx.exp base
  ctx.div (ctx.mul (ctx.mul power root) growth) factorial

def spougeTerm (ctx : Context) (z : Decimal) (a k : Nat) (factorial : Decimal) :
    Traced Decimal := do
  let coefficient ← lift (spougeCoefficient ctx a k factorial)
  let divisor ← add ctx z (ofNat k)
  div ctx coefficient divisor

def addAlternating (ctx : Context) (k : Nat) (sum term : Decimal) : Traced Decimal :=
  if k % 2 = 1 then add ctx sum term else sub ctx sum term

def spougeSum (ctx : Context) (z : Decimal) (a : Nat) :
    (steps k : Nat) → (factorial sum : Decimal) → Traced Decimal
  | 0, _, _, sum => pure sum
  | steps + 1, k, factorial, sum => do
    let factorial := if 1 < k then ctx.mul factorial (ofNat (k - 1)) else factorial
    let term ← spougeTerm ctx z a k factorial
    let sum ← addAlternating ctx k sum term
    spougeSum ctx z a steps (k + 1) factorial sum

def spouge (ctx : Context) (z : Decimal) : Traced Decimal := do
  let a := ctx.spougeOrder
  let wide := ctx.wider a
  let pi ← lift wide.pi
  let first ← lift (wide.sqrt (wide.mul 2 pi))
  let sum ← spougeSum wide z a (a - 1) 1 1 first
  let base ← add wide z (ofNat a)
  let exponent ← add wide z half
  let growth ← pow wide base exponent
  let decay ← exp wide (-base)
  let product ← mul wide growth decay
  mul wide product sum

/-! ## All arguments -/

def gammaAboveHalf (ctx : Context) (x : Decimal) : Traced Decimal :=
  if x.isWhole then lift (ctx.wholeFactorial (x - 1))
  else do
    let z ← sub ctx.guarded x 1
    let result ← spouge ctx.guarded z
    round ctx result

def reflectedGamma (ctx : Context) (x : Decimal) : Traced Decimal := do
  let wide := ctx.guarded
  let pi ← lift wide.pi
  let angle ← mul wide pi x
  let sine ← sin wide angle
  let opposite ← sub wide 1 x
  let reflected ← gammaAboveHalf wide opposite
  let product ← mul wide sine reflected
  div ctx pi product

def gamma (ctx : Context) (x : Decimal) : Traced Decimal :=
  if x.isWhole && !x.isPositive then
    lift (.error (.undefined "gamma" "poles at zero and the negative integers"))
  else if !x.isWhole && decide (x < half) then reflectedGamma ctx x
  else gammaAboveHalf ctx x

def factorial (ctx : Context) (x : Decimal) : Traced Decimal :=
  if x.isWhole then lift (ctx.wholeFactorial x)
  else do
    let next ← add ctx.guarded x 1
    gamma ctx next

/-! ## Results -/

@[simp] theorem result_spougeTerm (z : Decimal) (a k : Nat) (factorial : Decimal) :
    (spougeTerm ctx z a k factorial).result = ctx.spougeTerm z a k factorial := by
  simp only [spougeTerm, spougeCoefficient, Context.spougeTerm, result_bind, result_lift,
    result_add, result_div, ok_bind, bind_assoc]

@[simp] theorem result_addAlternating (k : Nat) (sum term : Decimal) :
    (addAlternating ctx k sum term).result =
      .ok (if k % 2 = 1 then ctx.add sum term else ctx.sub sum term) := by
  unfold addAlternating
  split
  · exact result_add
  · exact result_sub

@[simp] theorem result_spougeSum (z : Decimal) (a steps k : Nat) (factorial sum : Decimal) :
    (spougeSum ctx z a steps k factorial sum).result =
      ctx.spougeSum z a steps k factorial sum := by
  induction steps generalizing k factorial sum with
  | zero => rfl
  | succ steps ih =>
    simp only [spougeSum, Context.spougeSum, result_bind, result_spougeTerm, result_addAlternating,
      ok_bind, ih]

@[simp] theorem result_spouge (z : Decimal) : (spouge ctx z).result = ctx.spouge z := by
  simp only [spouge, Context.spouge, result_bind, result_lift, result_spougeSum, result_add,
    result_pow, result_exp, result_mul, ok_bind]
  rfl

@[simp] theorem result_gammaAboveHalf : (gammaAboveHalf ctx x).result = ctx.gammaAboveHalf x := by
  simp only [gammaAboveHalf, Context.gammaAboveHalf, result_ite, result_lift, result_bind,
    result_sub, result_spouge, result_round, ok_bind]
  rfl

@[simp] theorem result_gamma : (gamma ctx x).result = ctx.gamma x := by
  simp only [gamma, reflectedGamma, Context.gamma, result_ite, result_lift, result_bind, result_mul,
    result_sin, result_sub, result_gammaAboveHalf, result_div, ok_bind]

@[simp] theorem result_factorial : (factorial ctx x).result = ctx.factorial x := by
  simp only [factorial, Context.factorial, result_ite, result_lift, result_bind, result_add,
    result_gamma, ok_bind]

/-! ## Agreement -/

theorem Same.isWhole (h : Same x x') : x.isWhole = x'.isWhole := by
  rw [Bool.eq_iff_iff, isWhole_iff, isWhole_iff, h.toRat_eq]

theorem wholeFactorial_congr (hword : x.toWord? = x'.toWord?) :
    ctx.wholeFactorial x = ctx.wholeFactorial x' := by
  unfold Context.wholeFactorial
  rw [hword]

-- A zero that stands further left of the point is whole, but it is not read as a word.
example : Context.standard.factorial (.ofScaled 0 (-1000001)) = .error .exponentTooLarge := rfl

/-- An exact difference is never kept at a scale below that of the one. -/
theorem zeroWithin_sub_one (x : Decimal) : (x - 1).ZeroWithin := by
  intro _
  have hfits := x.scale_fits
  change -(shiftLimit : Int) ≤ Word.saturate (max x.scale 0)
  rw [Word.saturate_of_fits]
  · omega
  · unfold Word.Fits Word.least Word.greatest at *
    omega

theorem agree_spougeTerm (a k : Nat) (factorial : Decimal) (h : Same x x') :
    Agree Same (spougeTerm ctx x a k factorial) (spougeTerm ctx x' a k factorial) :=
  (agree_same _).bind fun _ _ hcoefficient => (agree_add h (.refl _)).bind fun _ _ hdivisor =>
    agree_div hcoefficient hdivisor

theorem agree_addAlternating (k : Nat) (h : Same x x') (h' : Same y y') :
    Agree Same (addAlternating ctx k x y) (addAlternating ctx k x' y') :=
  .ite Iff.rfl (fun _ _ => agree_add h h') fun _ _ => agree_sub h h'

theorem agree_spougeSum (a steps k : Nat) (factorial : Decimal) (h : Same x x')
    (hsum : Same y y') :
    Agree Same (spougeSum ctx x a steps k factorial y) (spougeSum ctx x' a steps k factorial y') := by
  induction steps generalizing k factorial y y' with
  | zero => exact agree_pure hsum
  | succ steps ih =>
    refine (agree_spougeTerm a k _ h).bind fun _ _ hterm => ?_
    exact (agree_addAlternating k hsum hterm).bind fun _ _ hsum => ih (k + 1) _ hsum

theorem agree_spouge (h : Same x x') : Agree Same (spouge ctx x) (spouge ctx x') := by
  refine (agree_lift _).bind fun pi pi' hpi => ?_
  subst hpi
  refine (agree_same _).bind fun _ _ hfirst => ?_
  refine (agree_spougeSum _ _ 1 1 h hfirst).bind fun _ _ hsum => ?_
  refine (agree_add h (.refl _)).bind fun _ _ hbase => ?_
  refine (agree_add h (.refl half)).bind fun _ _ hexponent => ?_
  refine (agree_pow hbase hexponent).bind fun _ _ hgrowth => ?_
  refine (agree_exp hbase.neg).bind fun _ _ hdecay => ?_
  exact (agree_mul hgrowth hdecay).bind fun _ _ hproduct => agree_mul hproduct hsum

theorem agree_gammaAboveHalf (h : Same x x') :
    Agree Same (gammaAboveHalf ctx x) (gammaAboveHalf ctx x') := by
  unfold gammaAboveHalf
  rw [h.isWhole]
  refine .ite Iff.rfl (fun _ _ => ?_) fun _ _ => ?_
  · have hbefore : Same (x - 1) (x' - 1) := by
      unfold Same
      rw [toRat_sub, toRat_sub, h.toRat_eq]
    rw [wholeFactorial_congr (toWord?_congr hbefore (zeroWithin_sub_one x) (zeroWithin_sub_one x'))]
    exact agree_same _
  · refine (agree_sub h (.refl 1)).bind fun _ _ hz => ?_
    exact (agree_spouge hz).bind fun _ _ hresult => agree_round hresult

theorem agree_reflectedGamma (h : Same x x') :
    Agree Same (reflectedGamma ctx x) (reflectedGamma ctx x') := by
  refine (agree_same _).bind fun _ _ hpi => ?_
  refine (agree_mul hpi h).bind fun _ _ hangle => ?_
  refine (agree_sin hangle).bind fun _ _ hsine => ?_
  refine (agree_sub (.refl 1) h).bind fun _ _ hopposite => ?_
  refine (agree_gammaAboveHalf hopposite).bind fun _ _ hreflected => ?_
  exact (agree_mul hsine hreflected).bind fun _ _ hproduct => agree_div hpi hproduct

theorem agree_gamma (h : Same x x') : Agree Same (gamma ctx x) (gamma ctx x') := by
  unfold gamma
  rw [h.isWhole, h.isPositive, decide_eq_decide.2 (h.lt (.refl half))]
  refine .ite Iff.rfl (fun _ _ => agree_same _) fun _ _ => ?_
  exact .ite Iff.rfl (fun _ _ => agree_reflectedGamma h) fun _ _ => agree_gammaAboveHalf h

theorem agree_factorial (h : Same x x') (hword : x.toWord? = x'.toWord?) :
    Agree Same (factorial ctx x) (factorial ctx x') := by
  unfold factorial
  rw [h.isWhole, wholeFactorial_congr hword]
  refine .ite Iff.rfl (fun _ _ => agree_same _) fun _ _ => ?_
  exact (agree_add h (.refl 1)).bind fun _ _ hnext => agree_gamma hnext

end Traced

end Reckoner
