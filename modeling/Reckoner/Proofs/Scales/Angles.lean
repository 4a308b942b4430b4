import Reckoner.Context.Angle
import Reckoner.Context.InverseAngle
import Reckoner.Proofs.Decimal.Whole
import Reckoner.Proofs.Scales.Agreement

/-!
# Angles of one value

An angle is reduced by a number of turns and halved a number of times that its value decides, so the
series of two representations start from one value.
-/

namespace Reckoner

open Decimal

namespace Traced

variable {ctx : Context} {x x' y y' : Decimal}

/-! ## Functions of an angle -/

/-- The turn that is taken off or added where the number of turns came out wrong. -/
def lastTurn (ctx : Context) (pi turn reduced : Decimal) : Traced Decimal :=
  if pi < reduced then sub ctx reduced turn
  else if reduced < -pi then add ctx reduced turn
  else pure reduced

def principalAngle (ctx : Context) (x : Decimal) : Traced Decimal := do
  let pi ← lift ctx.pi
  if x.abs ≤ pi then return x
  let turn ← mul ctx pi 2
  let quotient ← div ctx x turn
  let whole ← mul ctx quotient.wholePart turn
  let reduced ← sub ctx x whole
  lastTurn ctx pi turn reduced

def sinTerms (ctx : Context) (x square : Decimal) : Terms where
  next k term := do
    let product ← mul ctx term square
    let quotient ← div ctx product (ofNat (2 * k * (2 * k + 1)))
    return -quotient
  term _ term := pure term
  reference _ := x

def cosTerms (ctx : Context) (square : Decimal) : Terms where
  next k term := do
    let product ← mul ctx term square
    let quotient ← div ctx product (ofNat ((2 * k - 1) * (2 * k)))
    return -quotient
  term _ term := pure term
  reference _ := 1

def sin (ctx : Context) (x : Decimal) : Traced Decimal :=
  if x.isZero then pure 0
  else do
    let wide ← lift (ctx.forAngle x)
    let reduced ← principalAngle wide x
    let square ← mul wide reduced reduced
    let sum ← sumSeries wide (sinTerms wide reduced square) reduced
    round ctx sum

def cos (ctx : Context) (x : Decimal) : Traced Decimal :=
  if x.isZero then pure 1
  else do
    let wide ← lift (ctx.forAngle x)
    let reduced ← principalAngle wide x
    let square ← mul wide reduced reduced
    let sum ← sumSeries wide (cosTerms wide square) 1
    round ctx sum

def tan (ctx : Context) (x : Decimal) : Traced Decimal := do
  let sine ← sin ctx.guarded x
  let cosine ← cos ctx.guarded x
  div ctx sine cosine

def cot (ctx : Context) (x : Decimal) : Traced Decimal := do
  let cosine ← cos ctx.guarded x
  let sine ← sin ctx.guarded x
  div ctx cosine sine

@[simp] theorem result_lastTurn (pi turn reduced : Decimal) :
    (lastTurn ctx pi turn reduced).result =
      .ok (if pi < reduced then ctx.sub reduced turn
        else if reduced < -pi then ctx.add reduced turn
        else reduced) := by
  unfold lastTurn
  split
  · exact result_sub
  split
  · exact result_add
  · rfl

@[simp] theorem result_principalAngle : (principalAngle ctx x).result = ctx.principalAngle x := by
  simp only [principalAngle, Context.principalAngle, result_bind, result_lift, result_ite,
    result_pure, result_mul, result_div, result_sub, result_lastTurn, ok_bind]
  rfl

@[simp] theorem series_sinTerms (ctx : Context) (x : Decimal) :
    (sinTerms ctx x (ctx.mul x x)).series = ctx.sinSeries x := by
  simp [Terms.series, sinTerms, Context.sinSeries]
  rfl

@[simp] theorem series_cosTerms (ctx : Context) (x : Decimal) :
    (cosTerms ctx (ctx.mul x x)).series = ctx.cosSeries x := by
  simp [Terms.series, cosTerms, Context.cosSeries]
  rfl

@[simp] theorem result_sin : (sin ctx x).result = ctx.sin x := by
  simp [sin, Context.sin]
  rfl

@[simp] theorem result_cos : (cos ctx x).result = ctx.cos x := by
  simp [cos, Context.cos]
  rfl

@[simp] theorem result_tan : (tan ctx x).result = ctx.tan x := by
  simp [tan, Context.tan]

@[simp] theorem result_cot : (cot ctx x).result = ctx.cot x := by
  simp [cot, Context.cot]

theorem Same.wholePart (h : Same x x') : Same x.wholePart x'.wholePart := by
  unfold Same
  rw [toRat_wholePart, toRat_wholePart, h.toRat_eq]

theorem Same.forAngle (h : Same x x') : ctx.forAngle x = ctx.forAngle x' := by
  unfold Context.forAngle
  rw [h.exponent]

theorem agree_lastTurn {pi turn turn' : Decimal} (hturn : Same turn turn') (h : Same x x') :
    Agree Same (lastTurn ctx pi turn x) (lastTurn ctx pi turn' x') := by
  refine .ite ((Same.refl pi).lt h) (fun _ _ => agree_sub h hturn) fun _ _ => ?_
  exact .ite (h.lt (.refl _)) (fun _ _ => agree_add h hturn) fun _ _ => agree_pure h

theorem agree_principalAngle (h : Same x x') :
    Agree Same (principalAngle ctx x) (principalAngle ctx x') := by
  refine (agree_lift _).bind fun pi pi' hpi => ?_
  subst hpi
  refine .ite (h.abs.le (.refl pi)) (fun _ _ => agree_pure h) fun _ _ => ?_
  refine (agree_mul (.refl pi) (.refl 2)).bind fun turn turn' hturn => ?_
  refine (agree_div h hturn).bind fun quotient quotient' hquotient => ?_
  refine (agree_mul hquotient.wholePart hturn).bind fun whole whole' hwhole => ?_
  exact (agree_sub h hwhole).bind fun reduced reduced' hreduced => agree_lastTurn hturn hreduced

theorem agree_sinTerms (h : Same x x') (h' : Same y y') :
    (sinTerms ctx x y).Agree (sinTerms ctx x' y') where
  next hterm := (agree_mul hterm h').bind fun _ _ hproduct =>
    agree_negated (agree_div hproduct (.refl _))
  term hterm := agree_pure hterm
  reference _ := h

theorem agree_cosTerms (h : Same x x') : (cosTerms ctx x).Agree (cosTerms ctx x') where
  next hterm := (agree_mul hterm h).bind fun _ _ hproduct =>
    agree_negated (agree_div hproduct (.refl _))
  term hterm := agree_pure hterm
  reference _ := rfl

theorem agree_sin (h : Same x x') : Agree Same (sin ctx x) (sin ctx x') := by
  unfold sin
  rw [h.isZero, h.forAngle]
  refine .ite Iff.rfl (fun _ _ => agree_pure rfl) fun _ _ => ?_
  refine (agree_lift _).bind fun wide wide' hwide => ?_
  subst hwide
  refine (agree_principalAngle h).bind fun reduced reduced' hreduced => ?_
  refine (agree_mul hreduced hreduced).bind fun square square' hsquare => ?_
  exact (agree_sumSeries (agree_sinTerms hreduced hsquare) hreduced).bind fun _ _ hsum =>
    agree_round hsum

theorem agree_cos (h : Same x x') : Agree Same (cos ctx x) (cos ctx x') := by
  unfold cos
  rw [h.isZero, h.forAngle]
  refine .ite Iff.rfl (fun _ _ => agree_pure rfl) fun _ _ => ?_
  refine (agree_lift _).bind fun wide wide' hwide => ?_
  subst hwide
  refine (agree_principalAngle h).bind fun reduced reduced' hreduced => ?_
  refine (agree_mul hreduced hreduced).bind fun square square' hsquare => ?_
  exact (agree_sumSeries (agree_cosTerms hsquare) (.refl 1)).bind fun _ _ hsum => agree_round hsum

theorem agree_tan (h : Same x x') : Agree Same (tan ctx x) (tan ctx x') :=
  (agree_sin h).bind fun _ _ hsine => (agree_cos h).bind fun _ _ hcosine =>
    agree_div hsine hcosine

theorem agree_cot (h : Same x x') : Agree Same (cot ctx x) (cot ctx x') :=
  (agree_cos h).bind fun _ _ hcosine => (agree_sin h).bind fun _ _ hsine =>
    agree_div hcosine hsine

/-! ## Angles from their functions -/

def halveAngle (ctx : Context) : (limit : Nat) → Decimal → Traced (Decimal × Nat)
  | 0, x => pure (x, 0)
  | limit + 1, x =>
    if .ofScaled 1 1 < x then do
      let square ← mul ctx x x
      let sum ← add ctx 1 square
      let root ← sqrt ctx sum
      let denominator ← add ctx 1 root
      let tangent ← div ctx x denominator
      let reduced ← halveAngle ctx limit tangent
      return (reduced.1, reduced.2 + 1)
    else pure (x, 0)

def atanTerms (ctx : Context) (x square : Decimal) : Terms where
  next _ power := mul ctx power square
  term k power := do
    let quotient ← div ctx power (ofNat (2 * k + 1))
    return Context.alternating k quotient
  reference _ := x

def atanUpToOne (ctx : Context) (x : Decimal) : Traced Decimal := do
  let reduced ← halveAngle ctx 16 x
  let square ← mul ctx reduced.1 reduced.1
  let sum ← sumSeries ctx (atanTerms ctx reduced.1 square) reduced.1
  mul ctx sum (ofNat (Nat.pow 2 reduced.2))

def atanOfPositive (ctx : Context) (x : Decimal) : Traced Decimal :=
  let wide := ctx.guarded
  if 1 < x then do
    let inverse ← div wide 1 x
    let quarter ← lift wide.quarterTurn
    let rest ← atanUpToOne wide inverse
    let angle ← sub wide quarter rest
    round ctx angle
  else do
    let angle ← atanUpToOne wide x
    round ctx angle

def atan (ctx : Context) (x : Decimal) : Traced Decimal :=
  if x.isZero then pure 0
  else if x.isNegative then do
    let angle ← atanOfPositive ctx (-x)
    return -angle
  else atanOfPositive ctx x

def asin (ctx : Context) (x : Decimal) : Traced Decimal :=
  if 1 < x.abs then lift (.error (.undefined "asin" "argument must lie in [-1, 1]"))
  else if x.isZero then pure 0
  else
    let wide := ctx.guarded
    if x.abs.sameValue 1 then do
      let quarter ← lift wide.quarterTurn
      round ctx (if x.isNegative then -quarter else quarter)
    else do
      let square ← mul wide x x
      let difference ← sub wide 1 square
      let cosine ← sqrt wide difference
      let tangent ← div wide x cosine
      atan ctx tangent

/-- A quarter turn less an angle. -/
def complement (ctx : Context) (angle : Traced Decimal) : Traced Decimal := do
  let quarter ← lift ctx.guarded.quarterTurn
  let angle ← angle
  let difference ← sub ctx.guarded quarter angle
  round ctx difference

def acos (ctx : Context) (x : Decimal) : Traced Decimal := complement ctx (asin ctx.guarded x)

def acot (ctx : Context) (x : Decimal) : Traced Decimal := complement ctx (atan ctx.guarded x)

@[simp] theorem result_halveAngle (limit : Nat) (x : Decimal) :
    (halveAngle ctx limit x).result = ctx.halveAngle limit x := by
  induction limit generalizing x with
  | zero => rfl
  | succ limit ih =>
    simp only [halveAngle, Context.halveAngle, result_ite, result_bind, result_mul, result_add,
      result_sqrt, result_div, result_pure, ok_bind, ih]
    rfl

@[simp] theorem series_atanTerms (ctx : Context) (x : Decimal) :
    (atanTerms ctx x (ctx.mul x x)).series = ctx.atanSeries x := by
  simp only [Terms.series, atanTerms, Context.atanSeries, result_mul, result_bind, result_div,
    result_pure]
  rfl

@[simp] theorem result_atanUpToOne : (atanUpToOne ctx x).result = ctx.atanUpToOne x := by
  simp only [atanUpToOne, Context.atanUpToOne, result_bind, result_halveAngle, result_mul,
    result_sumSeries, series_atanTerms, ok_bind]
  rfl

@[simp] theorem result_atanOfPositive : (atanOfPositive ctx x).result = ctx.atanOfPositive x := by
  simp only [atanOfPositive, Context.atanOfPositive, result_ite, result_bind, result_div,
    result_lift, result_atanUpToOne, result_sub, result_round, ok_bind]
  rfl

@[simp] theorem result_atan : (atan ctx x).result = ctx.atan x := by
  simp only [atan, Context.atan, result_ite, result_pure, result_bind, result_atanOfPositive]
  rfl

@[simp] theorem result_asin : (asin ctx x).result = ctx.asin x := by
  simp only [asin, Context.asin, result_ite, result_lift, result_pure, result_bind, result_round,
    result_mul, result_sub, result_sqrt, result_div, result_atan, ok_bind]
  rfl

@[simp] theorem result_acos : (acos ctx x).result = ctx.acos x := by
  simp only [acos, complement, Context.acos, result_bind, result_lift, result_asin, result_sub,
    result_round, ok_bind]
  rfl

@[simp] theorem result_acot : (acot ctx x).result = ctx.acot x := by
  simp only [acot, complement, Context.acot, result_bind, result_lift, result_atan, result_sub,
    result_round, ok_bind]
  rfl

theorem agree_halveAngle (limit : Nat) (h : Same x x') :
    Agree SameCount (halveAngle ctx limit x) (halveAngle ctx limit x') := by
  induction limit generalizing x x' with
  | zero => exact agree_pure ⟨h, rfl⟩
  | succ limit ih =>
    refine .ite ((Same.refl _).lt h) (fun _ _ => ?_) fun _ _ => agree_pure ⟨h, rfl⟩
    refine (agree_mul h h).bind fun _ _ hsquare => ?_
    refine (agree_add (.refl 1) hsquare).bind fun _ _ hsum => ?_
    refine (agree_sqrt hsum).bind fun _ _ hroot => ?_
    refine (agree_add (.refl 1) hroot).bind fun _ _ hdenominator => ?_
    refine (agree_div h hdenominator).bind fun _ _ htangent => ?_
    exact (ih htangent).bind fun _ _ hreduced =>
      agree_pure ⟨hreduced.1, congrArg (· + 1) hreduced.2⟩

theorem agree_atanTerms (h : Same x x') (h' : Same y y') :
    (atanTerms ctx x y).Agree (atanTerms ctx x' y') where
  next hpower := agree_mul hpower h'
  term hpower := (agree_div hpower (.refl _)).bind fun _ _ hquotient =>
    agree_pure (hquotient.alternating _)
  reference _ := h

theorem agree_atanUpToOne (h : Same x x') :
    Agree Same (atanUpToOne ctx x) (atanUpToOne ctx x') := by
  refine (agree_halveAngle 16 h).bind fun reduced reduced' hreduced => ?_
  refine (agree_mul hreduced.1 hreduced.1).bind fun _ _ hsquare => ?_
  refine (agree_sumSeries (agree_atanTerms hreduced.1 hsquare) hreduced.1).bind fun _ _ hsum => ?_
  rw [hreduced.2]
  exact agree_mul hsum (.refl _)

theorem agree_atanOfPositive (h : Same x x') :
    Agree Same (atanOfPositive ctx x) (atanOfPositive ctx x') := by
  refine .ite ((Same.refl 1).lt h) (fun _ _ => ?_) fun _ _ => ?_
  · refine (agree_div (.refl 1) h).bind fun _ _ hinverse => ?_
    refine (agree_same _).bind fun _ _ hquarter => ?_
    refine (agree_atanUpToOne hinverse).bind fun _ _ hrest => ?_
    exact (agree_sub hquarter hrest).bind fun _ _ hangle => agree_round hangle
  · exact (agree_atanUpToOne h).bind fun _ _ hangle => agree_round hangle

theorem agree_atan (h : Same x x') : Agree Same (atan ctx x) (atan ctx x') := by
  unfold atan
  rw [h.isZero, h.isNegative]
  refine .ite Iff.rfl (fun _ _ => agree_pure rfl) fun _ _ => ?_
  exact .ite Iff.rfl (fun _ _ => agree_negated (agree_atanOfPositive h.neg)) fun _ _ =>
    agree_atanOfPositive h

theorem agree_asin (h : Same x x') : Agree Same (asin ctx x) (asin ctx x') := by
  unfold asin
  rw [h.isZero, h.isNegative, h.abs.sameValue (.refl 1)]
  refine .ite ((Same.refl 1).lt h.abs) (fun _ _ => agree_same _) fun _ _ => ?_
  refine .ite Iff.rfl (fun _ _ => agree_pure rfl) fun _ _ => ?_
  refine .ite Iff.rfl (fun _ _ => ?_) fun _ _ => ?_
  · refine (agree_same _).bind fun _ _ hquarter => agree_round ?_
    split
    · exact hquarter.neg
    · exact hquarter
  · refine (agree_mul h h).bind fun _ _ hsquare => ?_
    refine (agree_sub (.refl 1) hsquare).bind fun _ _ hdifference => ?_
    refine (agree_sqrt hdifference).bind fun _ _ hcosine => ?_
    exact (agree_div h hcosine).bind fun _ _ htangent => agree_atan htangent

theorem agree_complement {t u : Traced Decimal} (h : Agree Same t u) :
    Agree Same (complement ctx t) (complement ctx u) :=
  (agree_same _).bind fun _ _ hquarter => h.bind fun _ _ hangle =>
    (agree_sub hquarter hangle).bind fun _ _ hdifference => agree_round hdifference

theorem agree_acos (h : Same x x') : Agree Same (acos ctx x) (acos ctx x') :=
  agree_complement (agree_asin h)

theorem agree_acot (h : Same x x') : Agree Same (acot ctx x) (acot ctx x') :=
  agree_complement (agree_atan h)

end Traced

end Reckoner
