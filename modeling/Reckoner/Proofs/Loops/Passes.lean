import Mathlib.Tactic
import Reckoner.Context.Exponential
import Reckoner.Context.InverseAngle

/-!
# Passes of open loops

The series and the reductions of the special functions are loops that end by a test on the numbers
and not by a count. Here each loop is given by what one pass does, and it ends if some pass breaks
off. A computation that bounds the number of passes has the result of the open loop, once that ends
within the bound.
-/

namespace Reckoner

/-- The loop breaks off with a result in one of its first passes. A pass fails, goes on with a new
state or breaks off. -/
inductive EndsWithin {σ ρ : Type} (pass : σ → Arithmetic (σ ⊕ ρ)) : Nat → σ → ρ → Prop where
  | breaks {passes : Nat} {s : σ} {r : ρ} (h : pass s = .ok (.inr r)) :
      EndsWithin pass (passes + 1) s r
  | goesOn {passes : Nat} {s s' : σ} {r : ρ} (h : pass s = .ok (.inl s'))
      (hrest : EndsWithin pass passes s' r) : EndsWithin pass (passes + 1) s r

namespace EndsWithin

variable {σ ρ : Type} {pass : σ → Arithmetic (σ ⊕ ρ)} {s : σ} {r : ρ}

theorem mono {n m : Nat} (h : EndsWithin pass n s r) (hnm : n ≤ m) : EndsWithin pass m s r := by
  induction h generalizing m with
  | breaks h =>
    obtain ⟨m, rfl⟩ := Nat.exists_eq_succ_of_ne_zero (show m ≠ 0 by omega)
    exact breaks h
  | goesOn h _ ih =>
    obtain ⟨m, rfl⟩ := Nat.exists_eq_succ_of_ne_zero (show m ≠ 0 by omega)
    exact goesOn h (ih (by omega))

/-- A loop ends if every pass breaks off or brings a measure of its states down. -/
theorem of_measure {I : Nat → σ → Prop} {Q : ρ → Prop}
    (hpass : ∀ n s, I n s → (∃ r, pass s = .ok (.inr r) ∧ Q r) ∨
      ∃ m s', n = m + 1 ∧ pass s = .ok (.inl s') ∧ I m s') {n : Nat} {s : σ} (h : I n s) :
    ∃ r, EndsWithin pass (n + 1) s r ∧ Q r := by
  induction n generalizing s with
  | zero =>
    obtain ⟨r, hr, hQ⟩ | ⟨m, s', hm, -⟩ := hpass 0 s h
    · exact ⟨r, breaks hr, hQ⟩
    · omega
  | succ n ih =>
    obtain ⟨r, hr, hQ⟩ | ⟨m, s', hm, hs', hI⟩ := hpass _ s h
    · exact ⟨r, breaks hr, hQ⟩
    · obtain rfl : n = m := by omega
      obtain ⟨r, hr, hQ⟩ := ih hI
      exact ⟨r, goesOn hs' hr, hQ⟩

/-- A loop never ends if every pass goes on and keeps an invariant. -/
theorem false_of_invariant {I : σ → Prop} (hpass : ∀ s, I s → ∃ s', pass s = .ok (.inl s') ∧ I s')
    {n : Nat} (h : I s) : ¬ EndsWithin pass n s r := by
  intro hends
  induction hends with
  | breaks hbreaks =>
    obtain ⟨s', hs', -⟩ := hpass _ h
    rw [hbreaks] at hs'
    cases hs'
  | goesOn hgoes _ ih =>
    obtain ⟨s', hs', hI⟩ := hpass _ h
    rw [hgoes] at hs'
    cases hs'
    exact ih hI

theorem bounded {f : Nat → σ → Arithmetic ρ}
    (hf : ∀ n s, f (n + 1) s = pass s >>= fun next => next.elim (f n) .ok) {passes n : Nat}
    (h : EndsWithin pass passes s r) (hn : passes ≤ n) : f n s = .ok r := by
  induction h generalizing n with
  | breaks h =>
    obtain ⟨n, rfl⟩ := Nat.exists_eq_succ_of_ne_zero (show n ≠ 0 by omega)
    rw [hf, h]
    rfl
  | goesOn h _ ih =>
    obtain ⟨n, rfl⟩ := Nat.exists_eq_succ_of_ne_zero (show n ≠ 0 by omega)
    rw [hf, h]
    exact ih (by omega)

end EndsWithin

open Decimal

namespace Context

/-! ## Series -/

variable {ctx : Context} {series : Series} {k passes : Nat} {factor sum r : Decimal}

/-- One pass of a series, from the index, the running factor and the sum. -/
def seriesPass (ctx : Context) (series : Series) (state : Nat × Decimal × Decimal) :
    Arithmetic ((Nat × Decimal × Decimal) ⊕ Decimal) := do
  let (k, factor, sum) := state
  let factor ← series.next k factor
  let term ← series.term k factor
  if ctx.isNegligible term (series.reference sum) then return .inr sum
  return .inl (k + 1, factor, ctx.add sum term)

theorem seriesPass_of_ok {next term : Decimal} (hnext : series.next k factor = .ok next)
    (hterm : series.term k next = .ok term) :
    ctx.seriesPass series (k, factor, sum) =
      if ctx.isNegligible term (series.reference sum) = true then .ok (.inr sum)
      else .ok (.inl (k + 1, next, ctx.add sum term)) := by
  simp only [seriesPass, hnext]
  change (series.term k next >>= _) = _
  rw [hterm]
  rfl

theorem sumFrom_succ (ctx : Context) (series : Series) (limit k : Nat) (factor sum : Decimal) :
    ctx.sumFrom series (limit + 1) k factor sum =
      ctx.seriesPass series (k, factor, sum) >>= fun next =>
        next.elim (fun (k, factor, sum) => ctx.sumFrom series limit k factor sum) .ok := by
  simp only [sumFrom, seriesPass, bind_assoc]
  refine bind_congr fun next => bind_congr fun term => ?_
  split <;> rfl

/-- The bounded sum of a series is that of the open loop. -/
theorem sumSeries_of_endsWithin {first : Decimal}
    (h : EndsWithin (ctx.seriesPass series) passes (1, first, first) r)
    (hlimit : passes ≤ termLimit) :
    ctx.sumSeries series first = .ok r :=
  h.bounded (f := fun n (k, factor, sum) => ctx.sumFrom series n k factor sum)
    (fun n _ => sumFrom_succ ctx series n _ _ _) hlimit

end Context

/-! ## Reductions -/

/-- Steps that bring a number near the point where a series converges fast. -/
structure Reduction where
  isFar : Decimal → Bool
  step : Decimal → Arithmetic Decimal

namespace Reduction

variable {reduction : Reduction} {x y : Decimal} {count passes : Nat}

/-- One pass of a reduction, from the number and the count of the steps before. -/
def pass (reduction : Reduction) (state : Decimal × Nat) :
    Arithmetic ((Decimal × Nat) ⊕ (Decimal × Nat)) :=
  if reduction.isFar state.1 then do
    return .inl (← reduction.step state.1, state.2 + 1)
  else .ok (.inr state)

/-- At most the given number of steps, and their count. -/
def reduce (reduction : Reduction) : (limit : Nat) → Decimal → Arithmetic (Decimal × Nat)
  | 0, x => .ok (x, 0)
  | limit + 1, x =>
    if reduction.isFar x then do
      let reduced ← reduction.step x
      let (reduced, count) ← reduce reduction limit reduced
      return (reduced, count + 1)
    else .ok (x, 0)

/-- The bounded steps are those of the open loop. -/
theorem reduce_of_endsWithin (h : EndsWithin reduction.pass passes (x, 0) (y, count)) {limit : Nat}
    (hlimit : passes ≤ limit) : reduction.reduce limit x = .ok (y, count) := by
  have hbounded := h.bounded (f := fun n (x, before) => do
    let (reduced, count) ← reduction.reduce n x
    return (reduced, before + count)) (fun n s => ?_) hlimit
  · simp only [zero_add] at hbounded
    rw [← hbounded]
    exact (bind_pure _).symm
  · simp only [reduce, pass]
    split
    · simp only [bind_assoc]
      refine bind_congr fun reduced => ?_
      simp only [pure_bind, Sum.elim_inl]
      refine bind_congr fun next => ?_
      rw [Nat.add_right_comm, Nat.add_assoc]
    · rfl

def halving : Reduction where
  isFar x := decide (half < x)
  step x := .ok (x * half)

def rooting (ctx : Context) : Reduction where
  isFar x := decide (ofScaled 11 1 < x ∨ x < ofScaled 9 1)
  step := ctx.sqrt

def angleHalving (ctx : Context) : Reduction where
  isFar x := decide (ofScaled 1 1 < x)
  step x := do
    let root ← ctx.sqrt (ctx.add 1 (ctx.mul x x))
    ctx.div x (ctx.add 1 root)

theorem halve_eq_reduce (limit : Nat) (x : Decimal) :
    .ok (Context.halve limit x) = halving.reduce limit x := by
  induction limit generalizing x with
  | zero => rfl
  | succ limit ih =>
    simp only [Context.halve, reduce, halving, decide_eq_true_eq]
    split
    · change _ = halving.reduce limit (x * half) >>= _
      rw [← ih]
      rfl
    · rfl

theorem approachOne_eq_reduce (ctx : Context) (limit : Nat) (x : Decimal) :
    ctx.approachOne limit x = (rooting ctx).reduce limit x := by
  induction limit generalizing x with
  | zero => rfl
  | succ limit ih => simp only [Context.approachOne, reduce, rooting, decide_eq_true_eq, ih]

theorem halveAngle_eq_reduce (ctx : Context) (limit : Nat) (x : Decimal) :
    ctx.halveAngle limit x = (angleHalving ctx).reduce limit x := by
  induction limit generalizing x with
  | zero => rfl
  | succ limit ih =>
    simp only [Context.halveAngle, reduce, angleHalving, decide_eq_true_eq, ih, bind_assoc]

end Reduction

end Reckoner
