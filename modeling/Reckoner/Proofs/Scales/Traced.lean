import Mathlib.Tactic
import Reckoner.Context.SquareRoot

/-!
# Scales that are asked for

A scale that leaves the word range stops at its end, and the number is then another one. A traced
computation runs beside the computation itself and notes every scale that it asks for before it is
stopped, so that it can be said that none was. Two traced computations agree if they end alike once
all scales of both fit.
-/

namespace Reckoner

/-- A computation on numbers with the scales that it asks for. -/
structure Traced (α : Type) where
  result : Arithmetic α
  scales : List Int

namespace Traced

variable {α β γ δ : Type} {t : Traced α} {u : Traced β} {k : α → Traced γ} {l : β → Traced δ}
  {R : α → β → Prop} {S : γ → δ → Prop}

/-- No scale is stopped at an end of the word range. -/
def Fits (t : Traced α) : Prop := ∀ s ∈ t.scales, Word.Fits s

instance (t : Traced α) : Decidable t.Fits :=
  inferInstanceAs (Decidable (∀ s ∈ t.scales, Word.Fits s))

instance : Monad Traced where
  pure a := ⟨.ok a, []⟩
  bind t k := match t.result with
    | .ok a => ⟨(k a).result, t.scales ++ (k a).scales⟩
    | .error e => ⟨.error e, t.scales⟩

/-- A computation that is not looked into. -/
def lift (a : Arithmetic α) : Traced α := ⟨a, []⟩

/-- A decimal at a scale that stops at the ends of the range. -/
def ofScaled (unscaled scale : Int) : Traced Decimal := ⟨.ok (.ofScaled unscaled scale), [scale]⟩

/-- A scale that stops at the ends of the range. -/
def saturate (scale : Int) : Traced Int := ⟨.ok (Word.saturate scale), [scale]⟩

/-! ## Results -/

@[simp] theorem result_pure (a : α) : (pure a : Traced α).result = .ok a := rfl

@[simp] theorem result_lift (a : Arithmetic α) : (lift a).result = a := rfl

@[simp] theorem result_ofScaled (u s : Int) : (ofScaled u s).result = .ok (.ofScaled u s) := rfl

@[simp] theorem result_saturate (s : Int) : (saturate s).result = .ok (Word.saturate s) := rfl

@[simp] theorem ok_bind (a : α) (k : α → Arithmetic γ) : (Except.ok a >>= k) = k a := rfl

@[simp] theorem result_bind (t : Traced α) (k : α → Traced γ) :
    (t >>= k).result = t.result >>= fun a => (k a).result := by
  change (match t.result with | .ok a => _ | .error e => _ : Traced γ).result = _
  cases t.result with
  | ok a => rfl
  | error e => rfl

@[simp] theorem result_ite {p : Prop} [Decidable p] (t u : Traced α) :
    (if p then t else u).result = if p then t.result else u.result :=
  apply_ite Traced.result p t u

/-! ## Fitting scales -/

theorem fits_pure (a : α) : (pure a : Traced α).Fits := fun _ h => absurd h List.not_mem_nil

theorem fits_ofScaled {u s : Int} : (ofScaled u s).Fits ↔ Word.Fits s := List.forall_mem_singleton

theorem fits_saturate {s : Int} : (saturate s).Fits ↔ Word.Fits s := List.forall_mem_singleton

theorem fits_bind :
    (t >>= k).Fits ↔ t.Fits ∧ ∀ a, t.result = .ok a → (k a).Fits := by
  change (match t.result with | .ok a => _ | .error e => _ : Traced γ).Fits ↔ _
  cases t.result with
  | ok a => simpa [Fits] using List.forall_mem_append
  | error e => simp [Fits]

/-- After a step that has a result, the rest fits too. -/
theorem fits_bind_of_ok {a : α} (h : t.result = .ok a) :
    (t >>= k).Fits ↔ t.Fits ∧ (k a).Fits := by
  simp [fits_bind, h]

/-! ## Agreement -/

/-- Both computations have results, which are related, or both fail with the same error. -/
inductive Matches (R : α → β → Prop) : Arithmetic α → Arithmetic β → Prop where
  | ok {a : α} {b : β} : R a b → Matches R (.ok a) (.ok b)
  | error (e : ArithmeticError) : Matches R (.error e) (.error e)

theorem Matches.imp {R' : α → β → Prop} {a : Arithmetic α} {b : Arithmetic β} (h : Matches R a b)
    (himp : ∀ x y, a = .ok x → R x y → R' x y) : Matches R' a b := by
  cases h with
  | ok h => exact .ok (himp _ _ rfl h)
  | error e => exact .error e

/-- Two computations end alike, if no scale of either is stopped. -/
def Agree (R : α → β → Prop) (t : Traced α) (u : Traced β) : Prop :=
  t.Fits → u.Fits → Matches R t.result u.result

theorem agree_pure {a : α} {b : β} (h : R a b) : Agree R (pure a) (pure b) := fun _ _ => .ok h

theorem agree_lift (a : Arithmetic α) : Agree Eq (lift a) (lift a) := by
  intro _ _
  cases a with
  | ok a => exact .ok rfl
  | error e => exact .error e

theorem Agree.bind (h : Agree R t u) (hkl : ∀ a b, R a b → Agree S (k a) (l b)) :
    Agree S (t >>= k) (u >>= l) := by
  intro ht hu
  obtain ⟨ht, hk⟩ := fits_bind.1 ht
  obtain ⟨hu, hl⟩ := fits_bind.1 hu
  have hmatches := h ht hu
  rw [result_bind, result_bind]
  generalize t.result = a at *
  generalize u.result = b at *
  cases hmatches with
  | ok hab => exact hkl _ _ hab (hk _ rfl) (hl _ rfl)
  | error e => exact .error e

theorem Agree.ite {p q : Prop} [Decidable p] [Decidable q] {t t' : Traced α} {u u' : Traced β}
    (hpq : p ↔ q) (h : p → q → Agree R t u) (h' : ¬ p → ¬ q → Agree R t' u') :
    Agree R (if p then t else t') (if q then u else u') := by
  by_cases hp : p
  · rw [if_pos hp, if_pos (hpq.1 hp)]
    exact h hp (hpq.1 hp)
  · rw [if_neg hp, if_neg (mt hpq.2 hp)]
    exact h' hp (mt hpq.2 hp)

/-- What is known of one result besides. -/
theorem Agree.and {P : α → Prop} (h : Agree R t u)
    (hP : t.Fits → ∀ a, t.result = .ok a → P a) : Agree (fun a b => R a b ∧ P a) t u :=
  fun ht hu => (h ht hu).imp fun a _ ha hab => ⟨hab, hP ht a ha⟩

theorem Agree.mono {R' : α → β → Prop} (h : Agree R t u) (hR : ∀ a b, R a b → R' a b) :
    Agree R' t u :=
  fun ht hu => (h ht hu).imp fun a b _ => hR a b

end Traced

end Reckoner
