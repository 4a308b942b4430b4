import Reckoner.Proofs.Placeholder.Slots

/-!
# Texts without bindings

Where nothing is bound, a slot has no value and a name is not replaced. A text is left as it is,
or it holds a slot and is refused.
-/

namespace Reckoner

variable {calculator : Calculator} {text : List Char} {x : Decimal}

namespace Bindings

/-- No value stands at any index of an empty list. -/
theorem slot_empty (calculator : Calculator) (inner : List Char) (position : Nat) :
    ∃ error, empty.slot calculator inner position = .error error := by
  cases h : empty.slot calculator inner position with
  | error error => exact ⟨error, rfl⟩
  | ok found =>
    obtain ⟨index, -, -, hfound⟩ := slot_eq_ok h
    simp [empty] at hfound

theorem resolveSlots_empty (calculator : Calculator) (position : Nat) (text : List Char) :
    empty.resolveSlots calculator position text = .ok (text, []) ∨
      ['$', '('] <:+: text ∧ ∃ error, empty.resolveSlots calculator position text = .error error := by
  induction text generalizing position with
  | nil => exact .inl (by rw [resolveSlots])
  | cons c rest ih =>
    by_cases hslot : c = '$' ∧ rest.head? = some '('
    · obtain ⟨rfl, hopen⟩ := hslot
      obtain ⟨rest, rfl⟩ := List.head?_eq_some_iff.1 hopen
      refine .inr ⟨(List.prefix_append ['$', '('] rest).isInfix, ?_⟩
      cases h : empty.resolveSlots calculator position ('$' :: '(' :: rest) with
      | error error => exact ⟨error, rfl⟩
      | ok found =>
        obtain ⟨inner, _, _, _, _, -, -, hfound, -⟩ := resolveSlots_slot h
        obtain ⟨error, herror⟩ := slot_empty calculator inner position
        simp [herror] at hfound
    · rw [resolveSlots_cons fun hc hopen => hslot ⟨hc, hopen⟩]
      obtain hrest | ⟨hopens, error, hrest⟩ := ih (position + 1)
      · exact .inl (by rw [hrest]; rfl)
      · exact .inr ⟨hopens.trans (List.suffix_cons c rest).isInfix, error, by rw [hrest]; rfl⟩

theorem fillIn_empty (calculator : Calculator) (text : List Char) :
    empty.fillIn calculator text = .ok text ∨
      ['$', '('] <:+: text ∧ ∃ error, empty.fillIn calculator text = .error error := by
  by_cases hdollar : '$' ∈ text
  · rw [fillIn_eq hdollar]
    obtain h | ⟨hopens, error, h⟩ := resolveSlots_empty calculator 0 text
    · refine .inl ?_
      rw [h]
      simp [Except.map, empty]
    · exact .inr ⟨hopens, error, by rw [h]; rfl⟩
  · exact .inl (fillIn_of_no_dollar hdollar)

end Bindings

namespace Calculator

theorem evaluate_empty (h : ¬ ['$', '('] <:+: text) :
    calculator.evaluate text .empty = calculator.evaluatePlain text := by
  unfold evaluate
  rw [(Bindings.fillIn_empty calculator text).resolve_right fun hslot => h hslot.1]
  rfl

theorem evaluatePlain_of_evaluate_empty (h : calculator.evaluate text .empty = .ok x) :
    calculator.evaluatePlain text = .ok x := by
  unfold evaluate at h
  obtain hfill | ⟨-, error, hfill⟩ := Bindings.fillIn_empty calculator text <;> rw [hfill] at h
  · exact h
  · exact absurd h nofun

end Calculator

end Reckoner
