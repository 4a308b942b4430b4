import Reckoner.Proofs.Placeholder.SinglePass
import Reckoner.Proofs.Syntax.Evaluation

/-!
# Answers under other nesting limits

A text with a value prints a tree that fits the limit, and the value is that of the tree. A greater
limit leaves room for the same tree, in the indices of placeholders as in the text itself, so no
trial that failed under the smaller limit can lead to another answer.
-/

namespace Reckoner

open Syntax

variable {context : Context} {levels deeper : Nat} {bindings : Bindings} {text inner : List Char}
  {position : Nat}

theorem evaluatePlain_deeper (hlevels : levels ≤ deeper) {value : Decimal}
    (h : Calculator.evaluatePlain ⟨context, levels⟩ text = .ok value) :
    Calculator.evaluatePlain ⟨context, deeper⟩ text = .ok value := by
  obtain ⟨tree, hprints, hdepth, hvalue⟩ := evaluatePlain_eq_ok_iff.1 h
  exact evaluatePlain_eq_ok_iff.2 ⟨tree, hprints, hdepth.trans hlevels, hvalue⟩

namespace Bindings

theorem slot_deeper (hlevels : levels ≤ deeper) {found : Nat × Decimal}
    (h : bindings.slot ⟨context, levels⟩ inner position = .ok found) :
    bindings.slot ⟨context, deeper⟩ inner position = .ok found := by
  obtain ⟨index, hindex, h⟩ := bind_eq_ok.1 h
  exact bind_eq_ok.2 ⟨index, evaluatePlain_deeper hlevels hindex, h⟩

theorem resolveSlots_deeper (hlevels : levels ≤ deeper) {resolved : List Char × List (Nat × Decimal)}
    (h : bindings.resolveSlots ⟨context, levels⟩ position text = .ok resolved) :
    bindings.resolveSlots ⟨context, deeper⟩ position text = .ok resolved := by
  fun_induction bindings.resolveSlots ⟨context, levels⟩ position text generalizing resolved with
  | case1 => rwa [resolveSlots]
  | case2 | case3 => simp at h
  | case4 position rest inner after hgroup hfind ih =>
    obtain ⟨found, hfound, hrest⟩ := bind_eq_ok.1 h
    obtain ⟨more, hmore, hresolved⟩ := bind_eq_ok.1 hrest
    rw [resolveSlots]
    split
    · simp_all
    next inner' after' hgroup' =>
    obtain ⟨rfl, rfl⟩ := Prod.mk.inj (Option.some.inj (hgroup'.symm.trans hgroup))
    simp only [hfind]
    exact bind_eq_ok.2 ⟨found, slot_deeper hlevels hfound, bind_eq_ok.2 ⟨more, ih hmore, hresolved⟩⟩
  | case5 position c rest hnot ih =>
    obtain ⟨more, hmore, h⟩ := bind_eq_ok.1 h
    rw [resolveSlots]
    · exact bind_eq_ok.2 ⟨more, ih hmore, h⟩
    · exact hnot

theorem fillIn_deeper (hlevels : levels ≤ deeper) {plain : List Char}
    (h : bindings.fillIn ⟨context, levels⟩ text = .ok plain) :
    bindings.fillIn ⟨context, deeper⟩ text = .ok plain := by
  by_cases hdollar : '$' ∈ text
  · rw [fillIn_eq hdollar] at h ⊢
    obtain ⟨resolved, hresolved, h⟩ := map_eq_ok.1 h
    exact map_eq_ok.2 ⟨resolved, resolveSlots_deeper hlevels hresolved, h⟩
  · rw [fillIn_of_no_dollar hdollar] at h ⊢
    exact h

end Bindings

namespace Calculator

/-- What a calculator evaluates to a value, it evaluates to the same value under any greater
nesting limit, whatever is bound. -/
theorem evaluate_deeper (context : Context) (levels deeper : Nat) (hlevels : levels ≤ deeper)
    (bindings : Bindings) (text : List Char) (value : Decimal)
    (h : evaluate ⟨context, levels⟩ text bindings = .ok value) :
    evaluate ⟨context, deeper⟩ text bindings = .ok value := by
  obtain ⟨plain, hplain, h⟩ := Bindings.bind_eq_ok.1 h
  exact Bindings.bind_eq_ok.2
    ⟨plain, Bindings.fillIn_deeper hlevels hplain, evaluatePlain_deeper hlevels h⟩

/-- A comparison whose left side is tried as a group before it is read as an expression. -/
theorem evaluate_deeper_group :
    let context : Context := ⟨10, .halfUp, by decide⟩
    let text := "if(((1))>0,2,3)".toList
    evaluate ⟨context, 4⟩ text .empty = .ok 2 ∧ evaluate ⟨context, 5⟩ text .empty = .ok 2 := by
  intro context text
  have h : evaluate ⟨context, 4⟩ text .empty = .ok 2 := by decide +kernel
  exact ⟨h, evaluate_deeper context 4 5 (by decide) .empty text 2 h⟩

end Calculator

end Reckoner
