import Reckoner.Proofs.Syntax.Identifiers
import Reckoner.Proofs.Syntax.WholeTexts

/-!
# Evaluating printed trees

A calculator gives a value for exactly the texts that print a tree, and it is the value of the
tree. Where a text can be read without computing, what computing comes to is decided by its tree
as well: the text is reported as unreadable if and only if the first error of the tree is hidden.
-/

namespace Reckoner.Syntax

variable {calculator : Calculator} {text : List Char} {tree : Tree} {value : Decimal} {last : State}

theorem PrintsWhole.no_placeholder (h : PrintsWhole tree text) : '$' ∉ text := by
  obtain ⟨u, n, htree, rfl⟩ := h
  simp [htree.no_placeholder]

theorem PrintsWhole.answers (h : PrintsWhole tree text) (hdepth : tree.depth ≤ calculator.maxDepth)
    (bindings : Bindings) :
    Answers calculator.context (tree.value calculator.context false)
      (calculator.evaluate text bindings) := by
  rw [evaluate_eq_evaluatePlain bindings h.no_placeholder]
  exact answers_printed h hdepth

/-- Only a text that names a conditional prints one. -/
theorem PrintsWhole.unconditional (h : PrintsWhole tree text)
    (hif : "if".toList ∉ identifiers text) (hnif : "nif".toList ∉ identifiers text) :
    tree.unconditional := by
  obtain ⟨u, n, htree, rfl⟩ := h
  obtain hunconditional | hnames := htree.unconditional_or
  · exact hunconditional
  have hspaces : ∀ c ∈ (List.replicate n ' ').head?, c.isAlpha = false := by
    cases n <;> simp [List.replicate_succ]
  obtain ⟨negated, name, hname, hmem⟩ := hnames.left hspaces
  have htable : ∀ entry ∈ Builtin.table, ∀ negated, entry.2 = .conditional negated →
      entry.1 = "if" ∨ entry.1 = "nif" := by decide
  obtain ⟨before, after, hsplit, -⟩ := List.lookup_eq_some_iff.1 hname
  obtain rfl | rfl := htable (name, _) (by rw [hsplit]; simp) negated rfl
  · exact absurd hmem hif
  · exact absurd hmem hnif

/-- A text without placeholders and conditionals has a value if and only if it prints a tree that
has one and is not nested too deep: the value of the tree, rounded and without trailing zeros.
A printed factor that the text behind it cannot extend is the longest factor at its place. -/
theorem evaluate_eq_ok_iff_prints (calculator : Calculator) (bindings : Bindings)
    (text : List Char) (hplaceholder : '$' ∉ text) (hif : "if".toList ∉ identifiers text)
    (hnif : "nif".toList ∉ identifiers text) :
    (∀ answer, calculator.evaluate text bindings = .ok answer ↔
      ∃ tree, PrintsWhole tree text ∧ tree.unconditional ∧ tree.depth ≤ calculator.maxDepth ∧
        ∃ value, tree.value calculator.context false = .ok value ∧
          answer = (calculator.context.round value).canonical) ∧
    ∀ t t' u u' w w', Prints .factor t u → Prints .factor t' u' → u ++ w = u' ++ w' →
      Followed .factor w → u'.length ≤ u.length := by
  refine ⟨fun answer => ⟨fun h => ?_, ?_⟩, fun _ _ _ _ _ _ h h' => h.longest h'⟩
  · rw [evaluate_eq_evaluatePlain bindings hplaceholder] at h
    obtain ⟨tree, hprints, hdepth, hvalue⟩ := evaluatePlain_eq_ok_iff.1 h
    exact ⟨tree, hprints, hprints.unconditional hif hnif, hdepth, hvalue⟩
  · rintro ⟨tree, hprints, -, hdepth, hvalue⟩
    rw [evaluate_eq_evaluatePlain bindings hplaceholder]
    exact evaluatePlain_eq_ok_iff.2 ⟨tree, hprints, hdepth, hvalue⟩

theorem evaluate_eq_ok_iff_prints_power :
    let calculator : Calculator := ⟨⟨10, .halfUp, by decide⟩, 4⟩
    let text := " -2^3 %% 3+ sqrt16^2 ".toList
    '$' ∉ text ∧ "if".toList ∉ identifiers text ∧ "nif".toList ∉ identifiers text ∧
      ∃ tree, PrintsWhole tree text ∧ tree.unconditional ∧ tree.depth ≤ 4 ∧
        ∃ value, tree.value calculator.context false = .ok value ∧
          Decimal.ofInt 15 = (calculator.context.round value).canonical := by
  intro calculator text
  have hplaceholder : '$' ∉ text := by decide
  have hif : "if".toList ∉ identifiers text := by decide +kernel
  have hnif : "nif".toList ∉ identifiers text := by decide +kernel
  refine ⟨hplaceholder, hif, hnif, ?_⟩
  have hiff := (evaluate_eq_ok_iff_prints calculator .empty text hplaceholder hif hnif).1
  exact (hiff (Decimal.ofInt 15)).1 (by decide +kernel)

/-! ## Errors -/

/-- A text that can be read without computing is reported as unreadable if and only if the first
error of its tree is hidden. Otherwise it has the value of the tree or the error of an operation
that the tree fails in. -/
theorem evaluate_of_skipped (calculator : Calculator) (bindings : Bindings) (text : List Char)
    (value : Decimal) (last : State) (h : calculator.read true text = .done value last) :
    ∃ tree, PrintsWhole tree text ∧ tree.depth ≤ calculator.maxDepth ∧
      ((∃ fault, calculator.evaluate text bindings = .error (.unreadable fault)) ↔
        ∃ error, tree.value calculator.context false = .error ⟨error, true⟩) ∧
      Answers calculator.context (tree.value calculator.context false)
        (calculator.evaluate text bindings) := by
  obtain ⟨tree, hprints, hdepth⟩ := printed_of_read h
  have hanswers := hprints.answers hdepth bindings
  refine ⟨tree, hprints, hdepth, ?_, hanswers⟩
  generalize tree.value calculator.context false = result at hanswers ⊢
  obtain ⟨error, hidden⟩ | value := result
  · cases hidden with
    | false => simp [show calculator.evaluate text bindings = _ from hanswers]
    | true => exact ⟨fun _ => ⟨error, rfl⟩, fun _ => hanswers⟩
  · simp [show calculator.evaluate text bindings = _ from hanswers]

theorem evaluate_of_skipped_group :
    let calculator : Calculator := ⟨⟨10, .halfUp, by decide⟩, 4⟩
    let text := "if(!(1>1/0),1,2)".toList
    let last : State := ⟨⟨.after text.reverse [], true⟩, 0, true⟩
    calculator.read true text = .done 2 last ∧
      ∃ tree, PrintsWhole tree text ∧ tree.depth ≤ 4 ∧
        ((∃ fault, calculator.evaluate text .empty = .error (.unreadable fault)) ↔
          ∃ error, tree.value calculator.context false = .error ⟨error, true⟩) ∧
        Answers calculator.context (tree.value calculator.context false)
          (calculator.evaluate text .empty) := by
  intro calculator text last
  have h : calculator.read true text = .done 2 last := by decide +kernel
  exact ⟨h, evaluate_of_skipped calculator .empty text 2 last h⟩

/-- A comparison in parentheses hides the division by zero on its right, and the text is reported
to lack a parenthesis. -/
theorem comparison_hides_division :
    let calculator : Calculator := ⟨⟨10, .halfUp, by decide⟩, 4⟩
    let text := "if((1>1/0),1,2)".toList
    (∃ value last, calculator.read true text = .done value last) ∧
      calculator.evaluate text .empty = .error (.unreadable ⟨.unmatchedParenthesis, 5⟩) := by
  intro calculator text
  refine ⟨⟨1, ⟨⟨.after text.reverse [], true⟩, 0, true⟩, ?_⟩, ?_⟩ <;> decide +kernel

end Reckoner.Syntax
