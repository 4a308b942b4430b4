import Reckoner.Expression.Placeholder
import Reckoner.Proofs.Syntax.Rereading
import Reckoner.Proofs.Syntax.StatementSoundness

/-!
# Whole texts

A calculator reads a whole text if and only if the text prints a tree before nothing but spaces,
and the reading comes to the value of the tree. Skipping, every tree has a value, so two printed
factors that begin at one place can be told apart by reading them.
-/

namespace Reckoner.Syntax

open Grammar Reading

variable {text u rest : List Char} {levels : Nat} {inParentheses : Bool}

/-! ## The end of a text -/

theorem significant_replicate (n : Nat) : significant (List.replicate n ' ') = none := by
  simp [significant]

theorem followed_replicate (category : Category) (n : Nat) :
    Followed category (List.replicate n ' ') :=
  fun c hc => absurd hc (by simp [significant_replicate])

theorem reads_endOfText {frame : Frame} (n : Nat) :
    frame.Reads inParentheses endOfText (List.replicate n ' ') [] (.ok ()) := by
  have hpass : frame.Reads inParentheses passSpaces (List.replicate n ' ') [] (.ok ()) := by
    have h : frame.Reads inParentheses passSpaces (List.replicate n ' ') _ _ := reads_passSpaces _
    rwa [show (List.replicate n ' ').dropWhile (· == ' ') = [] by simp] at h
  refine hpass.then (reads_cursor fun behind => ?_)
  rw [Cursor.current_facing]
  exact reads_pure () []

theorem takes_endOfText {frame : Frame} :
    frame.Takes text endOfText fun _ u rest => (∃ n, u = List.replicate n ' ') ∧ rest = [] := by
  refine takes_passSpaces.bind fun _ u mid _ hu => takes_cursor fun behind => ?_
  rw [Cursor.current_facing]
  cases mid with
  | nil => exact takes_pure ⟨by simpa using hu.1, rfl⟩
  | cons c mid =>
    simp only [List.head?_cons, Spot.ofOption]
    split
    · simp at *
    · exact takes_failAt
    · exact takes_failAt

theorem reads_wholeExpression {frame : Frame} {t : Tree} (h : Prints .expression t u)
    (hdepth : frame.lost + t.depth ≤ levels) (n : Nat) :
    frame.Reads false (wholeExpression levels) (u ++ List.replicate n ' ') [] (frame.value t) :=
  (reads_expression (readsLevel levels).factors h hdepth (followed_replicate _ n)).keep
    fun value => (reads_endOfText n).then (reads_pure value [])

theorem takes_wholeExpression {frame : Frame} (text : List Char) :
    frame.Takes text (wholeExpression levels) fun _ u rest => rest = [] ∧
      ∃ v n, frame.Prints levels .expression v ∧ u = v ++ List.replicate n ' ' := by
  refine (takes_expression (takesLevel levels).factors text).bind fun value v _ _ hv => ?_
  refine takes_endOfText.bind fun _ w _ _ hw => takes_pure ?_
  obtain ⟨⟨n, rfl⟩, rfl⟩ := hw
  exact ⟨rfl, v, n, hv, by simp⟩

/-! ## Values while skipping -/

mutual

theorem Tree.value_skipping (ctx : Context) (tree : Tree) : ∃ x, tree.value ctx true = .ok x := by
  cases tree with
  | number value => exact ⟨value, by simp only [Tree.value]; rfl⟩
  | sign negative operand =>
    obtain ⟨x, hx⟩ := operand.value_skipping ctx
    exact ⟨_, by simp only [Tree.value, hx]; rfl⟩
  | operation operator left right | binary function left right =>
    obtain ⟨x, hx⟩ := left.value_skipping ctx
    obtain ⟨y, hy⟩ := right.value_skipping ctx
    exact ⟨0, by simp only [Tree.value, hx, hy]; rfl⟩
  | bracket inner =>
    obtain ⟨x, hx⟩ := inner.value_skipping ctx
    exact ⟨x, by simp only [Tree.value, hx]⟩
  | constant function => exact ⟨0, by simp only [Tree.value]; rfl⟩
  | unary function argument =>
    obtain ⟨x, hx⟩ := argument.value_skipping ctx
    exact ⟨0, by simp only [Tree.value, hx]; rfl⟩
  | variadic kind arguments =>
    obtain ⟨xs, hxs⟩ := arguments.values_skipping ctx
    exact ⟨0, by simp only [Tree.value, hxs]; rfl⟩
  | conditional negated test first second =>
    obtain ⟨holds, hholds⟩ := test.holds_skipping ctx false
    obtain ⟨x, hx⟩ := first.value_skipping ctx
    obtain ⟨y, hy⟩ := second.value_skipping ctx
    exact ⟨_, by simp only [Tree.value, hholds, Bool.true_or, hx, hy]; rfl⟩

theorem Arguments.values_skipping (ctx : Context) (arguments : Arguments) :
    ∃ xs, arguments.values ctx true = .ok xs := by
  cases arguments with
  | one argument =>
    obtain ⟨x, hx⟩ := argument.value_skipping ctx
    exact ⟨[x], by simp only [Arguments.values, hx]; rfl⟩
  | more arguments argument =>
    obtain ⟨xs, hxs⟩ := arguments.values_skipping ctx
    obtain ⟨x, hx⟩ := argument.value_skipping ctx
    exact ⟨xs ++ [x], by simp only [Arguments.values, hxs, hx]; rfl⟩

theorem Statement.holds_skipping (ctx : Context) (inParentheses : Bool) (statement : Statement) :
    ∃ truth, statement.holds ctx true inParentheses = .ok truth := by
  cases statement with
  | truth value =>
    obtain ⟨x, hx⟩ := value.value_skipping ctx
    exact ⟨_, by simp only [Statement.holds, hx]; rfl⟩
  | comparison relation left right =>
    obtain ⟨x, hx⟩ := left.value_skipping ctx
    obtain ⟨y, hy⟩ := right.value_skipping ctx
    exact ⟨_, by simp only [Statement.holds, hx, hy]; rfl⟩
  | negation inner =>
    obtain ⟨truth, htruth⟩ := inner.holds_skipping ctx inParentheses
    exact ⟨_, by simp only [Statement.holds, htruth]; rfl⟩
  | group inner =>
    obtain ⟨truth, htruth⟩ := inner.holds_skipping ctx true
    exact ⟨truth, by simp only [Statement.holds, htruth]⟩
  | join conjunction left right =>
    obtain ⟨x, hx⟩ := left.holds_skipping ctx inParentheses
    obtain ⟨y, hy⟩ := right.holds_skipping ctx inParentheses
    exact ⟨_, by simp only [Statement.holds, hx, hy]; rfl⟩

end

/-! ## The longest factor -/

theorem skips_factor {frame : Frame} (hskipping : frame.skipping = true) {t : Tree}
    (h : Prints .factor t u) (hdepth : frame.lost + t.depth ≤ levels)
    (hrest : Followed .factor rest) :
    ∃ x behind, factor levels frame.settings (frame.facing [] (u ++ rest)) =
      .done x (frame.facing behind rest) := by
  obtain ⟨x, hx⟩ := t.value_skipping frame.settings.context
  have hread := (readsLevel levels).factors frame t u rest h hdepth hrest []
  rw [Frame.value, hskipping, hx] at hread
  obtain ⟨behind, hread⟩ := hread
  exact ⟨x, behind, hread⟩

/-- A factor that nothing behind it can extend is the longest one at its place. -/
theorem Prints.longest {t t' : Tree} {u u' w w' : List Char} (h : Prints .factor t u)
    (h' : Prints .factor t' u') (hplace : u ++ w = u' ++ w') (hw : Followed .factor w) :
    u'.length ≤ u.length := by
  by_contra hlonger
  obtain ⟨more, rfl⟩ : u <+: u' := by
    refine List.prefix_of_prefix_length_le ⟨w, rfl⟩ ⟨w', hplace.symm⟩ ?_
    omega
  have hmore : Followed .factor more := by
    intro c hc
    refine hw c ?_
    rw [List.append_assoc, List.append_cancel_left_eq] at hplace
    rw [hplace]
    exact significant_append hc w'
  -- skipping the longer text stops behind the one factor and behind the other
  have hskips : Frame.skipping ⟨⟨.standard, 0⟩, 0, true⟩ = true := rfl
  have hdepth : 0 + t.depth ≤ t.depth + t'.depth := by omega
  have hdepth' : 0 + t'.depth ≤ t.depth + t'.depth := by omega
  obtain ⟨x, behind, hshort⟩ := skips_factor hskips h hdepth hmore
  obtain ⟨y, behind', hlong⟩ := skips_factor hskips h' hdepth' (followed_replicate _ 0)
  rw [List.replicate_zero, List.append_nil, hshort, Outcome.done.injEq] at hlong
  have hrest := congrArg (fun state => state.cursor.place.rest) hlong.2
  simp only [Frame.facing, Cursor.rest_facing] at hrest
  simp [hrest] at hlonger

/-! ## Calculators -/

/-- A whole text that prints a tree: nothing but spaces may stand behind it. -/
def PrintsWhole (tree : Tree) (text : List Char) : Prop :=
  ∃ u n, Prints .expression tree u ∧ text = u ++ List.replicate n ' '

/-- How a calculator begins to read. -/
def Frame.ofCalculator (calculator : Calculator) (skipping : Bool) : Frame :=
  ⟨⟨calculator.context, calculator.maxDepth⟩, 0, skipping⟩

variable {calculator : Calculator} {skipping : Bool} {tree : Tree}

/-- Whatever can be read, computing or skipping, prints a tree. -/
theorem printed_of_read {value : Decimal} {last : State}
    (h : calculator.read skipping text = .done value last) :
    ∃ tree, PrintsWhole tree text ∧ tree.depth ≤ calculator.maxDepth := by
  have htakes : (Frame.ofCalculator calculator skipping).Takes text
      (wholeExpression calculator.maxDepth) _ := takes_wholeExpression text
  obtain ⟨_, _, _, rfl, -, rfl, u, n, ⟨tree, htree, hdepth⟩, rfl⟩ := htakes [] value last h
  refine ⟨tree, ⟨u, n, htree, by simp⟩, ?_⟩
  simpa [Category.depth, Frame.ofCalculator] using hdepth

theorem read_printed (h : PrintsWhole tree text) (hdepth : tree.depth ≤ calculator.maxDepth) :
    (Frame.ofCalculator calculator skipping).Shows false [] (tree.value calculator.context skipping)
      (calculator.read skipping text) := by
  obtain ⟨u, n, htree, rfl⟩ := h
  have hlevels : (Frame.ofCalculator calculator skipping).lost + tree.depth ≤
      calculator.maxDepth := by simpa [Frame.ofCalculator] using hdepth
  exact reads_wholeExpression htree hlevels n []

/-- What a calculator answers if the tree of a text comes to a result: the value in its final form
or the error of an operation, but if that error is hidden, that the text cannot be read. -/
def Answers (ctx : Context) : Result Decimal → Except EvalError Decimal → Prop
  | .ok value, answer => answer = .ok (ctx.round value).canonical
  | .error ⟨error, false⟩, answer => answer = .error (.arithmetic error)
  | .error ⟨_, true⟩, answer => ∃ fault, answer = .error (.unreadable fault)

theorem answers_printed (h : PrintsWhole tree text) (hdepth : tree.depth ≤ calculator.maxDepth) :
    Answers calculator.context (tree.value calculator.context false)
      (calculator.evaluatePlain text) := by
  have hread : (Frame.ofCalculator calculator false).Shows false [] _ _ := read_printed h hdepth
  unfold Calculator.evaluatePlain
  generalize tree.value calculator.context false = result at hread ⊢
  obtain ⟨error, hidden⟩ | value := result
  · obtain ⟨_, cursor, hread, hexplains⟩ := hread
    rw [hread]
    cases hidden with
    | false => exact congrArg Except.error hexplains
    | true =>
      obtain ⟨fault, rfl⟩ := hexplains rfl
      exact ⟨fault, rfl⟩
  · obtain ⟨behind, hread⟩ := hread
    rw [hread]
    rfl

/-- A calculator gives a value for the texts that print a tree with a value, and it is that value
rounded and without trailing zeros. -/
theorem evaluatePlain_eq_ok_iff {answer : Decimal} : calculator.evaluatePlain text = .ok answer ↔
    ∃ tree, PrintsWhole tree text ∧ tree.depth ≤ calculator.maxDepth ∧
      ∃ value, tree.value calculator.context false = .ok value ∧
        answer = (calculator.context.round value).canonical := by
  constructor
  · intro h
    obtain ⟨value, last, hread⟩ : ∃ value last, calculator.read false text = .done value last := by
      unfold Calculator.evaluatePlain at h
      split at h
      · next value last hread => exact ⟨value, last, hread⟩
      · simp at h
    obtain ⟨tree, hprints, hdepth⟩ := printed_of_read hread
    refine ⟨tree, hprints, hdepth, ?_⟩
    -- what has been read to the end is printed, so the answer is the value of what it prints
    have hanswers := answers_printed hprints hdepth
    generalize tree.value calculator.context false = result at hanswers ⊢
    obtain ⟨error, hidden⟩ | value := result
    · cases hidden <;> simp [Answers, h] at hanswers
    · exact ⟨value, rfl, by simpa [Answers, h] using hanswers⟩
  · rintro ⟨tree, hprints, hdepth, value, hvalue, rfl⟩
    have hanswers := answers_printed hprints hdepth
    rwa [hvalue] at hanswers

theorem evaluate_eq_evaluatePlain (bindings : Bindings) (h : '$' ∉ text) :
    calculator.evaluate text bindings = calculator.evaluatePlain text := by
  have hcontains : text.contains '$' = false := by simpa using h
  unfold Calculator.evaluate Bindings.fillIn
  rw [hcontains]
  rfl

end Reckoner.Syntax
