import Reckoner.Proofs.Syntax.Evaluation

/-!
# Choices

A choice is printed around its condition and its branches, which are texts of their own. It comes
to the value of the branch it takes; the other branch is read without being computed.
-/

namespace Reckoner.Syntax

open Grammar Reading

variable {calculator : Calculator} {text A B : List Char} {s : Statement} {l r : Tree}

/-! ## Printed choices -/

/-- The call of a choice. -/
def choiceText (name : String) (test first second : List Char) : List Char :=
  name.toList ++ ['('] ++ test ++ [','] ++ first ++ [','] ++ second ++ [')']

/-- A text that prints a statement: nothing but spaces may stand behind it. -/
def PrintsTest (s : Statement) (text : List Char) : Prop :=
  ∃ u n, Prints .statement s u ∧ text = u ++ List.replicate n ' '

theorem PrintsWhole.choice {negated : Bool} {name : String}
    (hname : Builtin.ofName? name = some (.conditional negated)) (hs : PrintsTest s text)
    (hl : PrintsWhole l A) (hr : PrintsWhole r B) :
    PrintsWhole (.conditional negated s l r) (choiceText name text A B) := by
  rcases hs with ⟨u, i, hs, rfl⟩
  rcases hl with ⟨v, j, hl, rfl⟩
  rcases hr with ⟨w, k, hr, rfl⟩
  -- the spaces behind a part belong to the sign that follows
  have hprimary : Prints .primary (.conditional negated s l r) _ :=
    .conditional ⟨0, name, hname, rfl⟩ (.cons 0 '(' .nil) hs (.cons i ',' .nil) hl
      (.cons j ',' .nil) hr (.cons k ')' .nil)
  refine ⟨_, 0, .term (.factor (.primary hprimary)), ?_⟩
  simp [choiceText]

/-! ## Statements on their own -/

variable {frame : Frame} {levels n : Nat} {inParentheses b : Bool} {last : State}
  {condition : Reading Bool}

theorem readsConditions (levels : Nat) : ReadsConditions levels inParentheses
    (Grammar.condition levels (Grammar.factor levels) (groupStatement levels)) := by
  rcases levels with - | levels
  · intro frame s u rest h hdepth
    have hpos := s.depth_pos
    omega
  · exact reads_condition (readsLevel (levels + 1)).factors
      ((readsLevel levels).statements ')' true (.inl rfl)) (readsLevel levels).groups

theorem takesGroups (levels : Nat) :
    TakesGroups levels (Grammar.factor levels) (groupStatement levels) := by
  rcases levels with - | levels
  · exact takes_group_zero
  · exact takes_group (takesLevel (levels + 1)).factors ((takesLevel levels).statements ')')
      (levelFollows (levels + 1)).decides

theorem takes_no_condition {factor : Reading Decimal} {inner : Reading Bool}
    (hfactor : TakesFactors levels factor) (hgroup : TakesGroups levels factor inner) :
    frame.Takes (List.replicate n ' ') (Grammar.condition levels factor inner)
      fun _ _ _ => False := by
  apply (takes_condition hfactor hgroup _).mono
  rintro _ u rest htext ⟨s, hs, -⟩
  rcases hs.begins with ⟨c, hc, -⟩
  have hspaces := significant_replicate n
  rw [htext, significant_append hc] at hspaces
  simp at hspaces

/-- A connective in front of nothing but spaces is not dangling, so a condition is missing. -/
theorem takes_no_conditionStep {stop sign : Char} {conjunction : Bool} {o : List Char}
    (hcondition : frame.Takes (List.replicate n ' ') condition fun _ _ _ => False)
    (hop : (sign, conjunction) ∈ connectives) (ho : Spaced [sign] o) (left : Bool) :
    frame.Takes (o ++ List.replicate n ' ') (conditionStep stop condition left)
      fun _ _ _ => False := by
  intro behind value last hrun
  have hconnective : frame.Reads false connective (o ++ List.replicate n ' ') _ _ :=
    reads_connective hop ho
  rcases hconnective behind with ⟨behind', hdone⟩
  rw [conditionStep, bind_of_done hdone] at hrun
  have hgoes : frame.Takes (List.replicate n ' ') (do
      if (← peek) = .at stop then return none
      else return some (join conjunction left (← condition))) fun _ _ _ => False := by
    apply takes_peek
    rw [significant_replicate]
    exact hcondition.bind fun _ _ _ _ hfalse => hfalse.elim
  rcases hgoes behind' value last hrun with ⟨_, _, _, _, _, hfalse⟩
  exact hfalse.elim

theorem Frame.Repeats.not_done {α : Type} {step : α → Reading (Option α)} {result : Result α}
    {outcome : Outcome α} {value : α} (h : frame.Repeats inParentheses step text result outcome)
    (hne : text ≠ []) (hstep : ∀ value, frame.Takes text (step value) fun _ _ _ => False) :
    outcome ≠ .done value last := by
  rintro rfl
  rcases result with failure | left
  · rcases h with ⟨error, cursor, hfailed, -⟩
    simp at hfailed
  · rcases h with ⟨behind, more, hmore, hdone⟩
    rcases more with - | ⟨c, more⟩
    · exact hne (List.eq_nil_of_length_eq_zero (Nat.le_zero.1 hmore))
    · rcases bind_eq_done.1 hdone.symm with ⟨next, mid, hnext, -⟩
      rcases hstep left behind next mid hnext with ⟨_, _, _, _, _, hfalse⟩
      exact hfalse

/-- A statement that is read to the end of a text comes to its truth. -/
theorem holds_of_conditions {stop : Char} (hstop : stop = ')' ∨ stop = ',')
    (hreads : ReadsConditions levels inParentheses condition)
    (hnone : frame.Takes (List.replicate n ' ') condition fun _ _ _ => False) {u behind : List Char}
    (h : Prints .statement s u) (hdepth : frame.lost + s.depth ≤ levels)
    (hrun : conditions stop condition frame.settings
      (frame.facing behind (u ++ List.replicate n ' ')) = .done b last) :
    frame.holds inParentheses s = .ok b := by
  cases h with
  | conditions h =>
    have hconnective : frame.Reads inParentheses connective (List.replicate n ' ')
        (List.replicate n ' ') (.ok none) := by
      apply reads_refused (by simp [significant_replicate])
      apply reads_refused (by simp [significant_replicate])
      exact reads_pure none _
    have hshows : frame.Shows inParentheses (List.replicate n ' ') _ _ :=
      (repeats_conditions hreads hstop h hdepth (followed_replicate _ n) behind).stop
        (fun _ => hconnective.then (reads_pure none _)) id
    rw [hrun] at hshows
    rcases hholds : frame.holds inParentheses s with failure | value <;> rw [hholds] at hshows
    · rcases hshows with ⟨error, cursor, hfailed, -⟩
      simp at hfailed
    · rcases hshows with ⟨behind', hdone⟩
      rw [(Outcome.done.inj hdone).1]
  | @dangling sign conjunction s u o hop h ho =>
    rw [List.append_assoc] at hrun
    -- behind a connective one more condition is asked for, and spaces are none
    exact absurd hrun ((repeats_conditions hreads hstop h hdepth (followed_connective hop ho)
      behind).not_done (ne_nil_of_spaced ho _) (takes_no_conditionStep hnone hop ho))

/-- The truth that a whole text was read to is that of a statement it prints. -/
theorem holds_of_statement {behind : List Char}
    (hrun : statement levels ',' frame.settings (frame.facing behind text) = .done b last)
    (hend : significant last.cursor.place.rest = none) :
    ∃ s, PrintsTest s text ∧ frame.lost + s.depth ≤ levels ∧ frame.holds false s = .ok b := by
  rcases (takesLevel levels).statements ',' frame text behind b last hrun with
    ⟨u, rest, behind', rfl, rfl, s, hs, hdepth⟩
  rw [Frame.facing, Cursor.rest_facing] at hend
  rcases spaces_of_significant hend with ⟨n, rfl⟩
  refine ⟨s, ⟨u, n, hs, rfl⟩, hdepth, ?_⟩
  rw [statement_eq] at hrun
  exact holds_of_conditions (.inr rfl) (readsConditions levels)
    (takes_no_condition (takesLevel levels).factors (takesGroups levels)) hs hdepth hrun

/-! ## The branch that is taken -/

variable {ctx : Context} {negated : Bool} {result : Result Decimal}
  {answer other : Except EvalError Decimal}

theorem Tree.value_choice (h : s.holds ctx false false = .ok b) :
    (Tree.conditional negated s l r).value ctx false =
      if b != negated then l.value ctx false else r.value ctx false := by
  rcases l.value_skipping ctx with ⟨x, hx⟩
  rcases r.value_skipping ctx with ⟨y, hy⟩
  simp only [Tree.value, h, Bool.false_or]
  change (do
    let x ← l.value ctx !(b != negated)
    let y ← r.value ctx (b != negated)
    return if b != negated then x else y) = _
  rcases b != negated
  · rw [Bool.not_false, hx]
    exact bind_pure (r.value ctx false)
  · rw [Bool.not_true, hy]
    exact bind_pure (l.value ctx false)

/-- An answer other than that a text cannot be read. -/
def Readable (answer : Except EvalError Decimal) : Prop :=
  ∀ fault, answer ≠ .error (.unreadable fault)

/-- Two texts have one answer, unless neither of them can be read. -/
def Agree (answer other : Except EvalError Decimal) : Prop :=
  answer = other ∨ ¬ Readable answer ∧ ¬ Readable other

theorem Agree.symm (h : Agree answer other) : Agree other answer :=
  h.imp Eq.symm And.symm

theorem Agree.trans {third : Except EvalError Decimal} (h : Agree answer other)
    (h' : Agree other third) : Agree answer third := by
  rcases h with rfl | h
  · exact h'
  · rcases h' with rfl | h'
    · exact .inr h
    · exact .inr ⟨h.1, h'.2⟩

theorem Agree.eq (h : Agree answer other) (hreadable : Readable other) : answer = other :=
  h.resolve_right fun hneither => hneither.2 hreadable

theorem Answers.agree (h : Answers ctx result answer) (h' : Answers ctx result other) :
    Agree answer other := by
  rcases result with ⟨error, _ | _⟩ | value
  · exact .inl (h.trans h'.symm)
  · rcases h with ⟨fault, h⟩
    rcases h' with ⟨fault', h'⟩
    exact .inr ⟨fun hreadable => hreadable fault h, fun hreadable => hreadable fault' h'⟩
  · exact .inl (h.trans h'.symm)

/-- A text is a statement to its end, and it is read to this truth. -/
def TestIs (ctx : Context) (levels : Nat) (text : List Char) (b : Bool) : Prop :=
  ∃ last, statement levels ',' ⟨ctx, levels⟩ ⟨⟨.after [] text, true⟩, 0, false⟩ = .done b last ∧
    significant last.cursor.place.rest = none

theorem TestIs.holds {levels : Nat} (h : TestIs ctx levels text b) :
    ∃ s, PrintsTest s text ∧ s.depth ≤ levels ∧ s.holds ctx false false = .ok b := by
  rcases h with ⟨last, hrun, hend⟩
  have hstatement : ∃ s, PrintsTest s text ∧ 0 + s.depth ≤ levels ∧
      s.holds ctx false false = .ok b :=
    @holds_of_statement text ⟨⟨ctx, levels⟩, 0, false⟩ levels b last [] hrun hend
  simpa only [Nat.zero_add] using hstatement

/-- A text is an expression to its end, whatever its operations come to. -/
def Skips (calculator : Calculator) (text : List Char) : Prop :=
  ∃ value last, calculator.read true text = .done value last

theorem Skips.answers (h : Skips calculator text) (bindings : Bindings) :
    ∃ t, PrintsWhole t text ∧ t.depth ≤ calculator.maxDepth ∧
      Answers calculator.context (t.value calculator.context false)
        (calculator.evaluate text bindings) := by
  rcases h with ⟨value, last, hread⟩
  rcases printed_of_read hread with ⟨t, ht, hdepth⟩
  exact ⟨t, ht, hdepth, ht.answers hdepth bindings⟩

/-- A choice has the answer that the branch it takes has alone, with one level less. -/
theorem choice_agrees {levels : Nat} {name : String} {test first second : List Char}
    (hname : Builtin.ofName? name = some (.conditional negated)) (htest : TestIs ctx levels test b)
    (hfirst : Skips ⟨ctx, levels⟩ first) (hsecond : Skips ⟨ctx, levels⟩ second)
    (bindings : Bindings) :
    Agree
      (Calculator.evaluate ⟨ctx, levels + 1⟩ (choiceText name test first second) bindings)
      (Calculator.evaluate ⟨ctx, levels⟩ (if b != negated then first else second) bindings) := by
  rcases htest.holds with ⟨s, hs, hsdepth, hholds⟩
  rcases hfirst.answers bindings with ⟨l, hl, hldepth, hleft⟩
  rcases hsecond.answers bindings with ⟨r, hr, hrdepth, hright⟩
  have hprints := PrintsWhole.choice hname hs hl hr
  have hdepth : (Tree.conditional negated s l r).depth ≤ levels + 1 := by
    simp only [Tree.depth] at hldepth hrdepth ⊢
    omega
  have hanswers : Answers ctx _
      (Calculator.evaluate ⟨ctx, levels + 1⟩ (choiceText name test first second) bindings) :=
    hprints.answers hdepth bindings
  rw [Tree.value_choice hholds] at hanswers
  generalize (b != negated) = taken at hanswers ⊢
  rcases taken with - | -
  · exact hanswers.agree hright
  · exact hanswers.agree hleft

/-- A choice takes one level more than its parts on their own, and it comes to what the branch it
takes would come to alone, whatever the other branch would do. A choice by a negated condition is
the choice between the exchanged branches. -/
theorem evaluate_choice (ctx : Context) (levels : Nat) (bindings : Bindings)
    (test first second : List Char) (b : Bool) (htest : TestIs ctx levels test b)
    (hfirst : Skips ⟨ctx, levels⟩ first) (hsecond : Skips ⟨ctx, levels⟩ second) :
    let inner : Calculator := ⟨ctx, levels⟩
    let outer : Calculator := ⟨ctx, levels + 1⟩
    (Readable (inner.evaluate (if b then first else second) bindings) →
      outer.evaluate (choiceText "if" test first second) bindings =
        inner.evaluate (if b then first else second) bindings) ∧
    (Readable (inner.evaluate (if b then second else first) bindings) →
      outer.evaluate (choiceText "nif" test first second) bindings =
        outer.evaluate (choiceText "if" test second first) bindings) ∧
    Agree (outer.evaluate (choiceText "nif" test first second) bindings)
      (outer.evaluate (choiceText "if" test second first) bindings) := by
  intro inner outer
  have hif : Builtin.ofName? "if" = some (.conditional false) := rfl
  have hnif : Builtin.ofName? "nif" = some (.conditional true) := rfl
  have htaken := choice_agrees hif htest hfirst hsecond bindings
  have hexchanged := choice_agrees hif htest hsecond hfirst bindings
  have hnegated := choice_agrees hnif htest hfirst hsecond bindings
  rw [Bool.bne_false] at htaken hexchanged
  rw [Bool.bne_true, show (if (!b) = true then first else second) = if b then second else first by
    cases b <;> rfl] at hnegated
  refine ⟨htaken.eq, fun hreadable => ?_, hnegated.trans hexchanged.symm⟩
  rw [hnegated.eq hreadable, hexchanged.eq hreadable]

/-- The division by zero does no harm on the branch that is not taken. -/
theorem evaluate_choice_division :
    let ctx : Context := ⟨10, .halfUp, by decide⟩
    let test := "!(1>2)|0".toList
    let first := " 2+3".toList
    let second := "1/0".toList
    let inner : Calculator := ⟨ctx, 3⟩
    let outer : Calculator := ⟨ctx, 4⟩
    TestIs ctx 3 test true ∧ Skips inner first ∧ Skips inner second ∧
      outer.evaluate (choiceText "if" test first second) .empty = .ok 5 ∧
      outer.evaluate (choiceText "nif" test first second) .empty =
        outer.evaluate (choiceText "if" test second first) .empty := by
  intro ctx test first second inner outer
  have htest : TestIs ctx 3 test true :=
    ⟨⟨⟨.after test.reverse [], true⟩, 0, false⟩, by decide +kernel, by decide⟩
  have hfirst : Skips inner first :=
    ⟨0, ⟨⟨.after first.reverse [], true⟩, 0, true⟩, by decide +kernel⟩
  have hsecond : Skips inner second :=
    ⟨0, ⟨⟨.after second.reverse [], true⟩, 0, true⟩, by decide +kernel⟩
  have hvalue : inner.evaluate first .empty = .ok 5 := by decide +kernel
  have herror : inner.evaluate second .empty = .error (.arithmetic .divisionByZero) := by
    decide +kernel
  have hchoice := evaluate_choice ctx 3 .empty test first second true htest hfirst hsecond
  refine ⟨htest, hfirst, hsecond, (hchoice.1 ?_).trans hvalue, hchoice.2.1 ?_⟩
  · intro fault
    change inner.evaluate first .empty ≠ _
    simp [hvalue]
  · intro fault
    change inner.evaluate second .empty ≠ _
    simp [herror]

end Reckoner.Syntax
