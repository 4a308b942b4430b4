import Reckoner.Proofs.Grammar.Cases
import Reckoner.Proofs.Grammar.Following

/-!
# Parentheses read twice

A parenthesis in a statement opens a group, and the text is read again as a comparison where the
group was none. Whatever an expression encloses can be enclosed as a statement too, so where a
group cannot be read, no comparison can.
-/

namespace Reckoner.Grammar

open Reading

variable {settings : Settings} {state last mid : State} {value : Decimal} {levels : Nat}

/-! ## How an expression begins -/

/-- The characters that an expression may begin with. -/
def beginsExpression (c : Char) : Bool :=
  c == '+' || c == '-' || c == '(' || beginsNumber c || c.isAlpha

theorem factor_begins (h : factor levels settings state = .done value last) :
    ∃ c, state.cursor.ahead = .at c ∧ beginsExpression c := by
  cases levels with
  | zero => simp [factor_zero, tooDeep] at h
  | succ inner =>
    rw [factor_succ] at h
    obtain ⟨-, ⟨cursor, hplus, -⟩ | ⟨-, ⟨cursor, hminus, -⟩ | ⟨-, _, _, hprimary, -⟩⟩⟩ :=
      factorWithin_eq_done.1 h
    · exact ⟨'+', Cursor.ahead_of_accept? hplus, rfl⟩
    · exact ⟨'-', Cursor.ahead_of_accept? hminus, rfl⟩
    · obtain ⟨cursor, hopen, -⟩ | ⟨c, hc, ⟨hnumber, -⟩ | ⟨halpha, -⟩⟩ := primary_eq_done.1 hprimary
      · exact ⟨'(', Cursor.ahead_of_accept? hopen, rfl⟩
      · exact ⟨c, hc, by simp [beginsExpression, hnumber]⟩
      · exact ⟨c, hc, by simp [beginsExpression, halpha]⟩

theorem expression_begins (h : expression (factor levels) settings state = .done value last) :
    ∃ c, state.cursor.ahead = .at c ∧ beginsExpression c := by
  obtain ⟨_, _, hterm, -⟩ := bind_eq_done.1 h
  obtain ⟨_, _, hfactor, -⟩ := bind_eq_done.1 hterm
  exact factor_begins hfactor

theorem expression_zero : expression (factor 0) settings state ≠ .done value last := by
  intro h
  obtain ⟨_, _, hterm, -⟩ := bind_eq_done.1 h
  obtain ⟨_, _, hfactor, -⟩ := bind_eq_done.1 hterm
  simp [factor_zero, tooDeep] at hfactor

/-! ## Where an operand is not extended -/

theorem chainStep_refuses {operand : Reading Decimal} {operators : List (Char × Operator)}
    (h : ∀ operator ∈ operators, state.cursor.ahead ≠ .at operator.1) :
    chainStep operand operators value settings state = .done none state := by
  induction operators with
  | nil => rfl
  | cons operator rest ih =>
    rw [chainStep, bind_of_done (accept_refuses (h operator (by simp)))]
    exact ih fun other hother => h other (by simp [hother])

theorem chain_stops {operand : Reading Decimal} {operators : List (Char × Operator)}
    (h : ∀ operator ∈ operators, state.cursor.ahead ≠ .at operator.1) :
    iterate (chainStep operand operators) value settings state = .done value state :=
  iterate_stops (chainStep_refuses h) fun _ => rfl

theorem withTail_stops {factor : Reading Decimal} (hpower : state.cursor.ahead ≠ .at '^')
    (hpercent : state.cursor.ahead ≠ .at '%') :
    withTail factor value settings state = .done value state := by
  have hraised : raised factor value settings state = .done value state := by
    rw [raised, bind_of_done (accept_refuses hpower)]
    rfl
  rw [withTail, bind_of_done hraised, shared, bind_of_done (accept_refuses hpercent)]
  rfl

theorem not_ahead_of_not_extended (h : state.cursor.peek.satisfies extendsOperand = false)
    {c : Char} (hc : extendsOperand c) : state.cursor.ahead ≠ .at c := by
  intro hahead
  rw [Cursor.peek_of_ahead hahead] at h
  simp [Spot.satisfies, hc] at h

/-- An expression that begins with a parenthesis begins with an expression in parentheses, and is
no more than that if nothing extends it. -/
theorem expression_opens (hopen : state.cursor.ahead = .at '(')
    (h : expression (factor (levels + 1)) settings state = .done value last) :
    state.lost < levels + 1 ∧ ∃ cursor x mid, state.cursor.accept? '(' = some cursor ∧
      enclosed (expression (factor levels)) settings { state with cursor } = .done x mid ∧
      (mid.cursor.peek.satisfies extendsOperand = false → last = mid) := by
  obtain ⟨z, afterTerm, hterm, hsums⟩ := bind_eq_done.1 h
  obtain ⟨y, afterFactor, hfactor, hproducts⟩ := bind_eq_done.1 hterm
  rw [factor_succ] at hfactor
  -- a factor that begins with a sign does not begin with a parenthesis
  obtain ⟨hlevels, ⟨_, hplus, -⟩ | ⟨-, ⟨_, hminus, -⟩ | ⟨-, x, mid, hprimary, htail⟩⟩⟩ :=
    factorWithin_eq_done.1 hfactor
  · simp [Cursor.ahead_of_accept? hplus] at hopen
  · simp [Cursor.ahead_of_accept? hminus] at hopen
  obtain ⟨cursor, hcursor, henclosed⟩ | ⟨c, hc, h⟩ := primary_eq_done.1 hprimary
  · refine ⟨hlevels, cursor, x, mid, hcursor, henclosed, fun hextended => ?_⟩
    have hnot : ∀ c, extendsOperand c → mid.cursor.ahead ≠ .at c :=
      fun c => not_ahead_of_not_extended hextended
    rw [withTail_stops (hnot '^' rfl) (hnot '%' rfl), Outcome.done.injEq] at htail
    obtain ⟨-, rfl⟩ := htail
    rw [chain_stops (by simpa [products] using ⟨hnot '*' rfl, hnot '/' rfl⟩),
      Outcome.done.injEq] at hproducts
    obtain ⟨-, rfl⟩ := hproducts
    rw [chain_stops (by simpa [sums] using ⟨hnot '+' rfl, hnot '-' rfl⟩),
      Outcome.done.injEq] at hsums
    exact hsums.2.symm
  · rw [hopen, Spot.at.injEq] at hc
    subst hc
    exact absurd h (by simp [parenthesis_begins_nothing])

/-! ## Before a closing parenthesis -/

theorem relation_before_close (h : state.cursor.ahead = .at ')') :
    relation settings state = .done none state := by
  have hrefuses (c : Char) (hc : c ≠ ')') : accept c settings state = .done false state :=
    accept_refuses (by simp [h, Ne.symm hc])
  rw [relation, bind_of_done (hrefuses '>' (by decide))]
  simp only [Bool.false_eq_true, ↓reduceIte]
  rw [bind_of_done (hrefuses '<' (by decide))]
  simp only [Bool.false_eq_true, ↓reduceIte]
  rw [bind_of_done (hrefuses '=' (by decide))]
  simp only [Bool.false_eq_true, ↓reduceIte]
  rw [bind_of_done (hrefuses '!' (by decide))]
  rfl

theorem comparison_before_close {factor : Reading Decimal}
    (h : expression factor settings state = .done value last)
    (hclose : last.cursor.ahead = .at ')') :
    comparison factor settings state = .done (!value.isZero) last := by
  rw [comparison, bind_of_done h, bind_of_done (relation_before_close hclose)]
  rfl

theorem conditions_before_close {condition : Reading Bool} {stop : Char} {holds : Bool}
    (h : condition settings state = .done holds last) (hclose : last.cursor.ahead = .at ')') :
    conditions stop condition settings state = .done holds last := by
  have hconnective : connective settings last = .done none last := by
    rw [connective, bind_of_done (accept_refuses (by simp [hclose]))]
    simp only [Bool.false_eq_true, ↓reduceIte]
    rw [bind_of_done (accept_refuses (by simp [hclose]))]
    rfl
  rw [conditions, bind_of_done h]
  refine iterate_stops ?_ fun _ => rfl
  rw [conditionStep, bind_of_done hconnective]
  rfl

/-! ## Expressions read as statements -/

theorem trial_takes {inner : Reading Bool} {cursor : Cursor} {holds : Bool}
    (hcursor : state.cursor.accept? '(' = some cursor)
    (h : enclosed inner settings { state with cursor } = .done holds last) :
    trial inner settings state = .done holds last := by
  rw [trial, bind_of_done (accept_takes hcursor)]
  exact h

/-- Whatever is enclosed as an expression can be enclosed as a statement. -/
def Encloses (levels : Nat) : Prop :=
  Follows 0 false (fun _ _ => True) (enclosed (expression (factor levels)))
    (enclosed (statement levels ')'))

theorem clause_of_expression (hencloses : Encloses levels)
    (h : expression (factor (levels + 1)) settings state = .done value last)
    (hclose : last.cursor.ahead = .at ')') :
    ∃ holds, clause (levels + 1) (factor (levels + 1)) (statement levels ')') settings state =
      .done holds last := by
  have hcomparison := comparison_before_close h hclose
  unfold clause
  rw [bind_of_done (show peek settings state = .done state.cursor.peek state from rfl)]
  split
  · next hpeek =>
    obtain ⟨c, hc, -⟩ := expression_begins h
    have hopen : state.cursor.ahead = .at '(' := by rw [hc, ← hpeek, Cursor.peek_of_ahead hc]
    obtain ⟨hlevels, cursor, x, mid, hcursor, henclosed, hextended⟩ := expression_opens hopen h
    obtain ⟨hskipping, hlost, holds, -, hinner⟩ := hencloses.doneFromSame henclosed
    have htrial := trial_takes hcursor hinner
    -- if the text goes on behind the group, the comparison is read from where the group began
    have hback : { mid with cursor := state.cursor } = state := by
      simp only at hskipping hlost
      rw [hskipping, hlost]
    simp only [group, nested_eq_done, hlevels, true_and]
    change ∃ _, orElse (trial _) _ _ settings state = _
    unfold orElse
    rw [htrial]
    simp only
    split
    · next haccepted => exact ⟨holds, by rw [hextended (by simpa using haccepted)]⟩
    · exact ⟨_, by rw [hback]; exact hcomparison⟩
  · exact ⟨_, hcomparison⟩

/-- What an expression reads up to a closing parenthesis, a statement reads just as well. -/
theorem statement_of_expression (hencloses : Encloses levels)
    (h : expression (factor (levels + 1)) settings state = .done value last)
    (hclose : last.cursor.ahead = .at ')') :
    ∃ holds, statement (levels + 1) ')' settings state = .done holds last := by
  obtain ⟨c, hc, hbegins⟩ := expression_begins h
  have hnegation : state.cursor.ahead ≠ .at '!' := by
    rintro hahead
    rw [hahead, Spot.at.injEq] at hc
    exact absurd hbegins (by rw [← hc]; decide)
  obtain ⟨holds, hclause⟩ := clause_of_expression hencloses h hclose
  refine ⟨holds != false, ?_⟩
  rw [statement_eq, groupStatement]
  refine conditions_before_close ?_ hclose
  rw [condition, bind_of_done (accept_refuses hnegation), bind_of_done hclause]
  rfl

theorem encloses_succ (hencloses : Encloses levels)
    (hfactor : Follows 0 false (Alike false) (factor (levels + 1)) (factor (levels + 1))) :
    Encloses (levels + 1) := by
  intro settings state lost hlost
  cases hrun : enclosed (expression (factor (levels + 1))) settings state with
  | failed error last =>
    exact (follows_enclosed (follows_expression hfactor)).failed hrun
  | done value last =>
    obtain ⟨mid, cursor, hexpression, hcursor, rfl⟩ := enclosed_eq_done.1 hrun
    obtain ⟨hs, hl, value', -, heased⟩ := (follows_expression hfactor).done hlost hexpression
    obtain ⟨holds, hstatement⟩ := statement_of_expression hencloses heased
      (show (mid.eased lost false).cursor.ahead = _ from Cursor.ahead_of_accept? hcursor)
    exact ⟨hs, hl, holds, trivial, enclosed_eq_done.2 ⟨_, cursor, hstatement, hcursor, rfl⟩⟩

/-- Where a group cannot be read, the text is no comparison either: the expression in parentheses
that the comparison begins with could have been enclosed as a statement. -/
theorem trialDecides_of_encloses (hencloses : Encloses levels)
    (hstatement : Follows 0 false (Alike false) (statement levels ')') (statement levels ')')) :
    TrialDecides (factor (levels + 1)) (statement levels ')') := by
  intro settings state error mid hpeek hfailed value last hcomparison
  have hkept := (follows_trial hstatement).failed hfailed
  obtain ⟨x, after, hexpression, -⟩ := bind_eq_done.1 hcomparison
  obtain ⟨c, hc, -⟩ := expression_begins hexpression
  have hopen : (State.cursor ⟨state.cursor, mid.lost, mid.skipping⟩).ahead = .at '(' := by
    rw [hc, ← hpeek, Cursor.peek_of_ahead hc]
  obtain ⟨-, cursor, _, _, hcursor, henclosed, -⟩ := expression_opens hopen hexpression
  have hlost : state.lost ≤ (State.mk cursor mid.lost mid.skipping).lost + 0 := hkept.lost
  obtain ⟨-, -, holds, -, hinner⟩ := hencloses.done hlost henclosed
  have hstart : State.eased ⟨cursor, mid.lost, mid.skipping⟩ state.lost false =
      { state with cursor } := by
    simp [State.eased, hkept.skipping]
  rw [hstart] at hinner
  exact absurd (hfailed.symm.trans (trial_takes hcursor hinner)) (by simp)

/-! ## All levels -/

theorem encloses_zero : Encloses 0 := by
  intro settings state lost hlost
  have hfails : Follows 0 false (Alike false) (factor 0) (factor 0) := by
    rw [factor_zero]
    exact follows_tooDeep
  cases hrun : enclosed (expression (factor 0)) settings state with
  | failed error last => exact (follows_enclosed (follows_expression hfails)).failed hrun
  | done value last =>
    obtain ⟨mid, _, hexpression, -⟩ := enclosed_eq_done.1 hrun
    exact (expression_zero hexpression).elim

/-- Factors and statements follow themselves from any state with as many levels left, whether it
skips or not. -/
structure LevelFollows (levels : Nat) : Prop where
  factor (more : Nat) (skips : Bool) :
    Follows more skips (Alike skips) (factor levels) (factor (levels + more))
  group (more : Nat) (skips : Bool) :
    Follows more skips (Alike skips) (groupStatement levels) (groupStatement (levels + more))
  decides : TrialDecides (Grammar.factor levels) (groupStatement levels)
  encloses : Encloses levels

theorem LevelFollows.statement (h : LevelFollows levels) (more : Nat) (skips : Bool)
    (stop : Char) :
    Follows more skips (Alike skips) (statement levels stop) (statement (levels + more) stop) := by
  rw [statement_eq, statement_eq]
  have hcondition := follows_condition (h.factor more skips) (h.group more skips) h.decides levels
  exact follows_conditions stop hcondition

theorem levelFollows_zero : LevelFollows 0 where
  factor more skips := by
    rw [factor_zero]
    exact follows_tooDeep
  group more skips := follows_tooDeep
  decides := by
    intro settings state error mid _ _ value last hcomparison
    obtain ⟨_, _, hexpression, -⟩ := bind_eq_done.1 hcomparison
    exact expression_zero hexpression
  encloses := encloses_zero

theorem LevelFollows.succ (h : LevelFollows levels) : LevelFollows (levels + 1) := by
  have hfactor (more : Nat) (skips : Bool) : Follows more skips (Alike skips)
      (Grammar.factor (levels + 1)) (Grammar.factor (levels + 1 + more)) := by
    rw [Nat.add_right_comm, factor_succ, factor_succ, Nat.add_right_comm]
    exact follows_factorWithin (h.factor more skips) (h.statement more skips ',') (levels + 1)
  refine ⟨hfactor, fun more skips => ?_, ?_, encloses_succ h.encloses (hfactor 0 false)⟩
  · rw [Nat.add_right_comm]
    exact h.statement more skips ')'
  · exact trialDecides_of_encloses h.encloses (h.statement 0 false ')')

theorem levelFollows (levels : Nat) : LevelFollows levels := by
  induction levels with
  | zero => exact levelFollows_zero
  | succ levels ih => exact ih.succ

end Reckoner.Grammar
