import Reckoner.Expression.Grammar
import Reckoner.Proofs.Reading.Follows

/-!
# Every production follows itself

A production that reads its parts with two readers, one following the other, follows itself.
Groups alone ask for more: that an expression is never what a failed group turns out to be.
-/

namespace Reckoner.Grammar

open Reading

variable {more : Nat} {skips : Bool}

/-! ## Parentheses and chains -/

theorem follows_enclosed {α β : Type} {R : α → β → Prop} {phrase : Reading α}
    {phrase' : Reading β} (h : Follows more skips R phrase phrase') :
    Follows more skips R (enclosed phrase) (enclosed phrase') :=
  h.bind fun _ _ hR => (follows_expect ')' _).bind fun _ _ _ => follows_pure hR

/-- Steps on agreeing values agree in whether they are taken and in what they come to. -/
abbrev AlikeStep {α : Type} (skips : Bool) : Option α → Option α → Prop :=
  Option.Rel (Alike skips)

section

variable {operand operand' : Reading Decimal}

theorem follows_chainStep (h : Follows more skips (Alike skips) operand operand')
    (operators : List (Char × Operator)) (left left' : Decimal) (hleft : Alike skips left left') :
    Follows more skips (AlikeStep skips) (chainStep operand operators left)
      (chainStep operand' operators left') := by
  induction operators with
  | nil => exact follows_pure .none
  | cons operator rest ih =>
    refine (follows_accept operator.1).bindSame fun taken => ?_
    refine .ite (h.bind fun right right' hright => ?_) ih
    refine (follows_calculate fun hskips => ?_).bind fun _ _ hR => follows_pure (.some hR)
    rw [hleft hskips, hright hskips]

theorem follows_chain (h : Follows more skips (Alike skips) operand operand')
    (operators : List (Char × Operator)) :
    Follows more skips (Alike skips) (chain operators operand) (chain operators operand') :=
  h.bind fun _ _ hR => .iterate (follows_chainStep h operators) hR

theorem follows_expression (h : Follows more skips (Alike skips) operand operand') :
    Follows more skips (Alike skips) (expression operand) (expression operand') :=
  follows_chain (follows_chain h products) sums

end

variable {factor factor' : Reading Decimal} {inner inner' : Reading Bool}

/-! ## Statements -/

theorem follows_relation : Follows more skips Eq relation relation := by
  have hequals (yes no : Relation) : Follows more skips Eq
      (do return some (if ← accept '=' then yes else no))
      (do return some (if ← accept '=' then yes else no)) :=
    (follows_accept '=').bindSame fun _ => follows_pure rfl
  refine (follows_accept '>').bindSame fun _ => .ite (hequals _ _) ?_
  refine (follows_accept '<').bindSame fun _ => .ite (hequals _ _) ?_
  refine (follows_accept '=').bindSame fun _ => .ite (follows_pure rfl) ?_
  refine (follows_accept '!').bindSame fun _ => .ite ?_ (follows_pure rfl)
  exact (follows_expect '=' _).bindSame fun _ => follows_pure rfl

theorem follows_comparison (h : Follows more skips (Alike skips) factor factor') :
    Follows more skips (Alike skips) (comparison factor) (comparison factor') := by
  refine (follows_expression h).bind fun left left' hleft => ?_
  refine follows_relation.bindSame fun operator => ?_
  cases operator with
  | none => exact follows_pure fun hskips => by rw [hleft hskips]
  | some operator =>
    refine (follows_expression h).bind fun right right' hright => follows_pure fun hskips => ?_
    rw [hleft hskips, hright hskips]

/-- The statement in parentheses that is tried first. -/
def trial (inner : Reading Bool) : Reading Bool := accept '(' >>= fun _ => enclosed inner

theorem follows_trial (h : Follows more skips (Alike skips) inner inner') :
    Follows more skips (Alike skips) (trial inner) (trial inner') :=
  (follows_accept '(').bindSame fun _ => follows_enclosed h

/-- Where the trial of a group fails, the text is no comparison either. -/
def TrialDecides (factor : Reading Decimal) (inner : Reading Bool) : Prop :=
  ∀ settings state error mid, state.cursor.peek = .at '(' →
    trial inner settings state = .failed error mid →
    ∀ value last, comparison factor settings { mid with cursor := state.cursor } ≠ .done value last

theorem tracks_group (h : Follows more skips (Alike skips) factor factor')
    (hi : Follows more skips (Alike skips) inner inner') (hdecides : TrialDecides factor inner)
    (levels : Nat) {lost : Nat} {settings : Settings} {state : State}
    (hlost : lost ≤ state.lost + more) (hpeek : state.cursor.peek = .at '(') :
    (group levels factor inner settings state).Tracks state lost skips (Alike skips)
      (group (levels + more) factor' inner' settings (state.eased lost skips)) := by
  exact tracks_nested hlost fun _ => tracks_orElse (follows_trial hi) (follows_comparison h) _ hlost
    fun error mid hfailed => hdecides settings state error mid hpeek hfailed

theorem follows_clause (h : Follows more skips (Alike skips) factor factor')
    (hi : Follows more skips (Alike skips) inner inner') (hdecides : TrialDecides factor inner)
    (levels : Nat) :
    Follows more skips (Alike skips) (clause levels factor inner)
      (clause (levels + more) factor' inner') := by
  intro settings state lost hlost
  unfold clause
  rw [bind_of_done (show peek settings state = .done state.cursor.peek state from rfl),
    bind_of_done (show peek settings (state.eased lost skips) =
      .done state.cursor.peek (state.eased lost skips) from rfl)]
  split
  · next hpeek => exact tracks_group h hi hdecides levels hlost hpeek
  · exact follows_comparison h settings state lost hlost

theorem follows_condition (h : Follows more skips (Alike skips) factor factor')
    (hi : Follows more skips (Alike skips) inner inner') (hdecides : TrialDecides factor inner)
    (levels : Nat) :
    Follows more skips (Alike skips) (condition levels factor inner)
      (condition (levels + more) factor' inner') := by
  refine (follows_accept '!').bindSame fun negated => ?_
  refine (follows_clause h hi hdecides levels).bind fun holds holds' hh => ?_
  exact follows_pure fun hskips => by rw [hh hskips]

theorem follows_connective : Follows more skips Eq connective connective := by
  refine (follows_accept '&').bindSame fun _ => ?_
  refine .ite (follows_pure rfl) ((follows_accept '|').bindSame fun _ => ?_)
  exact .ite (follows_pure rfl) (follows_pure rfl)

theorem follows_conditionStep {condition condition' : Reading Bool} (stop : Char)
    (h : Follows more skips (Alike skips) condition condition') (left left' : Bool)
    (hleft : Alike skips left left') :
    Follows more skips (AlikeStep skips) (conditionStep stop condition left)
      (conditionStep stop condition' left') := by
  refine follows_connective.bindSame fun conjunction => ?_
  cases conjunction with
  | none => exact follows_pure .none
  | some conjunction =>
    refine follows_peek.bindSame fun _ => ?_
    refine .ite (follows_pure .none) (h.bind fun right right' hright => ?_)
    exact follows_pure (.some fun hskips => by rw [hleft hskips, hright hskips])

theorem follows_conditions {condition condition' : Reading Bool} (stop : Char)
    (h : Follows more skips (Alike skips) condition condition') :
    Follows more skips (Alike skips) (conditions stop condition) (conditions stop condition') :=
  h.bind fun _ _ hR => .iterate (follows_conditionStep stop h) hR

/-! ## Function calls -/

theorem follows_openParenthesis (name : String) (start : Cursor) :
    Follows more skips Eq (openParenthesis name start) (openParenthesis name start) := by
  refine (follows_accept '(').bindSame fun _ => ?_
  exact .ite follows_failAt (follows_pure rfl)

theorem follows_comma (name : String) : Follows more skips Eq (comma name) (comma name) :=
  follows_expect ',' _

theorem follows_closeParenthesis : Follows more skips Eq closeParenthesis closeParenthesis :=
  follows_expect ')' _

theorem follows_emptyArguments : Follows more skips Eq emptyArguments emptyArguments := by
  refine (follows_accept '(').bindSame fun _ => ?_
  exact .ite follows_closeParenthesis (follows_pure rfl)

theorem follows_argument (h : Follows more skips (Alike skips) factor factor') :
    Follows more skips (Alike skips) (argument factor) (argument factor') := by
  refine (follows_accept '(').bindSame fun _ => ?_
  exact .ite (follows_enclosed (follows_expression h)) h

theorem follows_argumentStep (h : Follows more skips (Alike skips) factor factor')
    (values values' : List Decimal) (hvalues : Alike skips values values') :
    Follows more skips (AlikeStep skips) (argumentStep factor values)
      (argumentStep factor' values') := by
  refine (follows_accept ',').bindSame fun _ => ?_
  refine .ite ((follows_expression h).bind fun value value' hvalue => ?_) (follows_pure .none)
  exact follows_pure (.some fun hskips => by rw [hvalue hskips, hvalues hskips])

theorem follows_arguments (h : Follows more skips (Alike skips) factor factor') :
    Follows more skips (Alike skips) (arguments factor) (arguments factor') :=
  (follows_expression h).bind fun _ _ hfirst =>
    .iterate (follows_argumentStep h) fun hskips => by rw [hfirst hskips]

theorem follows_application (h : Follows more skips (Alike skips) factor factor')
    (hi : Follows more skips (Alike skips) inner inner') (name : String) (start : Cursor)
    (function : Builtin) :
    Follows more skips (Alike skips) (application factor inner name start function)
      (application factor' inner' name start function) := by
  have hexpression := follows_expression h
  cases function with
  | constant function =>
    exact follows_emptyArguments.bind fun _ _ _ => follows_calculate (.refl _)
  | unary function =>
    refine (follows_argument h).bind fun value value' hv => follows_calculate fun hskips => ?_
    rw [hv hskips]
  | binary function =>
    refine (follows_openParenthesis name start).bind fun _ _ _ => ?_
    refine hexpression.bind fun left left' hleft => ?_
    refine (follows_comma name).bind fun _ _ _ => ?_
    refine hexpression.bind fun right right' hright => ?_
    refine follows_closeParenthesis.bind fun _ _ _ => follows_calculate fun hskips => ?_
    rw [hleft hskips, hright hskips]
  | conditional negated =>
    refine (follows_openParenthesis name start).bind fun _ _ _ => ?_
    refine hi.bind fun holds holds' hh => ?_
    have htaken : Alike skips (holds != negated) (holds' != negated) :=
      fun hskips => by rw [hh hskips]
    have hother : Alike skips (!(holds != negated)) (!(holds' != negated)) :=
      fun hskips => by rw [hh hskips]
    refine (follows_comma name).bind fun _ _ _ => ?_
    refine (hexpression.branch htaken).bind fun first first' hf => ?_
    refine (follows_comma name).bind fun _ _ _ => ?_
    refine (hexpression.branch hother).bind fun second second' hs => ?_
    refine follows_closeParenthesis.bind fun _ _ _ => follows_pure fun hskips => ?_
    rw [hh hskips, hf hskips, hs hskips]
  | variadic kind =>
    refine (follows_openParenthesis name start).bind fun _ _ _ => ?_
    refine (follows_arguments h).bind fun values values' hvs => ?_
    refine follows_closeParenthesis.bind fun _ _ _ => follows_calculate fun hskips => ?_
    rw [hvs hskips]

/-! ## Factors -/

theorem follows_fraction : Follows more skips Eq fraction fraction := by
  refine follows_cursor.bindSame fun _ => ?_
  refine .ite ((follows_accept '.').bind fun _ _ _ => ?_) (follows_pure rfl)
  exact (follows_takeWhile _).bind fun _ _ h => follows_pure (by rw [h])

theorem follows_number : Follows more skips (Alike skips) number number := by
  refine follows_cursor.bindSame fun _ => ?_
  refine (follows_takeWhile _).bindSame fun _ => ?_
  refine follows_fraction.bindSame fun _ => ?_
  simp only
  split
  · exact follows_pure (.refl _)
  · exact follows_failAt

theorem follows_call (h : Follows more skips (Alike skips) factor factor')
    (hi : Follows more skips (Alike skips) inner inner') :
    Follows more skips (Alike skips) (call factor inner) (call factor' inner') := by
  refine follows_cursor.bindSame fun _ => ?_
  refine (follows_takeWhile _).bindSame fun _ => ?_
  simp only
  split
  · exact follows_application h hi _ _ _
  · exact follows_failAt

theorem follows_operand (h : Follows more skips (Alike skips) factor factor')
    (hi : Follows more skips (Alike skips) inner inner') (start : Cursor) :
    Follows more skips (Alike skips) (operand factor inner start)
      (operand factor' inner' start) := by
  unfold operand
  split
  · refine .ite follows_number (.ite (follows_call h hi) ?_)
    exact .ite follows_failAt follows_failAt
  · exact follows_failAt

theorem follows_primary (h : Follows more skips (Alike skips) factor factor')
    (hi : Follows more skips (Alike skips) inner inner') :
    Follows more skips (Alike skips) (primary factor inner) (primary factor' inner') := by
  refine (follows_accept '(').bindSame fun _ => ?_
  refine .ite (follows_enclosed (follows_expression h)) ?_
  exact follows_passSpaces.bind fun _ _ _ => follows_cursor.bindSame (follows_operand h hi)

theorem follows_raised (h : Follows more skips (Alike skips) factor factor')
    {value value' : Decimal} (hvalue : Alike skips value value') :
    Follows more skips (Alike skips) (raised factor value) (raised factor' value') := by
  refine (follows_accept '^').bindSame fun _ => ?_
  refine .ite (h.bind fun exponent exponent' he => follows_calculate fun hskips => ?_)
    (follows_pure hvalue)
  rw [hvalue hskips, he hskips]

theorem follows_shared (h : Follows more skips (Alike skips) factor factor')
    {value value' : Decimal} (hvalue : Alike skips value value') :
    Follows more skips (Alike skips) (shared factor value) (shared factor' value') := by
  refine (follows_accept '%').bindSame fun _ => ?_
  refine .ite ((follows_accept '%').bindSame fun _ => ?_) (follows_pure hvalue)
  refine .ite (h.bind fun divisor divisor' hd => follows_calculate fun hskips => ?_)
    (h.bind fun whole whole' hw => follows_calculate fun hskips => ?_)
  · rw [hvalue hskips, hd hskips]
  · rw [hvalue hskips, hw hskips]

theorem follows_withTail (h : Follows more skips (Alike skips) factor factor')
    {value value' : Decimal} (hvalue : Alike skips value value') :
    Follows more skips (Alike skips) (withTail factor value) (withTail factor' value') :=
  (follows_raised h hvalue).bind fun _ _ hR => follows_shared h hR

theorem follows_factorWithin (h : Follows more skips (Alike skips) factor factor')
    (hi : Follows more skips (Alike skips) inner inner') (levels : Nat) :
    Follows more skips (Alike skips) (factorWithin levels factor inner)
      (factorWithin (levels + more) factor' inner') := by
  refine Follows.nested ?_ levels
  refine (follows_accept '+').bindSame fun _ => ?_
  refine .ite h ((follows_accept '-').bindSame fun _ => ?_)
  refine .ite (h.bind fun value value' hv => follows_pure fun hskips => by rw [hv hskips]) ?_
  exact (follows_primary h hi).bind fun _ _ hv => follows_withTail h hv

/-! ## Whole texts -/

theorem follows_endOfText : Follows more skips Eq endOfText endOfText := by
  refine follows_passSpaces.bind fun _ _ _ => follows_cursor.bindSame fun _ => ?_
  split
  · exact follows_pure rfl
  · exact follows_failAt
  · exact follows_failAt

theorem follows_wholeExpression {levels levels' : Nat}
    (h : Follows more skips (Alike skips) (Grammar.factor levels) (Grammar.factor levels')) :
    Follows more skips (Alike skips) (wholeExpression levels) (wholeExpression levels') :=
  (follows_expression h).bind fun _ _ hv => follows_endOfText.bind fun _ _ _ => follows_pure hv

end Reckoner.Grammar
