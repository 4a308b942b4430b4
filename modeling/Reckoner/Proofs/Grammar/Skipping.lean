import Reckoner.Proofs.Grammar.Brackets

/-!
# Skipping reads what computing reads

Whatever is computed without an error can be skipped instead: skipping stops at the same place
with the same levels left. No run that skips raises an arithmetic error.
-/

namespace Reckoner

def Outcome.state {α : Type} : Outcome α → State
  | .done _ state => state
  | .failed _ state => state

namespace Grammar

open Reading

/-- The productions of the grammar, with what they are told beside the levels left. -/
inductive Production : Type → Type where
  | whole : Production Decimal
  | expression : Production Decimal
  | term : Production Decimal
  | factor : Production Decimal
  | primary : Production Decimal
  | number : Production Decimal
  | tail (value : Decimal) : Production Decimal
  | call : Production Decimal
  | application (name : String) (start : Cursor) (function : Builtin) : Production Decimal
  | argument : Production Decimal
  | taken (holds : Bool) : Production Decimal
  | statement (stop : Char) : Production Bool
  | condition : Production Bool
  | clause : Production Bool
  | group : Production Bool
  | trial : Production Bool
  | comparison : Production Bool
  | relation : Production (Option Relation)

namespace Production

variable {α : Type}

/-- How a production is read with `levels` levels left: the depth limit less the depth of the
phrase, where levels that were lost are counted by the state. -/
def reading (levels : Nat) : Production α → Reading α
  | whole => wholeExpression levels
  | expression => Grammar.expression (Grammar.factor levels)
  | term => Grammar.term (Grammar.factor levels)
  | factor => Grammar.factor levels
  | primary => Grammar.primary (Grammar.factor levels) (Grammar.statement levels ',')
  | number => Grammar.number
  | tail value => withTail (Grammar.factor levels) value
  | call => Grammar.call (Grammar.factor levels) (Grammar.statement levels ',')
  | application name start function =>
    Grammar.application (Grammar.factor levels) (Grammar.statement levels ',') name start function
  | argument => Grammar.argument (Grammar.factor levels)
  | taken holds => branch holds (Grammar.expression (Grammar.factor levels))
  | statement stop => Grammar.statement levels stop
  | condition => Grammar.condition levels (Grammar.factor levels) (groupStatement levels)
  | clause => Grammar.clause levels (Grammar.factor levels) (groupStatement levels)
  | group => Grammar.group levels (Grammar.factor levels) (groupStatement levels)
  | trial => Grammar.trial (groupStatement levels)
  | comparison => Grammar.comparison (Grammar.factor levels)
  | relation => Grammar.relation

/-- Where a production is entered: a group only at a parenthesis. -/
def EnteredAt (cursor : Cursor) : Production α → Prop
  | group => cursor.peek = .at '('
  | _ => True

theorem tracks (production : Production α) (levels : Nat) (skips : Bool) (settings : Settings)
    (state : State) (h : production.EnteredAt state.cursor) :
    (production.reading levels settings state).Tracks state state.lost skips (Alike skips)
      (production.reading levels settings (state.eased state.lost skips)) := by
  have hlevels := levelFollows levels
  have hfactor := hlevels.factor 0 skips
  have hstatement := hlevels.statement 0 skips
  have hgroup := hlevels.group 0 skips
  have hexpression := follows_expression hfactor
  have hlost : state.lost ≤ state.lost + 0 := le_rfl
  cases production with
  | group => exact tracks_group hfactor hgroup hlevels.decides levels hlost h
  | whole => exact follows_wholeExpression hfactor settings state _ hlost
  | expression => exact hexpression settings state _ hlost
  | term => exact follows_chain hfactor products settings state _ hlost
  | factor => exact hfactor settings state _ hlost
  | primary => exact follows_primary hfactor (hstatement ',') settings state _ hlost
  | number => exact follows_number settings state _ hlost
  | tail value => exact follows_withTail hfactor (.refl value) settings state _ hlost
  | call => exact follows_call hfactor (hstatement ',') settings state _ hlost
  | application name start function =>
    exact follows_application hfactor (hstatement ',') name start function settings state _ hlost
  | argument => exact follows_argument hfactor settings state _ hlost
  | taken holds => exact hexpression.branch (.refl holds) settings state _ hlost
  | statement stop => exact hstatement stop settings state _ hlost
  | condition =>
    exact follows_condition hfactor hgroup hlevels.decides levels settings state _ hlost
  | clause => exact follows_clause hfactor hgroup hlevels.decides levels settings state _ hlost
  | trial => exact follows_trial hgroup settings state _ hlost
  | comparison => exact follows_comparison hfactor settings state _ hlost
  | relation =>
    exact (follows_relation.mono fun _ _ h _ => h) settings state _ hlost

theorem skipping_kept (production : Production α) (levels : Nat) (settings : Settings)
    (state : State) (h : production.EnteredAt state.cursor) :
    (production.reading levels settings state).state.skipping = state.skipping := by
  have ht := production.tracks levels false settings state h
  cases hrun : production.reading levels settings state with
  | done value last =>
    rw [hrun] at ht
    exact ht.1
  | failed error last =>
    rw [hrun] at ht
    exact ht.skipping

theorem skipped_quiet (production : Production α) (levels : Nat) (settings : Settings)
    (state : State) (h : production.EnteredAt state.cursor) (hskipping : state.skipping = true)
    (error : ArithmeticError) (last : State) :
    production.reading levels settings state ≠ .failed (.arithmetic error) last := by
  intro hrun
  have ht := production.tracks levels false settings state h
  rw [hrun] at ht
  exact ht.quiet hskipping error rfl

theorem skipped_follows (production : Production α) (levels : Nat) (settings : Settings)
    (state last : State) (h : production.EnteredAt state.cursor) {value : α}
    (hrun : production.reading levels settings state = .done value last) :
    ∃ skipped, production.reading levels settings { state with skipping := true } =
      .done skipped { last with skipping := true } := by
  have ht := production.tracks levels true settings state h
  rw [hrun] at ht
  obtain ⟨-, hlost, skipped, -, hskipped⟩ := ht
  refine ⟨skipped, ?_⟩
  simpa only [State.eased, Bool.or_true, ← hlost] using hskipped

end Production

/-- Skipping reads what computing reads, in every production, from every place and with any
levels left: a run that skips raises no arithmetic error, it follows every run that computes
a value to the place and the levels where that one stops, and no run forgets whether it skips. -/
theorem skipping_reads_as_computing {α : Type} (production : Production α) (levels : Nat)
    (settings : Settings) (state : State) (h : production.EnteredAt state.cursor) :
    (∀ error last, production.reading levels settings { state with skipping := true } ≠
      .failed (.arithmetic error) last) ∧
    (∀ value last,
      production.reading levels settings { state with skipping := false } = .done value last →
        ∃ skipped, production.reading levels settings { state with skipping := true } =
          .done skipped { last with skipping := true }) ∧
    ∀ skipping,
      (production.reading levels settings { state with skipping }).state.skipping = skipping :=
  ⟨production.skipped_quiet levels settings { state with skipping := true } h rfl,
    fun _ last hrun =>
      production.skipped_follows levels settings { state with skipping := false } last h hrun,
    fun skipping => production.skipping_kept levels settings { state with skipping } h⟩

/-- A group whose parentheses turn out to enclose an operand. -/
theorem skipping_reads_operand_as_computing :
    let start : State := ⟨⟨.after [] "(1+1)>1,2".toList, true⟩, 0, false⟩
    let settings : Settings := ⟨⟨10, .halfUp, by decide⟩, 3⟩
    start.cursor.peek = .at '(' ∧
      ∃ skipped, Production.group.reading 3 settings { start with skipping := true } =
        .done skipped ⟨⟨.after "1>)1+1(".toList ",2".toList, true⟩, 0, true⟩ := by
  intro start settings
  have hpeek : start.cursor.peek = .at '(' := by decide
  refine ⟨hpeek, (skipping_reads_as_computing .group 3 settings start hpeek).2.1 true
    ⟨⟨.after "1>)1+1(".toList ",2".toList, true⟩, 0, false⟩ ?_⟩
  decide +kernel

end Grammar

end Reckoner
