import Reckoner.Proofs.Syntax.Soundness

/-!
# Whatever is read as a statement was printed

The readers of statements take printed statements. A group that was read twice has taken what the
reading that counted took, and it was read from where the first one began.
-/

namespace Reckoner.Syntax

open Grammar Reading

variable {frame : Frame} {text : List Char} {levels : Nat} {factor : Reading Decimal}

/-! ## Comparisons -/

theorem takes_relation :
    frame.Takes text relation fun operator u _ =>
      match operator with
      | some operator => ∃ signs, (signs, operator) ∈ relations ∧ Spaced signs u
      | none => u = [] := by
  refine takes_choice (fun o mid ho => ?_) fun _ => takes_choice (fun o mid ho => ?_) fun _ =>
    takes_choice (fun o mid ho => ?_) fun _ => takes_choice (fun o mid ho => ?_) fun _ =>
      takes_pure rfl
  · refine (takes_accept '=').bind fun taken u mid _ hu => takes_pure ?_
    cases taken with
    | true => exact ⟨['>', '='], by simp [relations], by simpa using ho.push hu⟩
    | false => exact ⟨['>'], by simp [relations], by simpa [hu.1] using ho⟩
  · refine (takes_accept '=').bind fun taken u mid _ hu => takes_pure ?_
    cases taken with
    | true => exact ⟨['<', '='], by simp [relations], by simpa using ho.push hu⟩
    | false => exact ⟨['<'], by simp [relations], by simpa [hu.1] using ho⟩
  · exact takes_pure ⟨['='], by simp [relations], by simpa using ho⟩
  · refine takes_expect.bind fun _ u mid _ hu => takes_pure ?_
    exact ⟨['!', '='], by simp [relations], by simpa using ho.push hu⟩

theorem takes_comparison (hfactor : TakesFactors levels factor) (text : List Char) :
    frame.Takes text (comparison factor) fun _ u _ => frame.Prints levels .clause u := by
  refine (takes_expression hfactor text).bind fun x u _ _ hl => ?_
  refine takes_relation.bind fun operator o _ _ ho => ?_
  obtain ⟨l, hl, hldepth⟩ := hl
  cases operator with
  | none =>
    obtain rfl : o = [] := ho
    exact takes_pure ⟨.truth l, by simpa using Prints.truth hl, hldepth⟩
  | some operator =>
    obtain ⟨signs, hop, ho⟩ := ho
    refine (takes_expression hfactor _).bind fun y v _ _ hr => takes_pure ?_
    obtain ⟨r, hr, hrdepth⟩ := hr
    refine ⟨.comparison operator l r, by simpa using Prints.comparison hop hl ho hr, ?_⟩
    simp only [Category.depth, Statement.depth] at hldepth hrdepth ⊢
    omega

/-! ## Groups -/

variable {inner : Reading Bool}

theorem takes_trial (hinner : TakesStatements levels inner)
    (hopen : significant text = some '(') :
    frame.Takes text (trial inner) fun _ u _ => frame.Prints (levels + 1) .clause u := by
  refine (takes_accept '(').bind fun taken a mid hsplit ha => ?_
  cases taken with
  | false =>
    obtain ⟨rfl, hrefuses⟩ := ha
    obtain rfl : text = mid := hsplit
    exact absurd hopen hrefuses
  | true =>
    refine (takes_enclosed (hinner frame mid)).mono fun _ u _ _ hu => ?_
    obtain ⟨v, b, ⟨s, hs, hdepth⟩, hb, rfl⟩ := hu
    refine ⟨.group s, .group ha hs hb, ?_⟩
    simp only [Category.depth, Statement.depth] at hdepth ⊢
    omega

/-- The reader of a group takes printed clauses. -/
def TakesGroups (levels : Nat) (factor : Reading Decimal) (inner : Reading Bool) : Prop :=
  ∀ (frame : Frame) (text : List Char), significant text = some '(' →
    frame.Takes text (group levels factor inner) fun _ u _ => frame.Prints levels .clause u

/-- The second reading of a group only counts where the first one has succeeded, so it is made
from the very place and with as many levels. -/
theorem takes_group (hfactor : TakesFactors (levels + 1) factor)
    (hinner : TakesStatements levels inner) (hdecides : TrialDecides factor inner) :
    TakesGroups (levels + 1) factor inner := by
  intro frame text hopen
  refine takes_nested fun _ behind value last hrun => ?_
  change orElse (trial inner) _ _ _ _ = _ at hrun
  unfold orElse at hrun
  split at hrun
  · next tried after htrial =>
    obtain ⟨u, rest, behind', hsplit, rfl, hu⟩ := takes_trial hinner hopen behind tried after htrial
    split at hrun
    · obtain ⟨-, rfl⟩ := Outcome.done.inj hrun
      exact ⟨u, rest, behind', hsplit, rfl, hu⟩
    · exact takes_comparison hfactor text behind value last hrun
  · next error after htrial =>
    refine absurd hrun (hdecides _ _ error after ?_ htrial value last)
    change (Cursor.facing behind text).peek = _
    rw [Cursor.peek_facing, hopen]
    rfl

theorem takes_group_zero : TakesGroups 0 factor inner :=
  fun _ _ _ => takes_nested fun hlevels => absurd hlevels (by omega)

/-! ## Conditions -/

theorem takes_clause (hfactor : TakesFactors levels factor)
    (hgroup : TakesGroups levels factor inner) (text : List Char) :
    frame.Takes text (clause levels factor inner) fun _ u _ => frame.Prints levels .clause u := by
  refine takes_peek ?_
  split
  · next hpeek =>
    refine hgroup frame text ?_
    cases hsignificant : significant text <;> simp_all [Spot.ofOption]
  · exact takes_comparison hfactor text

theorem takes_condition (hfactor : TakesFactors levels factor)
    (hgroup : TakesGroups levels factor inner) (text : List Char) :
    frame.Takes text (condition levels factor inner) fun _ u _ =>
      frame.Prints levels .condition u := by
  refine (takes_accept '!').bind fun negated o mid _ ho => ?_
  refine (takes_clause hfactor hgroup mid).bind fun holds u _ _ hu => takes_pure ?_
  obtain ⟨s, hs, hdepth⟩ := hu
  cases negated with
  | true => exact ⟨.negation s, by simpa using Prints.negation ho hs, hdepth⟩
  | false => exact ⟨s, by simpa [ho.1] using Prints.clause hs, hdepth⟩

theorem takes_connective :
    frame.Takes text connective fun conjunction u _ =>
      match conjunction with
      | some conjunction => ∃ sign, (sign, conjunction) ∈ connectives ∧ Spaced [sign] u
      | none => u = [] := by
  refine takes_choice (fun o mid ho => ?_) fun _ => takes_choice (fun o mid ho => ?_) fun _ =>
    takes_pure rfl
  · exact takes_pure ⟨'&', by simp [connectives], by simpa using ho⟩
  · exact takes_pure ⟨'|', by simp [connectives], by simpa using ho⟩

theorem takes_conditions {condition : Reading Bool} (stop : Char)
    (hcondition : ∀ text, frame.Takes text condition fun _ u _ =>
      frame.Prints levels .condition u) (text : List Char) :
    frame.Takes text (conditions stop condition) fun _ u _ =>
      frame.Prints levels .statement u := by
  refine (hcondition text).bind fun first u mid _ hu => ?_
  have hfirst : frame.Prints levels .conditions u := by
    obtain ⟨s, hs, hdepth⟩ := hu
    exact ⟨s, .condition hs, hdepth⟩
  refine takes_iterate (fun left u mid hI => ?_) (fun u ⟨s, hs, hdepth⟩ => ?_) hfirst
  · obtain ⟨l, hl, hldepth⟩ := hI
    refine takes_connective.bind fun conjunction o mid _ ho => ?_
    cases conjunction with
    | none =>
      obtain rfl : o = [] := ho
      exact takes_pure ⟨l, by simpa using Prints.conditions hl, hldepth⟩
    | some conjunction =>
      obtain ⟨sign, hsign, ho⟩ := ho
      refine takes_peek ?_
      split
      · exact takes_pure ⟨l, by simpa using Prints.dangling hsign hl ho, hldepth⟩
      · refine (hcondition mid).bind fun right v _ _ hr => takes_pure ?_
        obtain ⟨r, hr, hrdepth⟩ := hr
        refine ⟨⟨.join conjunction l r, ?_, ?_⟩, ?_⟩
        · simpa using Prints.join hsign hl ho hr
        · simp only [Category.depth, Statement.depth] at hldepth hrdepth ⊢
          omega
        · simpa using ne_nil_of_spaced ho v
  · exact ⟨s, .conditions hs, hdepth⟩

/-! ## All levels -/

theorem takes_tooDeep {α : Type} {Q : α → List Char → List Char → Prop} :
    frame.Takes text tooDeep Q := by
  intro behind value last hrun
  simp [tooDeep] at hrun

/-- Factors and statements take what prints them. -/
structure TakesLevel (levels : Nat) : Prop where
  factors : TakesFactors levels (Grammar.factor levels)
  statements (stop : Char) : TakesStatements levels (statement levels stop)

theorem takesLevel (levels : Nat) : TakesLevel levels := by
  have hstatements {levels : Nat} (hfactors : TakesFactors levels (Grammar.factor levels))
      (hgroup : TakesGroups levels (Grammar.factor levels) (groupStatement levels)) (stop : Char) :
      TakesStatements levels (statement levels stop) := by
    intro frame text
    rw [statement_eq]
    exact takes_conditions stop (takes_condition hfactors hgroup) text
  induction levels with
  | zero =>
    have hfactors : TakesFactors 0 (Grammar.factor 0) := by
      rw [factor_zero]
      exact fun _ _ => takes_tooDeep
    exact ⟨hfactors, hstatements hfactors takes_group_zero⟩
  | succ levels ih =>
    have hfactors : TakesFactors (levels + 1) (Grammar.factor (levels + 1)) := by
      rw [factor_succ]
      exact takes_factorWithin ih.factors (ih.statements ',')
    have hdecides := (levelFollows (levels + 1)).decides
    exact ⟨hfactors, hstatements hfactors (takes_group hfactors (ih.statements ')') hdecides)⟩

end Reckoner.Syntax
