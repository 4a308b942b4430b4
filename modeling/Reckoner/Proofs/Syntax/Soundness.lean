import Reckoner.Proofs.Syntax.Printing
import Reckoner.Proofs.Syntax.Takes

/-!
# Whatever is read was printed

Wherever a reader succeeds, computing or skipping, it has taken a text that prints a tree of its
category, nested no deeper than the levels left allow.
-/

namespace Reckoner.Syntax

open Grammar Reading

def Category.depth : (category : Category) → category.Node → Nat
  | .expression, t => Tree.depth t
  | .term, t => Tree.depth t
  | .factor, t => Tree.depth t
  | .primary, t => Tree.depth t
  | .arguments, ts => Arguments.depth ts
  | .statement, s => Statement.depth s
  | .conditions, s => Statement.depth s
  | .condition, s => Statement.depth s
  | .clause, s => Statement.depth s

/-- A text prints a phrase that a frame can enter with a number of levels left. -/
def Frame.Prints (frame : Frame) (levels : Nat) (category : Category) (u : List Char) : Prop :=
  ∃ node : category.Node,
    Syntax.Prints category node u ∧ frame.lost + category.depth node ≤ levels

variable {frame : Frame} {text : List Char} {levels : Nat} {factor : Reading Decimal}

/-! ## Sums and products -/

/-- The reader of a factor takes printed factors, and neither `^` nor `%` is left behind one. -/
def TakesFactors (levels : Nat) (factor : Reading Decimal) : Prop :=
  ∀ (frame : Frame) (text : List Char), frame.Takes text factor fun _ u rest =>
    frame.Prints levels .factor u ∧ significant rest ≠ some '^' ∧ significant rest ≠ some '%'

theorem takes_chainStep {operand : Reading Decimal} {R : List Char → Prop}
    (hoperand : ∀ text, frame.Takes text operand fun _ u _ => R u)
    (operators : List (Char × Operator)) (left : Decimal) :
    frame.Takes text (chainStep operand operators left) fun next u _ =>
      match next with
      | some _ => ∃ sign operator o v,
        (sign, operator) ∈ operators ∧ Spaced [sign] o ∧ R v ∧ u = o ++ v
      | none => u = [] := by
  induction operators with
  | nil => exact takes_pure rfl
  | cons entry operators ih =>
    obtain ⟨sign, operator⟩ := entry
    refine takes_choice (fun o mid ho => ?_) fun _ => ih.mono fun next u rest _ hu => ?_
    · refine (hoperand mid).bind fun right v rest _ hv => takes_calculate.bind fun result w _ _ hw => ?_
      refine takes_pure ⟨sign, operator, o, v, List.mem_cons_self, ho, hv, ?_⟩
      rw [hw]
      simp
    · cases next with
      | none => exact hu
      | some _ =>
        obtain ⟨sign', operator', o, v, hop, ho, hv, hu⟩ := hu
        exact ⟨sign', operator', o, v, List.mem_cons_of_mem _ hop, ho, hv, hu⟩

theorem ne_nil_of_spaced {c : Char} {signs o : List Char} (h : Spaced (c :: signs) o)
    (v : List Char) : o ++ v ≠ [] := by
  cases h
  simp

theorem takes_chain {operand : Reading Decimal} {operators : List (Char × Operator)}
    {I R : List Char → Prop} (hoperand : ∀ text, frame.Takes text operand fun _ u _ => R u)
    (hfirst : ∀ u, R u → I u)
    (hnext : ∀ sign operator u o v, (sign, operator) ∈ operators → I u → Spaced [sign] o → R v →
      I (u ++ (o ++ v))) :
    frame.Takes text (chain operators operand) fun _ u _ => I u := by
  refine (hoperand text).bind fun first u mid _ hu => ?_
  refine takes_iterate (fun left u mid hI => ?_) (fun _ => id) (hfirst u hu)
  refine (takes_chainStep hoperand operators left).mono fun next w rest _ hw => ?_
  cases next with
  | none => simpa [show w = [] from hw] using hI
  | some _ =>
    obtain ⟨sign, operator, o, v, hop, ho, hv, rfl⟩ := hw
    exact ⟨hnext sign operator u o v hop hI ho hv, ne_nil_of_spaced ho v⟩

theorem takes_chained {operators : List (Char × Operator)} {operand : Reading Decimal}
    {printed : Tree → List Char → Prop} (hoperators : ∀ entry ∈ operators, entry ∈ sums ++ products)
    (hoperand : ∀ text, frame.Takes text operand fun _ u _ =>
      ∃ t, printed t u ∧ frame.lost + t.depth ≤ levels) (text : List Char) :
    frame.Takes text (chain operators operand) fun _ u _ =>
      ∃ t, Chained operators printed t u ∧ frame.lost + t.depth ≤ levels := by
  refine takes_chain hoperand ?_ ?_
  · rintro u ⟨t, ht, hdepth⟩
    exact ⟨t, .first ht, hdepth⟩
  · rintro sign operator u o v hop ⟨l, hl, hldepth⟩ ho ⟨r, hr, hrdepth⟩
    refine ⟨.operation operator l r, .next hop hl ho hr, ?_⟩
    rw [Tree.depth_operation (hoperators _ hop)]
    omega

theorem takes_term (hfactor : TakesFactors levels factor) (text : List Char) :
    frame.Takes text (term factor) fun _ u _ => frame.Prints levels .term u :=
  (takes_chained (by decide) (fun text => (hfactor frame text).mono fun _ _ _ _ h => h.1) text).mono
    fun _ _ _ _ ⟨t, ht, hdepth⟩ => ⟨t, ht.term, hdepth⟩

theorem takes_expression (hfactor : TakesFactors levels factor) (text : List Char) :
    frame.Takes text (expression factor) fun _ u _ => frame.Prints levels .expression u :=
  (takes_chained (by decide) (takes_term hfactor) text).mono
    fun _ _ _ _ ⟨t, ht, hdepth⟩ => ⟨t, ht.expression, hdepth⟩

/-! ## Function calls -/

theorem takes_enclosed {α : Type} {phrase : Reading α} {R : List Char → Prop}
    (hphrase : frame.Takes text phrase fun _ u _ => R u) :
    frame.Takes text (enclosed phrase) fun _ u _ =>
      ∃ v b, R v ∧ Spaced [')'] b ∧ u = v ++ b := by
  refine hphrase.bind fun _ v _ _ hv => takes_expect.bind fun _ b _ _ hb => ?_
  exact takes_pure ⟨v, b, hv, hb, by simp⟩

theorem takes_arguments (hfactor : TakesFactors levels factor) :
    frame.Takes text (arguments factor) fun _ u _ => frame.Prints levels .arguments u := by
  refine (takes_expression hfactor text).bind fun first u mid _ hu => ?_
  obtain ⟨t, ht, hdepth⟩ := hu
  refine takes_iterate (fun values u mid hI => ?_) (fun _ => id) ⟨.one t, .one ht, hdepth⟩
  refine takes_choice (fun c mid hc => ?_) fun _ => takes_pure (by simpa using hI)
  refine (takes_expression hfactor mid).bind fun value v rest _ hv => takes_pure ?_
  obtain ⟨ts, hts, hdepth⟩ := hI
  obtain ⟨t, ht, hdepth'⟩ := hv
  refine ⟨⟨.more ts t, ?_, ?_⟩, by simpa using ne_nil_of_spaced hc v⟩
  · simpa using Prints.more hts hc ht
  · simp only [Category.depth, Arguments.depth] at hdepth hdepth' ⊢
    omega

theorem takes_openParenthesis {name : String} {start : Cursor} :
    frame.Takes text (openParenthesis name start) fun _ u _ => Spaced ['('] u := by
  refine (takes_accept '(').bind fun taken u mid _ hu => ?_
  cases taken with
  | true => exact takes_pure (by simpa using hu)
  | false => exact takes_failAt

theorem takes_emptyArguments :
    frame.Takes text emptyArguments fun _ u _ => u = [] ∨ Spaced ['(', ')'] u := by
  refine takes_choice (fun a mid ha => ?_) fun _ => takes_pure (.inl rfl)
  exact takes_expect.mono fun _ b _ _ hb => .inr (ha.push hb)

/-- The reader of a statement takes printed statements. -/
def TakesStatements (levels : Nat) (statement : Reading Bool) : Prop :=
  ∀ (frame : Frame) (text : List Char),
    frame.Takes text statement fun _ u _ => frame.Prints levels .statement u

section

variable {statement : Reading Bool} {name : String} {start : Cursor}

/-- What a primary has taken: a phrase of its own category, or a function with a factor that no
tail can follow. -/
def Frame.TakenByPrimary (frame : Frame) (levels : Nat) (u rest : List Char) : Prop :=
  frame.Prints levels .primary u ∨
    frame.Prints levels .factor u ∧ significant rest ≠ some '^' ∧ significant rest ≠ some '%'

theorem takes_argument (hfactor : TakesFactors levels factor) (f : Builtin.Unary)
    {word : List Char} (hname : Named (.unary f) word)
    (htext : ∀ c, text.head? = some c → c.isAlpha = false) :
    frame.Takes text (argument factor) fun _ u rest =>
      frame.TakenByPrimary (levels + 1) (word ++ u) rest := by
  refine takes_choice (fun a mid ha => ?_) fun hopen => ?_
  · refine (takes_enclosed (takes_expression hfactor mid)).mono fun _ u _ _ hu => .inl ?_
    obtain ⟨v, b, ⟨t, ht, hdepth⟩, hb, rfl⟩ := hu
    refine ⟨.unary f t, by simpa using Prints.unary hname ha ht hb, ?_⟩
    simp only [Category.depth, Tree.depth] at hdepth ⊢
    omega
  · refine (hfactor frame text).mono fun _ u rest hsplit hu => .inr ⟨?_, hu.2⟩
    obtain ⟨t, ht, hdepth⟩ := hu.1
    refine ⟨.unary f t, .juxtaposed hname ht ⟨?_, fun c hc => ?_⟩, ?_⟩
    · obtain ⟨c, hc, -⟩ := ht.begins
      rwa [hc, ← significant_append hc rest, ← hsplit]
    · obtain ⟨d, tail, rfl⟩ := List.exists_cons_of_ne_nil ht.ne_nil
      obtain rfl : d = c := by simpa using hc
      simp [htext d (by simp [hsplit])]
    · simp only [Category.depth, Tree.depth] at hdepth ⊢
      omega

/-- What a function takes behind its name: parentheses with all of its arguments, or a factor. -/
theorem takes_application (hfactor : TakesFactors levels factor)
    (hstatement : TakesStatements levels statement) (function : Builtin) {word : List Char}
    (hname : Named function word) (htext : ∀ c, text.head? = some c → c.isAlpha = false)
    (hlevels : frame.lost < levels + 1) :
    frame.Takes text (application factor statement name start function) fun _ u rest =>
      frame.TakenByPrimary (levels + 1) (word ++ u) rest := by
  cases function with
  | constant f =>
    refine takes_emptyArguments.bind fun _ p _ _ hp => takes_calculate.mono fun _ v _ _ hv => .inl ?_
    subst hv
    exact ⟨.constant f, by simpa using Prints.constant hname hp, hlevels⟩
  | unary f =>
    refine (takes_argument hfactor f hname htext).bind fun _ u mid _ hu => ?_
    refine takes_calculate.mono fun _ v rest hsplit hv => ?_
    subst hv
    obtain rfl : mid = rest := by simpa using hsplit
    simpa using hu
  | binary f =>
    refine takes_openParenthesis.bind fun _ a _ _ ha => ?_
    refine (takes_expression hfactor _).bind fun _ v _ _ hl => ?_
    refine takes_expect.bind fun _ c _ _ hc => ?_
    refine (takes_expression hfactor _).bind fun _ w _ _ hr => ?_
    refine takes_expect.bind fun _ b _ _ hb => takes_calculate.mono fun _ x _ _ hx => .inl ?_
    obtain ⟨l, hl, hldepth⟩ := hl
    obtain ⟨r, hr, hrdepth⟩ := hr
    subst hx
    refine ⟨.binary f l r, by simpa using Prints.binary hname ha hl hc hr hb, ?_⟩
    simp only [Category.depth, Tree.depth] at hldepth hrdepth ⊢
    omega
  | conditional negated =>
    refine takes_openParenthesis.bind fun _ a _ _ ha => ?_
    refine (hstatement frame _).bind fun holds v _ _ hs => ?_
    refine takes_expect.bind fun _ c _ _ hc => ?_
    refine (takes_branch (takes_expression hfactor _)).bind fun first w _ _ hl => ?_
    refine takes_expect.bind fun _ d _ _ hd => ?_
    refine (takes_branch (takes_expression hfactor _)).bind fun second x _ _ hr => ?_
    refine takes_expect.bind fun _ b _ _ hb => takes_pure (.inl ?_)
    obtain ⟨s, hs, hsdepth⟩ := hs
    obtain ⟨l, hl, hldepth⟩ := hl
    obtain ⟨r, hr, hrdepth⟩ := hr
    refine ⟨.conditional negated s l r,
      by simpa using Prints.conditional hname ha hs hc hl hd hr hb, ?_⟩
    simp only [Category.depth, Tree.depth] at hsdepth hldepth hrdepth ⊢
    omega
  | variadic kind =>
    refine takes_openParenthesis.bind fun _ a _ _ ha => ?_
    refine (takes_arguments hfactor).bind fun _ v _ _ hts => ?_
    refine takes_expect.bind fun _ b _ _ hb => takes_calculate.mono fun _ x _ _ hx => .inl ?_
    obtain ⟨ts, hts, hdepth⟩ := hts
    subst hx
    refine ⟨.variadic kind ts, by simpa using Prints.variadic hname ha hts hb, ?_⟩
    simp only [Category.depth, Tree.depth] at hdepth ⊢
    omega

/-! ## Factors -/

theorem takes_fraction : frame.Takes text fraction fun taken u _ => u = taken ∧
    (taken = [] ∨ ∃ digits, (∀ c ∈ digits, c.isDigit) ∧ taken = '.' :: digits) := by
  refine takes_cursor fun behind => ?_
  rw [Cursor.current_facing]
  split
  · next hpoint =>
    obtain ⟨rest, rfl⟩ : ∃ rest, text = '.' :: rest := by
      cases text with
      | nil => simp [Spot.ofOption] at hpoint
      | cons c rest => exact ⟨rest, by simpa [Spot.ofOption] using hpoint⟩
    refine (takes_accept '.').bind fun taken u mid hsplit hu => ?_
    have hpoint : u = ['.'] := by
      cases taken with
      | false =>
        obtain ⟨rfl, hrefuses⟩ := hu
        rw [← show '.' :: rest = mid from hsplit] at hrefuses
        exact absurd (significant_cons (by decide) rest) hrefuses
      | true =>
        cases (hu : Spaced ['.'] u) with
        | cons n _ hnil =>
          cases hnil
          cases n with
          | zero => rfl
          | succ n => simp [List.replicate_succ] at hsplit
    refine (takes_takeWhile _).bind fun digits v _ _ hv => takes_pure ?_
    obtain ⟨rfl, hdigits, -⟩ := hv
    exact ⟨by simp [hpoint], .inr ⟨v, hdigits, rfl⟩⟩
  · exact takes_pure ⟨rfl, .inl rfl⟩

theorem takes_number {n : Nat} :
    frame.Takes text number fun value u _ => Literal value (List.replicate n ' ' ++ u) := by
  refine takes_cursor fun behind => (takes_takeWhile _).bind fun whole u _ _ hu => ?_
  refine takes_fraction.bind fun fraction v mid _ hv => ?_
  obtain ⟨rfl, hwhole, -⟩ := hu
  obtain ⟨rfl, hfraction⟩ := hv
  simp only
  split
  · next value hvalue =>
    exact takes_pure ⟨n, u, v, hwhole, hfraction, hvalue, by simp⟩
  · exact takes_failAt

theorem takes_call (hfactor : TakesFactors levels factor)
    (hstatement : TakesStatements levels statement) (hlevels : frame.lost < levels + 1) {n : Nat} :
    frame.Takes text (call factor statement) fun _ u rest =>
      frame.TakenByPrimary (levels + 1) (List.replicate n ' ' ++ u) rest := by
  refine takes_cursor fun behind => (takes_takeWhile _).bind fun word u mid _ hu => ?_
  obtain ⟨rfl, -, hmid⟩ := hu
  simp only
  split
  · next function hfunction =>
    have hname : Named function (List.replicate n ' ' ++ u) :=
      ⟨n, String.ofList u, hfunction, by simp⟩
    refine (takes_application hfactor hstatement function hname hmid hlevels).mono ?_
    intro value v rest _ hv
    rwa [List.append_assoc] at hv
  · exact takes_failAt

theorem takes_primary (hfactor : TakesFactors levels factor)
    (hstatement : TakesStatements levels statement) (hlevels : frame.lost < levels + 1) :
    frame.Takes text (primary factor statement) fun _ u rest =>
      frame.TakenByPrimary (levels + 1) u rest := by
  refine takes_choice (fun a mid ha => ?_) fun hopen => ?_
  · refine (takes_enclosed (takes_expression hfactor mid)).mono fun _ u _ _ hu => .inl ?_
    obtain ⟨v, b, ⟨t, ht, hdepth⟩, hb, rfl⟩ := hu
    refine ⟨.bracket t, .bracket ha ht hb, ?_⟩
    simp only [Category.depth, Tree.depth] at hdepth ⊢
    omega
  · refine takes_passSpaces.bind fun _ u mid _ hu => takes_cursor fun behind => ?_
    obtain ⟨⟨n, rfl⟩, -⟩ := hu
    unfold operand
    split
    · next c _ =>
      split
      · exact takes_number.mono fun value v _ _ hv => .inl ⟨.number value, .number hv, hlevels⟩
      · split
        · exact takes_call hfactor hstatement hlevels
        · split <;> exact takes_failAt
    · exact takes_failAt

/-- What a tail has taken: an operator with a factor behind it that no further tail follows. -/
def Frame.TakenByTail (frame : Frame) (levels : Nat) (u rest : List Char) : Prop :=
  ∃ signs operator o v, (signs, operator) ∈ tails ∧ Spaced signs o ∧ frame.Prints levels .factor v ∧
    u = o ++ v ∧ significant rest ≠ some '^' ∧ significant rest ≠ some '%'

theorem Frame.TakenByTail.stops {u rest : List Char} (h : frame.TakenByTail levels u rest) :
    significant rest ≠ some '^' ∧ significant rest ≠ some '%' := by
  obtain ⟨_, _, _, _, _, _, _, _, hrest⟩ := h
  exact hrest

theorem takes_exponent (hfactor : TakesFactors levels factor) {signs o : List Char}
    {operator : Operator} (hop : (signs, operator) ∈ tails) (ho : Spaced signs o)
    (operation : Decimal → Context → Arithmetic Decimal) :
    frame.Takes text (factor >>= fun value => calculate (operation value)) fun _ v rest =>
      frame.TakenByTail levels (o ++ v) rest := by
  refine (hfactor frame text).bind fun value v mid _ hv => takes_calculate.mono ?_
  intro _ w rest hsplit hw
  subst hw
  obtain rfl : mid = rest := by simpa using hsplit
  exact ⟨signs, operator, o, v, hop, ho, hv.1, by simp, hv.2⟩

theorem takes_raised (hfactor : TakesFactors levels factor) (value : Decimal) :
    frame.Takes text (raised factor value) fun _ u rest =>
      u = [] ∧ significant rest ≠ some '^' ∨
        significant u = some '^' ∧ frame.TakenByTail levels u rest := by
  have hpower : (['^'], Operator.power) ∈ tails := by simp [tails]
  refine takes_choice (fun o mid ho => ?_) fun hrefuses => takes_pure (.inl ⟨rfl, hrefuses⟩)
  exact (takes_exponent hfactor hpower ho _).mono fun _ v _ _ hv =>
    .inr ⟨ho.significant_append (by decide), hv⟩

theorem takes_shared (hfactor : TakesFactors levels factor) (value : Decimal) :
    frame.Takes text (shared factor value) fun _ u rest =>
      u = [] ∧ significant rest ≠ some '%' ∨
        significant u = some '%' ∧ frame.TakenByTail levels u rest := by
  have hremainder : (['%', '%'], Operator.remainder) ∈ tails := by simp [tails]
  have hpercentage : (['%'], Operator.percentage) ∈ tails := by simp [tails]
  refine takes_choice (fun o mid ho => ?_) fun hrefuses => takes_pure (.inl ⟨rfl, hrefuses⟩)
  refine takes_choice (fun o' mid' ho' => ?_) fun _ => ?_
  · refine (takes_exponent hfactor hremainder (ho.push ho') _).mono fun _ v _ _ hv => .inr ?_
    rw [List.append_assoc] at hv
    exact ⟨ho.significant_append (by decide), hv⟩
  · exact (takes_exponent hfactor hpercentage ho _).mono fun _ v _ _ hv =>
      .inr ⟨ho.significant_append (by decide), hv⟩

theorem Frame.TakenByPrimary.prints {u rest : List Char}
    (h : frame.TakenByPrimary levels u rest) : frame.Prints levels .factor u := by
  obtain ⟨t, ht, hdepth⟩ | ⟨h, -⟩ := h
  · exact ⟨t, .primary ht, hdepth⟩
  · exact h

theorem Frame.TakenByPrimary.tail {u v rest rest' : List Char}
    (h : frame.TakenByPrimary (levels + 1) u rest)
    (hsign : significant rest = some '^' ∨ significant rest = some '%')
    (htail : frame.TakenByTail levels v rest') : frame.Prints (levels + 1) .factor (u ++ v) := by
  obtain ⟨l, hl, hldepth⟩ | ⟨-, hpower, hpercent⟩ := h
  · obtain ⟨signs, operator, o, w, hop, ho, ⟨r, hr, hrdepth⟩, rfl, -⟩ := htail
    refine ⟨.operation operator l r, .tail hop hl ho hr, ?_⟩
    simp only [Category.depth] at hldepth hrdepth ⊢
    rw [Tree.depth_tail hop]
    omega
  · obtain hsign | hsign := hsign
    · exact absurd hsign hpower
    · exact absurd hsign hpercent

theorem takes_withTail (hfactor : TakesFactors levels factor) {u : List Char}
    (hu : frame.TakenByPrimary (levels + 1) u text) (value : Decimal) :
    frame.Takes text (withTail factor value) fun _ v rest =>
      frame.Prints (levels + 1) .factor (u ++ v) ∧
        significant rest ≠ some '^' ∧ significant rest ≠ some '%' := by
  refine (takes_raised hfactor value).bind fun power v mid hsplit hv => ?_
  refine (takes_shared hfactor power).mono fun _ w rest hsplit' hw => ?_
  obtain ⟨rfl, hpower⟩ | ⟨hpower, htail⟩ := hv
  · obtain rfl : text = mid := hsplit
    obtain ⟨rfl, hpercent⟩ | ⟨hpercent, htail⟩ := hw
    · obtain rfl : text = rest := hsplit'
      exact ⟨by simpa using hu.prints, hpower, hpercent⟩
    · have hsign : significant text = some '%' := hsplit' ▸ significant_append hpercent rest
      exact ⟨hu.tail (.inr hsign) htail, htail.stops⟩
  · obtain ⟨rfl, -⟩ | ⟨hpercent, -⟩ := hw
    · obtain rfl : mid = rest := hsplit'
      have hsign : significant text = some '^' := hsplit ▸ significant_append hpower mid
      exact ⟨by simpa using hu.tail (.inl hsign) htail, htail.stops⟩
    · exact absurd (hsplit' ▸ significant_append hpercent rest) htail.stops.2

theorem takes_factorWithin (hfactor : TakesFactors levels factor)
    (hstatement : TakesStatements levels statement) :
    TakesFactors (levels + 1) (factorWithin (levels + 1) factor statement) := by
  intro frame text
  have hsigned (negative : Bool) {o u : List Char}
      (ho : Spaced [if negative then '-' else '+'] o) (hu : frame.Prints levels .factor u) :
      frame.Prints (levels + 1) .factor (o ++ u) := by
    obtain ⟨t, ht, hdepth⟩ := hu
    refine ⟨.sign negative t, .sign negative ho ht, ?_⟩
    simp only [Category.depth, Tree.depth] at hdepth ⊢
    omega
  refine takes_nested fun hlevels => takes_choice (fun o mid ho => ?_) fun _ =>
    takes_choice (fun o mid ho => ?_) fun _ => ?_
  · exact (hfactor frame mid).mono fun _ u _ _ hu => ⟨hsigned false ho hu.1, hu.2⟩
  · refine (hfactor frame mid).bind fun _ u _ _ hu => takes_pure ?_
    rw [List.append_nil]
    exact ⟨hsigned true ho hu.1, hu.2⟩
  · refine (takes_primary hfactor hstatement hlevels).bind fun value u mid _ hu => ?_
    exact takes_withTail hfactor hu value

end

end Reckoner.Syntax
