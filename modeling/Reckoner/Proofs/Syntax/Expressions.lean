import Reckoner.Proofs.Syntax.Printing
import Reckoner.Proofs.Syntax.Reads

/-!
# Printed expressions are read

The readers of expressions take a printed tree off a text and come to its value, if what follows
the tree cannot belong to it. The readers of the factors and statements inside are given.
-/

namespace Reckoner.Syntax

open Grammar Reading

/-! ## What follows a phrase -/

/-- The characters that may follow a phrase of a category. -/
def Category.followers : Category → List Char
  | .statement => [')', ',']
  | .conditions | .condition | .clause => ['&', '|', ')', ',']
  | .arguments => [')']
  | .expression => ['>', '<', '=', '!', '&', '|', ')', ',']
  | .term => ['+', '-', '>', '<', '=', '!', '&', '|', ')', ',']
  | .factor => ['*', '/', '+', '-', '>', '<', '=', '!', '&', '|', ')', ',']
  | .primary => ['^', '%', '*', '/', '+', '-', '>', '<', '=', '!', '&', '|', ')', ',']

/-- Nothing but spaces follows, or a character that may follow the phrase. -/
def Followed (category : Category) (rest : List Char) : Prop :=
  ∀ c, significant rest = some c → c ∈ category.followers

/-- Neither a letter, a digit nor a point follows at once. -/
def Delimited (rest : List Char) : Prop :=
  ∀ c, rest.head? = some c → c.isAlpha = false ∧ beginsNumber c = false

theorem Followed.mono {category category' : Category} {rest : List Char}
    (h : Followed category rest)
    (hsubset : ∀ c ∈ category.followers, c ∈ category'.followers := by decide) :
    Followed category' rest :=
  fun c hc => hsubset c (h c hc)

theorem Followed.ne {category : Category} {rest : List Char} (h : Followed category rest)
    {c : Char} (hc : c ∉ category.followers) : significant rest ≠ some c :=
  fun hsignificant => hc (h c hsignificant)

theorem followed_spaced {category : Category} {c : Char} {signs text rest : List Char}
    (h : Spaced (c :: signs) text) (hc : c ∈ category.followers) (hspace : c ≠ ' ') :
    Followed category (text ++ rest) := by
  intro d hd
  rw [h.significant_append hspace, Option.some.injEq] at hd
  exact hd ▸ hc

theorem Followed.delimited {category : Category} {rest : List Char}
    (h : Followed category rest) : Delimited rest := by
  have hall : ∀ c ∈ ' ' :: category.followers, c.isAlpha = false ∧ beginsNumber c = false := by
    cases category <;> decide
  intro c hc
  refine hall c ?_
  cases rest with
  | nil => simp at hc
  | cons d rest =>
    obtain rfl : d = c := by simpa using hc
    by_cases hd : d = ' '
    · simp [hd]
    · exact List.mem_cons_of_mem _ (h d (significant_cons hd rest))

theorem delimited_spaced {c : Char} {signs text rest : List Char} (h : Spaced (c :: signs) text)
    (hc : c.isAlpha = false ∧ beginsNumber c = false) : Delimited (text ++ rest) := by
  intro d hd
  cases h with
  | cons n _ h =>
    cases n with
    | zero =>
      obtain rfl : c = d := by simpa using hd
      exact hc
    | succ n =>
      obtain rfl : ' ' = d := by simpa [List.replicate_succ] using hd
      decide

variable {frame : Frame} {inParentheses : Bool} {rest : List Char}

/-! ## Numbers and names -/

theorem reads_span {p : Char → Bool} {text rest : List Char} (htext : ∀ c ∈ text, p c)
    (hrest : ∀ c, rest.head? = some c → p c = false) :
    frame.Reads inParentheses (takeWhile p) (text ++ rest) rest (.ok text) := by
  have hspan : rest.takeWhile p = [] ∧ rest.dropWhile p = rest := by
    cases rest with
    | nil => simp
    | cons c rest => simp [hrest c rfl]
  have h : frame.Reads inParentheses (takeWhile p) _ _ _ := reads_takeWhile p (text ++ rest)
  rwa [List.takeWhile_append_of_pos htext, List.dropWhile_append_of_pos htext, hspan.1, hspan.2,
    List.append_nil] at h

theorem reads_fraction {fraction : List Char}
    (hfraction : fraction = [] ∨
      ∃ digits, (∀ c ∈ digits, c.isDigit) ∧ fraction = '.' :: digits)
    (hrest : Delimited rest) :
    frame.Reads inParentheses Grammar.fraction (fraction ++ rest) rest (.ok fraction) := by
  refine reads_cursor fun behind => ?_
  rw [Cursor.current_facing]
  obtain rfl | ⟨digits, hdigits, rfl⟩ := hfraction
  · have hpoint : Spot.ofOption rest.head? ≠ .at '.' := by
      cases hhead : rest.head? with
      | none => simp [Spot.ofOption]
      | some c =>
        have := (hrest c hhead).2
        rintro hc
        simp only [Spot.ofOption, Spot.at.injEq] at hc
        subst hc
        simp [beginsNumber] at this
    rw [List.nil_append, if_neg hpoint]
    exact reads_pure [] rest
  · rw [show Spot.ofOption ('.' :: digits ++ rest).head? = .at '.' from rfl, if_pos rfl]
    have hpoint : frame.Reads inParentheses (accept '.') ('.' :: (digits ++ rest)) _ _ :=
      reads_accept (.cons 0 '.' .nil) (by decide)
    refine hpoint.then ?_
    refine (reads_span hdigits fun c hc => ?_).then (reads_pure _ _)
    exact (Bool.or_eq_false_iff.1 (hrest c hc).2).1

section

variable {factor : Reading Decimal} {statement : Reading Bool} {result : Result Decimal}

/-- A primary that is not in parentheses is told by the character it begins with. -/
theorem reads_operand {n : Nat} {c : Char} {tail : List Char} {reading : Reading Decimal}
    (hbegins : c ≠ ' ' ∧ c ≠ '(')
    (hoperand : ∀ behind, operand factor statement (.facing behind (c :: tail)) = reading)
    (h : frame.Reads inParentheses reading (c :: tail) rest result) :
    frame.Reads inParentheses (primary factor statement)
      (List.replicate n ' ' ++ c :: tail) rest result := by
  have hsignificant : significant (List.replicate n ' ' ++ c :: tail) = some c := by
    rw [significant_spaces, significant_cons hbegins.1]
  refine reads_refused (by simp [hsignificant, hbegins.2]) ?_
  have hpass : frame.Reads inParentheses passSpaces (List.replicate n ' ' ++ c :: tail)
      (c :: tail) (.ok ()) := by
    have hspaces : frame.Reads inParentheses passSpaces _ _ _ :=
      reads_passSpaces (List.replicate n ' ' ++ c :: tail)
    rwa [dropWhile_spaces, List.dropWhile_cons_of_neg (by simp [hbegins.1])] at hspaces
  refine hpass.then (reads_cursor fun behind => ?_)
  rw [hoperand behind]
  exact h

theorem reads_number {value : Decimal} {literal : List Char} (hliteral : Literal value literal)
    (hrest : Delimited rest) :
    frame.Reads inParentheses (primary factor statement) (literal ++ rest) rest (.ok value) := by
  obtain ⟨n, whole, fraction, hwhole, hfraction, hvalue, rfl⟩ := hliteral
  have hdigits : ∀ d, (fraction ++ rest).head? = some d → d.isDigit = false := by
    obtain rfl | ⟨digits, -, rfl⟩ := hfraction
    · exact fun d hd => (Bool.or_eq_false_iff.1 (hrest d hd).2).1
    · rintro d hd
      obtain rfl : '.' = d := by simpa using hd
      rfl
  have hnumber : frame.Reads inParentheses number (whole ++ fraction ++ rest) rest
      (.ok value) := by
    rw [List.append_assoc]
    refine reads_cursor fun behind => (reads_span hwhole hdigits).then ?_
    refine (reads_fraction hfraction hrest).then ?_
    simp only [hvalue]
    exact reads_pure value rest
  obtain ⟨c, text, hcons, hbegins⟩ := begins_of_ofChars? hwhole hfraction hvalue
  rw [List.append_assoc, hcons, List.cons_append]
  rw [hcons] at hnumber
  refine reads_operand ⟨?_, ?_⟩ (fun behind => ?_) hnumber
  · rintro rfl; exact absurd hbegins (by decide)
  · rintro rfl; exact absurd hbegins (by decide)
  · unfold operand
    rw [Cursor.current_facing]
    simp [Spot.ofOption, hbegins]

theorem reads_call {function : Builtin} {name mid : List Char} (hname : Named function name)
    (hmid : ∀ c, mid.head? = some c → c.isAlpha = false)
    (h : ∀ word start, frame.Reads inParentheses
      (application factor statement word start function) mid rest result) :
    frame.Reads inParentheses (primary factor statement) (name ++ mid) rest result := by
  obtain ⟨n, word, hword, rfl⟩ := hname
  obtain ⟨hne, hletters⟩ := letters_of_ofName? hword
  obtain ⟨c, letters, hcons⟩ := List.exists_cons_of_ne_nil hne
  have hc : c.isAlpha := hletters c (by simp [hcons])
  have hcall : frame.Reads inParentheses (call factor statement) (word.toList ++ mid) rest
      result := by
    refine reads_cursor fun behind => Frame.Reads.then (reads_span hletters hmid) ?_
    simp only [String.ofList_toList, hword]
    exact h word _
  rw [List.append_assoc, hcons, List.cons_append]
  rw [hcons] at hcall
  refine reads_operand ⟨?_, ?_⟩ (fun behind => ?_) hcall
  · rintro rfl; exact absurd hc (by decide)
  · rintro rfl; exact absurd hc (by decide)
  · unfold operand
    rw [Cursor.current_facing]
    simp [Spot.ofOption, not_beginsNumber_of_isAlpha hc, hc]

end

/-! ## Sums and products -/

/-- The value of a tree as a frame asks for it. -/
abbrev Frame.value (frame : Frame) (tree : Tree) : Result Decimal :=
  tree.value frame.settings.context frame.skipping

/-- The reader of a factor takes every printed factor that is not nested too deep. -/
def ReadsFactors (levels : Nat) (factor : Reading Decimal) : Prop :=
  ∀ (frame : Frame) (t : Tree) (u rest : List Char), Prints .factor t u →
    frame.lost + t.depth ≤ levels → Followed .factor rest →
      frame.Reads false factor (u ++ rest) rest (frame.value t)

theorem reads_chainStep {operand : Reading Decimal} {operators : List (Char × Operator)}
    {sign : Char} {operator : Operator} {o v : List Char} {right : Result Decimal}
    (hoperator : operators.lookup sign = some operator) (ho : Spaced [sign] o) (hsign : sign ≠ ' ')
    (hright : frame.Reads inParentheses operand v rest right) (left : Decimal) :
    frame.Reads inParentheses (chainStep operand operators left) (o ++ v) rest
      (some <$> (do
        let y ← right
        perform frame.settings.context frame.skipping fun ctx => operator.apply ctx left y)) := by
  induction operators with
  | nil => simp at hoperator
  | cons entry operators ih =>
    obtain ⟨sign', operator'⟩ := entry
    by_cases heq : sign = sign'
    · subst heq
      obtain rfl : operator' = operator := by simpa using hoperator
      refine reads_taken ho hsign ?_
      rw [map_bind]
      refine hright.bind fun y _ => ?_
      rw [map_eq_pure_bind]
      exact (reads_calculate _ _).bind fun x _ => reads_pure _ _
    · have hne : (sign == sign') = false := by simpa using heq
      rw [List.lookup_cons, hne] at hoperator
      refine reads_refused ?_ (ih hoperator)
      rw [ho.significant_append hsign]
      simpa using heq

theorem reads_no_chainStep {operand : Reading Decimal} {operators : List (Char × Operator)}
    (h : ∀ entry ∈ operators, significant rest ≠ some entry.1) (left : Decimal) :
    frame.Reads inParentheses (chainStep operand operators left) rest rest (.ok none) :=
  fun behind => ⟨behind, chainStep_refuses fun entry hentry hahead =>
    h entry hentry (Cursor.ahead_facing_eq.1 hahead)⟩

variable {levels : Nat} {factor : Reading Decimal}

theorem length_after_sign {sign : Char} {signs o : List Char} (h : Spaced (sign :: signs) o)
    (v rest : List Char) : rest.length < (o ++ (v ++ rest)).length := by
  cases h with
  | cons n _ h => simp only [List.length_append, List.length_cons, List.length_replicate]; omega

theorem repeats_operation {operand : Reading Decimal} {operators : List (Char × Operator)}
    {sign : Char} {operator : Operator} {l r : Tree} {o v : List Char} {outcome : Outcome Decimal}
    (hoperator : operators.lookup sign = some operator) (ho : Spaced [sign] o) (hsign : sign ≠ ' ')
    (hleft : frame.Repeats false (chainStep operand operators) (o ++ (v ++ rest)) (frame.value l)
      outcome)
    (hright : frame.Reads false operand (v ++ rest) rest (frame.value r)) :
    frame.Repeats false (chainStep operand operators) rest
      (frame.value (.operation operator l r)) outcome := by
  have hnext := hleft.next (reads_chainStep hoperator ho hsign hright)
    (length_after_sign ho v rest)
  simpa only [Frame.value, Tree.value] using hnext

/-- A printed chain is read as its operands are. The induction is on the chain: what is left of its
last operator is a shorter one. -/
theorem repeats_chained {operators : List (Char × Operator)} {operand : Reading Decimal}
    {printed : Tree → List Char → Prop} {category : Category}
    (hoperators : ∀ entry ∈ operators, entry ∈ sums ++ products ∧
      entry.1 ∈ category.followers ∧ entry.1 ≠ ' ' ∧ operators.lookup entry.1 = some entry.2)
    (hoperand : ∀ (t : Tree) (u rest : List Char), printed t u → frame.lost + t.depth ≤ levels →
      Followed category rest → frame.Reads false operand (u ++ rest) rest (frame.value t))
    {t : Tree} {u rest : List Char} (h : Chained operators printed t u)
    (hdepth : frame.lost + t.depth ≤ levels) (hrest : Followed category rest) (behind : List Char) :
    frame.Repeats false (chainStep operand operators) rest (frame.value t)
      (chain operators operand frame.settings (frame.facing behind (u ++ rest))) := by
  induction h generalizing rest with
  | first h =>
    have hstart : frame.Repeats false (chainStep operand operators) _ _ _ :=
      repeats_start (hoperand _ _ rest h hdepth hrest behind) id
    rwa [id_map] at hstart
  | @next sign operator l r u o v hop hl ho hr ih =>
    obtain ⟨hoperator, hfollows, hspace, hlookup⟩ := hoperators _ hop
    rw [Tree.depth_operation hoperator] at hdepth
    have hfollowed : Followed category (o ++ (v ++ rest)) := followed_spaced ho hfollows hspace
    have hleft := ih (by omega) hfollowed
    simp only [List.append_assoc]
    exact repeats_operation hlookup ho hspace hleft (hoperand r v rest hr (by omega) hrest)

theorem shows_chain {operand : Reading Decimal} {operators : List (Char × Operator)}
    {state : State} {result : Result Decimal}
    (h : frame.Shows false rest result (operand frame.settings state))
    (hrest : ∀ entry ∈ operators, significant rest ≠ some entry.1) :
    frame.Shows false rest result (chain operators operand frame.settings state) := by
  have hstart : frame.Repeats false (chainStep operand operators) rest (id <$> result) _ :=
    repeats_start h id
  rw [id_map] at hstart
  exact hstart.stop (reads_no_chainStep hrest) id

theorem not_products (hrest : Followed .term rest) :
    ∀ entry ∈ products, significant rest ≠ some entry.1 :=
  fun entry hentry => hrest.ne ((by decide : ∀ entry ∈ products, entry.1 ∉ _) entry hentry)

theorem not_sums (hrest : Followed .expression rest) :
    ∀ entry ∈ sums, significant rest ≠ some entry.1 :=
  fun entry hentry => hrest.ne ((by decide : ∀ entry ∈ sums, entry.1 ∉ _) entry hentry)

theorem reads_term (hfactor : ReadsFactors levels factor) {t : Tree} {u rest : List Char}
    (h : Prints .term t u) (hdepth : frame.lost + t.depth ≤ levels) (hrest : Followed .term rest) :
    frame.Reads false (term factor) (u ++ rest) rest (frame.value t) := by
  intro behind
  exact (repeats_chained (by decide) (hfactor frame) h.chainedTerm hdepth hrest.mono behind).stop
    (reads_no_chainStep (not_products hrest)) id

theorem reads_expression (hfactor : ReadsFactors levels factor) {t : Tree} {u rest : List Char}
    (h : Prints .expression t u) (hdepth : frame.lost + t.depth ≤ levels)
    (hrest : Followed .expression rest) :
    frame.Reads false (expression factor) (u ++ rest) rest (frame.value t) := by
  intro behind
  exact (repeats_chained (by decide) (fun _ _ _ => reads_term hfactor) h.chainedExpression hdepth
    hrest.mono behind).stop (reads_no_chainStep (not_sums hrest)) id

/-! ## Function calls -/

abbrev Frame.values (frame : Frame) (arguments : Arguments) : Result (List Decimal) :=
  arguments.values frame.settings.context frame.skipping

abbrev Frame.holds (frame : Frame) (inParentheses : Bool) (statement : Statement) : Result Bool :=
  statement.holds frame.settings.context frame.skipping inParentheses

/-- The reader of a statement takes every printed statement before `stop`. -/
def ReadsStatements (levels : Nat) (stop : Char) (inParentheses : Bool)
    (statement : Reading Bool) : Prop :=
  ∀ (frame : Frame) (s : Statement) (u rest : List Char), Prints .statement s u →
    frame.lost + s.depth ≤ levels → significant rest = some stop →
      frame.Reads inParentheses statement (u ++ rest) rest (frame.holds inParentheses s)

theorem reads_enclosed {α : Type} {phrase : Reading α} {result : Result α} {u b : List Char}
    (hphrase : frame.Reads inParentheses phrase u (b ++ rest) result) (hb : Spaced [')'] b) :
    frame.Reads inParentheses (enclosed phrase) u rest result :=
  hphrase.keep fun value => (reads_expect hb (by decide)).then (reads_pure value rest)

theorem reads_argumentStep (hfactor : ReadsFactors levels factor) {t : Tree} {c u : List Char}
    (hc : Spaced [','] c) (h : Prints .expression t u) (hdepth : frame.lost + t.depth ≤ levels)
    (hrest : Followed .expression rest) (values : List Decimal) :
    frame.Reads false (argumentStep factor values) (c ++ (u ++ rest)) rest
      (some <$> (do return (← frame.value t) :: values)) := by
  refine reads_taken hc (by decide) ?_
  rw [map_bind]
  exact (reads_expression hfactor h hdepth hrest).bind fun value _ => reads_pure _ rest

theorem repeats_arguments (hfactor : ReadsFactors levels factor) {ts : Arguments}
    {u rest : List Char} (h : Prints .arguments ts u) (hdepth : frame.lost + ts.depth ≤ levels)
    (hrest : Followed .expression rest) (behind : List Char) :
    frame.Repeats false (argumentStep factor) rest (List.reverse <$> frame.values ts)
      (arguments factor frame.settings (frame.facing behind (u ++ rest))) := by
  -- the recursion follows the printed list; the values are collected in reverse
  match h with
  | @Prints.one t u h =>
    have hstart : frame.Repeats false (argumentStep factor) _ _ _ :=
      repeats_start (reads_expression hfactor h hdepth hrest behind) fun value => [value]
    have hvalue : (fun value => [value]) <$> frame.value t =
        List.reverse <$> frame.values (.one t) := by
      simp only [Frame.values, Arguments.values, Frame.value]
      cases t.value frame.settings.context frame.skipping <;> rfl
    rwa [hvalue] at hstart
  | @Prints.more ts t u c v hts hc ht =>
    simp only [Arguments.depth] at hdepth
    have hfollowed : Followed .expression (c ++ (v ++ rest)) :=
      followed_spaced hc (by decide) (by decide)
    have hfirst := repeats_arguments hfactor hts (by omega) hfollowed behind
    have hnext := hfirst.next
      (reads_argumentStep hfactor hc ht (by omega : frame.lost + t.depth ≤ levels) hrest)
      (length_after_sign hc v rest)
    have hvalues : (List.reverse <$> frame.values ts >>= fun values => do
        return (← frame.value t) :: values) = List.reverse <$> frame.values (.more ts t) := by
      simp only [Frame.values, Arguments.values, Frame.value]
      cases ts.values frame.settings.context frame.skipping with
      | error failure => rfl
      | ok values =>
        cases t.value frame.settings.context frame.skipping with
        | error failure => rfl
        | ok value => simp [Functor.map, Except.map, bind, Except.bind, pure, Except.pure]
    rw [hvalues] at hnext
    simpa only [List.append_assoc] using hnext

theorem reads_arguments (hfactor : ReadsFactors levels factor) {ts : Arguments}
    {u rest : List Char} (h : Prints .arguments ts u) (hdepth : frame.lost + ts.depth ≤ levels)
    (hrest : significant rest = some ')') :
    frame.Reads false (arguments factor) (u ++ rest) rest (List.reverse <$> frame.values ts) := by
  intro behind
  have hfollowed : Followed .expression rest := by
    intro c hc
    obtain rfl : ')' = c := by simpa [hrest] using hc
    decide
  refine (repeats_arguments hfactor h hdepth hfollowed behind).stop (fun values => ?_) id
  exact reads_refused (by simp [hrest]) (reads_pure none rest)

theorem reads_emptyArguments {p : List Char} (hp : p = [] ∨ Spaced ['(', ')'] p)
    (hrest : Followed .primary rest) :
    frame.Reads inParentheses emptyArguments (p ++ rest) rest (.ok ()) := by
  obtain rfl | hp := hp
  · exact reads_refused (hrest.ne (by decide)) (reads_pure () rest)
  · obtain ⟨a, b, ha, hb, rfl⟩ := hp.uncons
    rw [List.append_assoc]
    exact reads_taken ha (by decide) (reads_expect hb (by decide))

section

variable {statement : Reading Bool} {start : Cursor} {name : String} {a b c d u v w rest : List Char}

theorem reads_openParenthesis (ha : Spaced ['('] a) :
    frame.Reads inParentheses (openParenthesis name start) (a ++ rest) rest (.ok ()) :=
  (reads_accept ha (by decide)).then (reads_pure () rest)

theorem reads_comma (hc : Spaced [','] c) :
    frame.Reads inParentheses (comma name) (c ++ rest) rest (.ok ()) :=
  reads_expect hc (by decide)

theorem reads_close (hb : Spaced [')'] b) :
    frame.Reads inParentheses closeParenthesis (b ++ rest) rest (.ok ()) :=
  reads_expect hb (by decide)

theorem followed_close (hb : Spaced [')'] b) : Followed .expression (b ++ rest) :=
  followed_spaced hb (by decide) (by decide)

theorem followed_comma (hc : Spaced [','] c) : Followed .expression (c ++ rest) :=
  followed_spaced hc (by decide) (by decide)

theorem reads_binary (hfactor : ReadsFactors levels factor) {f : Builtin.Binary} {l r : Tree}
    (ha : Spaced ['('] a) (hl : Prints .expression l v) (hc : Spaced [','] c)
    (hr : Prints .expression r w) (hb : Spaced [')'] b)
    (hdepth : frame.lost + max l.depth r.depth ≤ levels) :
    frame.Reads false (application factor statement name start (.binary f))
      (a ++ (v ++ (c ++ (w ++ (b ++ rest))))) rest (frame.value (.binary f l r)) := by
  simp only [Frame.value, Tree.value]
  refine (reads_openParenthesis ha).then ?_
  refine (reads_expression hfactor hl (by omega) (followed_comma hc)).bind fun x _ => ?_
  refine (reads_comma hc).then ?_
  refine (reads_expression hfactor hr (by omega) (followed_close hb)).bind fun y _ => ?_
  exact (reads_close hb).then (reads_calculate _ rest)

theorem reads_variadic (hfactor : ReadsFactors levels factor) {kind : Aggregate}
    {ts : Arguments} (ha : Spaced ['('] a) (hts : Prints .arguments ts v) (hb : Spaced [')'] b)
    (hdepth : frame.lost + ts.depth ≤ levels) :
    frame.Reads false (application factor statement name start (.variadic kind))
      (a ++ (v ++ (b ++ rest))) rest (frame.value (.variadic kind ts)) := by
  have hclose : significant (b ++ rest) = some ')' := hb.significant_append (by decide)
  have hvalue : frame.value (.variadic kind ts) = (List.reverse <$> frame.values ts >>= fun values =>
      perform frame.settings.context frame.skipping fun ctx => kind.fold ctx values.reverse) := by
    rw [bind_map_left]
    simp only [List.reverse_reverse, Frame.value, Tree.value]
  rw [hvalue]
  refine (reads_openParenthesis ha).then ?_
  refine (reads_arguments hfactor hts hdepth hclose).bind fun values _ => ?_
  exact (reads_close hb).then (reads_calculate _ rest)

theorem reads_conditional (hfactor : ReadsFactors levels factor)
    (hstatement : ReadsStatements levels ',' false statement) {negated : Bool} {s : Statement}
    {l r : Tree} {x : List Char} (ha : Spaced ['('] a) (hs : Prints .statement s v)
    (hc : Spaced [','] c) (hl : Prints .expression l w) (hd : Spaced [','] d)
    (hr : Prints .expression r x) (hb : Spaced [')'] b)
    (hdepth : frame.lost + max s.depth (max l.depth r.depth) ≤ levels) :
    frame.Reads false (application factor statement name start (.conditional negated))
      (a ++ (v ++ (c ++ (w ++ (d ++ (x ++ (b ++ rest))))))) rest
      (frame.value (.conditional negated s l r)) := by
  have hcomma {rest : List Char} : significant (c ++ rest) = some ',' :=
    hc.significant_append (by decide)
  simp only [Frame.value, Tree.value]
  refine (reads_openParenthesis ha).then ?_
  refine (hstatement frame s v _ hs (by omega) hcomma).bind fun holds _ => ?_
  refine (reads_comma hc).then ?_
  -- The branches are read in frames of their own, which skip unless the branch is taken.
  have hfirst (taken : Bool) : frame.Reads false (branch taken (expression factor))
      (w ++ (d ++ (x ++ (b ++ rest)))) (d ++ (x ++ (b ++ rest)))
      (l.value frame.settings.context (frame.skipping || !taken)) :=
    reads_branch (reads_expression hfactor hl (by simp only; omega) (followed_comma hd))
  have hsecond (taken : Bool) : frame.Reads false (branch (!taken) (expression factor))
      (x ++ (b ++ rest)) (b ++ rest) (r.value frame.settings.context (frame.skipping || taken)) := by
    have h : frame.Reads false (branch (!taken) (expression factor)) (x ++ (b ++ rest))
        (b ++ rest) (r.value frame.settings.context (frame.skipping || !!taken)) :=
      reads_branch (reads_expression hfactor hr (by simp only; omega) (followed_close hb))
    rwa [Bool.not_not] at h
  refine (hfirst _).bind fun first _ => ?_
  refine (reads_comma hd).then ?_
  refine (hsecond _).bind fun second _ => ?_
  exact (reads_close hb).then (reads_pure _ rest)

end

/-! ## Factors -/

theorem followed_of_significant {category : Category} {c : Char}
    (h : significant rest = some c) (hc : c ∈ category.followers) : Followed category rest := by
  intro d hd
  rw [h, Option.some.injEq] at hd
  exact hd ▸ hc

theorem noLetter_emptyArguments {p : List Char} (hp : p = [] ∨ Spaced ['(', ')'] p)
    (hrest : Delimited rest) (c : Char) (hc : (p ++ rest).head? = some c) : c.isAlpha = false := by
  obtain rfl | hp := hp
  · exact (hrest c hc).1
  · exact (delimited_spaced hp (by decide) c hc).1

theorem reads_juxtaposed (hfactor : ReadsFactors levels factor) {t : Tree} {v rest : List Char}
    (h : Prints .factor t v) (hv : Juxtaposed v) (hdepth : frame.lost + t.depth ≤ levels)
    (hrest : Followed .factor rest) :
    frame.Reads false (argument factor) (v ++ rest) rest (frame.value t) := by
  obtain ⟨c, hc, -⟩ := h.begins
  refine reads_refused ?_ (hfactor frame t v rest h hdepth hrest)
  rw [significant_append hc, ← hc]
  exact hv.1

theorem reads_primary {statement : Reading Bool} (hfactor : ReadsFactors levels factor)
    (hstatement : ReadsStatements levels ',' false statement) {t : Tree} {u rest : List Char}
    (h : Prints .primary t u) (hdepth : frame.lost + t.depth ≤ levels + 1)
    (hrest : Followed .primary rest) :
    frame.Reads false (primary factor statement) (u ++ rest) rest (frame.value t) := by
  cases h with
  | @bracket x a u b ha h hb =>
    simp only [Tree.depth] at hdepth
    simp only [List.append_assoc, Frame.value, Tree.value]
    refine reads_taken ha (by decide) (reads_enclosed ?_ hb)
    exact reads_expression hfactor h (by omega) (followed_close hb)
  | number hliteral => exact reads_number hliteral hrest.delimited
  | @constant f u p hname hp =>
    rw [List.append_assoc]
    exact reads_call hname (noLetter_emptyArguments hp hrest.delimited) fun word start =>
      (reads_emptyArguments hp hrest).then (reads_calculate _ rest)
  | @unary f x u a v b hname ha h hb =>
    simp only [Tree.depth] at hdepth
    simp only [List.append_assoc, Frame.value, Tree.value]
    refine reads_call hname (fun c hc => (delimited_spaced ha (by decide) c hc).1) fun word start => ?_
    have hargument : frame.Reads false (argument factor) (a ++ (v ++ (b ++ rest))) rest
        (frame.value x) :=
      reads_taken ha (by decide) (reads_enclosed
        (reads_expression hfactor h (by omega) (followed_close hb)) hb)
    exact hargument.bind fun x _ => reads_calculate _ rest
  | @binary f l r u a v c w b hname ha hl hc hr hb =>
    simp only [Tree.depth] at hdepth
    simp only [List.append_assoc]
    exact reads_call hname (fun c hc => (delimited_spaced ha (by decide) c hc).1) fun word start =>
      reads_binary hfactor ha hl hc hr hb (by omega)
  | @variadic kind ts u a v b hname ha hts hb =>
    simp only [Tree.depth] at hdepth
    simp only [List.append_assoc]
    exact reads_call hname (fun c hc => (delimited_spaced ha (by decide) c hc).1) fun word start =>
      reads_variadic hfactor ha hts hb (by omega)
  | @conditional negated s l r u a v c w d x b hname ha hs hc hl hd hr hb =>
    simp only [Tree.depth] at hdepth
    simp only [List.append_assoc]
    exact reads_call hname (fun c hc => (delimited_spaced ha (by decide) c hc).1) fun word start =>
      reads_conditional hfactor hstatement ha hs hc hl hd hr hb (by omega)

theorem reads_no_raised (hrest : significant rest ≠ some '^') (value : Decimal) :
    frame.Reads inParentheses (raised factor value) rest rest (.ok value) :=
  reads_refused hrest (reads_pure value rest)

theorem reads_no_shared (hrest : significant rest ≠ some '%') (value : Decimal) :
    frame.Reads inParentheses (shared factor value) rest rest (.ok value) :=
  reads_refused hrest (reads_pure value rest)

theorem not_begins_percent {t : Tree} {v : List Char} (h : Prints .factor t v) (rest : List Char) :
    significant (v ++ rest) ≠ some '%' := by
  obtain ⟨c, hc, hbegins⟩ := h.begins
  rw [significant_append hc]
  rintro hpercent
  obtain rfl : c = '%' := by simpa using hpercent
  exact absurd hbegins (by decide)

theorem reads_no_tail (hrest : Followed .factor rest) (value : Decimal) :
    frame.Reads false (withTail factor value) rest rest (.ok value) :=
  (reads_no_raised (hrest.ne (by decide)) value).then
    (reads_no_shared (hrest.ne (by decide)) value)

theorem reads_tail (hfactor : ReadsFactors levels factor) {signs : List Char}
    {operator : Operator} {r : Tree} {o v rest : List Char} (hop : (signs, operator) ∈ tails)
    (ho : Spaced signs o) (hr : Prints .factor r v) (hdepth : frame.lost + r.depth ≤ levels)
    (hrest : Followed .factor rest) (value : Decimal) :
    frame.Reads false (withTail factor value) (o ++ (v ++ rest)) rest (do
      let y ← frame.value r
      perform frame.settings.context frame.skipping fun ctx => operator.apply ctx value y) := by
  have hright := hfactor frame r v rest hr hdepth hrest
  have hcomputed (operator : Operator) := hright.bind fun y _ =>
    reads_calculate (fun ctx => operator.apply ctx value y) rest
  simp only [tails, List.mem_cons, Prod.mk.injEq, List.not_mem_nil, or_false] at hop
  -- a remainder and a percentage begin with the same sign, and a second one decides
  obtain ⟨rfl, rfl⟩ | ⟨rfl, rfl⟩ | ⟨rfl, rfl⟩ := hop
  · have hraised : frame.Reads false (raised factor value) _ _ _ :=
      reads_taken ho (by decide) (hcomputed .power)
    exact hraised.keep fun x => reads_no_shared (hrest.ne (by decide)) x
  · have hsignificant : significant (o ++ (v ++ rest)) = some '%' :=
      ho.significant_append (by decide)
    refine (reads_no_raised (by simp [hsignificant]) value).then ?_
    obtain ⟨first, second, hfirst, hsecond, rfl⟩ := ho.uncons
    rw [List.append_assoc]
    exact reads_taken hfirst (by decide)
      (reads_taken hsecond (by decide) (hcomputed .remainder))
  · have hsignificant : significant (o ++ (v ++ rest)) = some '%' :=
      ho.significant_append (by decide)
    refine (reads_no_raised (by simp [hsignificant]) value).then ?_
    exact reads_taken ho (by decide)
      (reads_refused (not_begins_percent hr rest) (hcomputed .percentage))

theorem followed_tail {signs : List Char} {operator : Operator} {o : List Char}
    (hop : (signs, operator) ∈ tails) (ho : Spaced signs o) : Followed .primary (o ++ rest) := by
  obtain ⟨c, signs, rfl, rfl | rfl⟩ := cons_of_mem_tails hop <;>
    exact followed_spaced ho (by decide) (by decide)

/-- A factor that has no sign is a primary with what follows it. -/
theorem factorWithin_unsigned {statement : Reading Bool} {c : Char} {text : List Char}
    (hbegins : significant text = some c) (hc : c ≠ '+' ∧ c ≠ '-') (hlevels : frame.lost < levels)
    (behind : List Char) :
    factorWithin levels factor statement frame.settings (frame.facing behind text) =
      (primary factor statement >>= withTail factor) frame.settings
        (frame.facing behind text) := by
  have hrefuses (d : Char) (hd : c ≠ d) : accept d frame.settings (frame.facing behind text) =
      .done false (frame.facing behind text) :=
    accept_refuses fun hahead => hd (by
      simpa [hbegins] using Cursor.ahead_facing_eq.1 hahead)
  unfold factorWithin nested
  rw [if_pos (show (frame.facing behind text).lost < levels from hlevels),
    bind_of_done (hrefuses '+' hc.1)]
  change (accept '-' >>= _) _ _ = _
  rw [bind_of_done (hrefuses '-' hc.2)]
  rfl

theorem reads_unsigned {statement : Reading Bool} {c : Char} {result : Result Decimal}
    {text : List Char} (hbegins : significant text = some c) (hc : c ≠ '+' ∧ c ≠ '-')
    (h : frame.Reads false (primary factor statement >>= withTail factor) text rest result)
    (hlevels : frame.lost < levels) :
    frame.Reads false (factorWithin levels factor statement) text rest result := by
  intro behind
  rw [factorWithin_unsigned hbegins hc hlevels behind]
  exact h behind

theorem Named.begins_unsigned {function : Builtin} {name : List Char} (h : Named function name)
    (rest : List Char) : ∃ c, significant (name ++ rest) = some c ∧ c ≠ '+' ∧ c ≠ '-' := by
  obtain ⟨c, hc, halpha⟩ := h.begins
  refine ⟨c, significant_append hc rest, ?_, ?_⟩ <;> rintro rfl <;> exact absurd halpha (by decide)

theorem Prints.begins_unsigned {t : Tree} {u : List Char} (h : Prints .primary t u) :
    ∃ c, significant u = some c ∧ c ≠ '+' ∧ c ≠ '-' := by
  cases h with
  | bracket ha _ _ => exact ⟨'(', ha.significant_append (by decide), by decide⟩
  | number hliteral =>
    obtain ⟨c, hc, hbegins⟩ := hliteral.begins
    refine ⟨c, hc, ?_, ?_⟩ <;> rintro rfl <;> exact absurd hbegins (by decide)
  | constant hname | unary hname | binary hname | variadic hname | conditional hname =>
    exact hname.begins_unsigned _

theorem reads_factorWithin {statement : Reading Bool} (hfactor : ReadsFactors levels factor)
    (hstatement : ReadsStatements levels ',' false statement) :
    ReadsFactors (levels + 1) (factorWithin (levels + 1) factor statement) := by
  intro frame t u rest h hdepth hrest
  have hlevels : frame.lost < levels + 1 := by have := t.depth_pos; omega
  cases h with
  | @sign t o u negative ho h =>
    simp only [Tree.depth] at hdepth
    have hoperand := hfactor frame t u rest h (by omega) hrest
    simp only [List.append_assoc, Frame.value, Tree.value]
    refine reads_nested hlevels ?_
    cases negative with
    | false =>
      simp only [Bool.false_eq_true, ↓reduceIte, bind_pure]
      exact reads_taken ho (by decide) hoperand
    | true =>
      have hminus : significant (o ++ (u ++ rest)) = some '-' := ho.significant_append (by decide)
      refine reads_refused (by simp [hminus]) (reads_taken ho (by decide) ?_)
      exact hoperand.bind fun x _ => reads_pure _ rest
  | primary h =>
    obtain ⟨c, hc, hsign⟩ := h.begins_unsigned
    refine reads_unsigned (significant_append hc rest) hsign ?_ hlevels
    exact (reads_primary hfactor hstatement h hdepth hrest.mono).keep (reads_no_tail hrest)
  | @tail signs operator l r u o v hop hl ho hr =>
    rw [Tree.depth_tail hop] at hdepth
    obtain ⟨c, hc, hsign⟩ := hl.begins_unsigned
    simp only [List.append_assoc, Frame.value, Tree.value]
    refine reads_unsigned (significant_append hc _) hsign ?_ hlevels
    refine (reads_primary hfactor hstatement hl (by omega) (followed_tail hop ho)).bind fun x _ => ?_
    exact reads_tail hfactor hop ho hr (by omega) hrest x
  | @juxtaposed f t u v hname h hv =>
    simp only [Tree.depth] at hdepth
    simp only [List.append_assoc, Frame.value, Tree.value]
    obtain ⟨c, hc, hsign⟩ := hname.begins_unsigned (v ++ rest)
    refine reads_unsigned hc hsign (Frame.Reads.keep ?_ (reads_no_tail hrest)) hlevels
    obtain ⟨d, tail, rfl⟩ := List.exists_cons_of_ne_nil h.ne_nil
    refine reads_call hname (fun e he => ?_) fun word start =>
      (reads_juxtaposed hfactor h hv (by omega) hrest).bind fun x _ => reads_calculate _ rest
    obtain rfl : d = e := by simpa using he
    simpa using hv.2 d (by simp)

end Reckoner.Syntax
