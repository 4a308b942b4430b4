import Reckoner.Expression.Calculator

/-!
# Placeholders

Values bound to names or to places in a list are written into a text in place of `$name` and
`$(index)` before it is evaluated. An index is itself an expression.
-/

namespace Reckoner

structure Bindings where
  /-- Each name with its value; no name occurs twice. -/
  named : List (String × Decimal)
  positional : List Decimal

namespace Bindings

def empty : Bindings := ⟨[], []⟩

def isEmpty (bindings : Bindings) : Bool := bindings.named.isEmpty && bindings.positional.isEmpty

/-- Binds a name; a value bound to it before is replaced. -/
def insert (bindings : Bindings) (name : String) (value : Decimal) : Bindings :=
  { bindings with named := bindings.named.filter (·.1 != name) ++ [(name, value)] }

/-- Appends a positional value. -/
def push (bindings : Bindings) (value : Decimal) : Bindings :=
  { bindings with positional := bindings.positional ++ [value] }

/-! ## Positional placeholders -/

/-- The text up to the parenthesis that closes `opened` groups, and the text after it. -/
def takeGroup (opened : Nat) : List Char → Option (List Char × List Char)
  | [] => none
  | c :: rest =>
    if c = ')' && opened == 1 then some ([], rest)
    else
      let opened := if c = '(' then opened + 1 else if c = ')' then opened - 1 else opened
      (takeGroup opened rest).map fun (inner, after) => (c :: inner, after)

theorem length_of_takeGroup {opened : Nat} {text inner after : List Char}
    (h : takeGroup opened text = some (inner, after)) :
    inner.length + after.length + 1 = text.length := by
  induction text generalizing opened inner after with
  | nil => simp [takeGroup] at h
  | cons c rest ih =>
    rw [takeGroup] at h
    split at h
    · simp_all
    · obtain ⟨⟨i, a⟩, hr, he⟩ := Option.map_eq_some_iff.1 h
      have := ih hr
      simp only [Prod.mk.injEq] at he
      obtain ⟨rfl, rfl⟩ := he
      simp only [List.length_cons]
      omega

/-- The value that an index expression selects. -/
def slot (bindings : Bindings) (calculator : Calculator) (expression : List Char)
    (position : Nat) : Except EvalError (Nat × Decimal) := do
  let index ← calculator.evaluatePlain expression
  let chosen := index.toWord?.bind fun n =>
    if 0 ≤ n then (bindings.positional[n.toNat]?).map fun value => (n.toNat, value) else none
  match chosen with
  | some found => return found
  | none =>
    throw (.unreadable ⟨.invalidPlaceholderIndex (String.ofList expression)
      bindings.positional.length, position⟩)

/-- The placeholder of a slot, as positional placeholders are written once their index is known. -/
def slotName (n : Nat) : List Char := '(' :: Nat.toDigits 10 n ++ [')']

/-- Evaluates the index of every positional placeholder in a text that starts at `position`, and
lists the slots that occur. -/
def resolveSlots (bindings : Bindings) (calculator : Calculator) (position : Nat)
    (text : List Char) : Except EvalError (List Char × List (Nat × Decimal)) :=
  match text with
  | [] => .ok ([], [])
  | '$' :: '(' :: rest =>
    match _ : takeGroup 1 rest with
    | none => .error (.unreadable ⟨.unmatchedParenthesis, position + 1⟩)
    | some (inner, after) =>
      match inner.findIdx? (· == '$') with
      | some offset => .error (.unreadable ⟨.unresolvedPlaceholder, position + 2 + offset⟩)
      | none => do
        let found ← bindings.slot calculator inner position
        let (rewritten, slots) ←
          bindings.resolveSlots calculator (position + inner.length + 3) after
        return ('$' :: slotName found.1 ++ rewritten, found :: slots)
  | c :: rest => do
    let (rewritten, slots) ← bindings.resolveSlots calculator (position + 1) rest
    return (c :: rewritten, slots)
termination_by text.length
decreasing_by
  · have := length_of_takeGroup (by assumption)
    simp only [List.length_cons]
    omega
  · simp

/-! ## Substitution -/

/-- Replaces every occurrence of a text, from the left on and without overlaps. -/
def replaceAll (pattern value : List Char) (text : List Char) : List Char :=
  match text with
  | [] => []
  | c :: rest =>
    if pattern.isPrefixOf (c :: rest) then
      value ++ replaceAll pattern value (rest.drop (pattern.length - 1))
    else c :: replaceAll pattern value rest
termination_by text.length
decreasing_by
  · simp only [List.length_drop, List.length_cons]
    omega
  · simp

/-- Whether `a` is replaced before `b`: longer names first, then in the order of the letters. -/
def replacedBefore (a b : String × Decimal) : Bool :=
  match compare b.1.utf8ByteSize a.1.utf8ByteSize with
  | .lt => true
  | .gt => false
  | .eq => a.1 ≤ b.1

/-- Writes the bound values into a text. Names are replaced one after the other in the whole text,
slots among them; a name that looks like a slot hides it. -/
def fillIn (bindings : Bindings) (calculator : Calculator) (text : List Char) :
    Except EvalError (List Char) := do
  if !text.contains '$' then return text
  let (rewritten, slots) ← bindings.resolveSlots calculator 0 text
  let known := slots.foldl
    (fun known (n, value) =>
      let name := String.ofList (slotName n)
      if known.any (·.1 == name) then known else known ++ [(name, value)])
    bindings.named
  return (known.mergeSort replacedBefore).foldl
    (fun text (name, value) => replaceAll ('$' :: name.toList) value.toChars text) rewritten

end Bindings

namespace Calculator

/-- The value of a text, with the bound values in place of its placeholders. -/
def evaluate (calculator : Calculator) (text : List Char) (bindings : Bindings) :
    Except EvalError Decimal := do
  calculator.evaluatePlain (← bindings.fillIn calculator text)

/-- The truth of a statement, which is evaluated as the condition of a choice. -/
def holds (calculator : Calculator) (text : List Char) : Except EvalError Bool := do
  let value ← calculator.evaluate ("if(".toList ++ text ++ ",1,0)".toList) .empty
  return value.sameValue 1

end Calculator

end Reckoner
