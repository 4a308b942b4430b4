import Reckoner.Proofs.Reading.Places

/-!
# Causes of errors

A reading moves its cursor about in one text, and where it gives up, its error names what stands at
the place it points to. The cursors that a reading keeps for its errors stand in the same text, so
what lies ahead of them is the text from their position on.
-/

namespace Reckoner

/-- An error points into a text, and what it says of the text there is true. -/
def SyntaxError.Points (text : List Char) (error : SyntaxError) : Prop :=
  error.position ≤ text.length ∧
    match error.fault with
    | .unexpectedCharacter found => text[error.position]? = some found
    | .unresolvedPlaceholder => text[error.position]? = some '$'
    | .unknownIdentifier name | .missingArguments name =>
      (text.drop error.position).takeWhile Char.isAlpha = name.toList
    | .trailingText trailing => trailing ≠ "" ∧ text.drop error.position = trailing.toList
    | .invalidNumber literal => literal ≠ "" ∧ literal.toList <+: text.drop error.position
    | .unexpectedEnd => error.position = text.length
    | .unmatchedParenthesis | .missingComma _ | .expectedEquals | .invalidPlaceholderIndex _ _
    | .nestingTooDeep _ => True

/-! ## Cursors in a text -/

namespace Cursor

/-- A cursor that skips spaces, at a place in a text. -/
structure Stands (text : List Char) (cursor : Cursor) : Prop where
  eq_facing : ∃ behind ahead, cursor = facing behind ahead
  text_eq : cursor.text = text

variable {text behind ahead : List Char} {cursor : Cursor} {c : Char}

theorem text_facing (behind ahead : List Char) :
    (facing behind ahead).text = behind.reverse ++ ahead := by
  cases ahead with
  | nil => exact (List.append_nil _).symm
  | cons c ahead => rfl

theorem position_facing (behind ahead : List Char) :
    (facing behind ahead).position = behind.length := by
  cases ahead <;> rfl

/-- Characters that are passed go from what lies ahead to what lies behind. -/
theorem stands_passed (p : Char → Bool) (behind ahead : List Char) :
    (facing ((ahead.takeWhile p).reverse ++ behind) (ahead.dropWhile p)).Stands
      (facing behind ahead).text :=
  ⟨⟨_, _, rfl⟩, by simp [text_facing]⟩

namespace Stands

theorem position_le (h : cursor.Stands text) : cursor.position ≤ text.length := by
  obtain ⟨⟨behind, ahead, rfl⟩, rfl⟩ := h
  simp [position_facing, text_facing]

/-- What lies ahead of a cursor is the text from its position on. -/
theorem drop_position (h : cursor.Stands text) : text.drop cursor.position = cursor.place.rest := by
  obtain ⟨⟨behind, ahead, rfl⟩, rfl⟩ := h
  rw [position_facing, rest_facing, text_facing, ← List.length_reverse, List.drop_left]

theorem getElem?_position (h : cursor.Stands text) :
    text[cursor.position]? = cursor.place.rest.head? := by
  rw [← h.drop_position, List.head?_drop]

theorem current_eq (h : cursor.Stands text) :
    cursor.current = .ofOption cursor.place.rest.head? := by
  obtain ⟨behind, ahead, rfl⟩ := h.eq_facing
  rw [current_facing, rest_facing]

theorem head?_of_current (h : cursor.Stands text) (hc : cursor.current = .at c) :
    cursor.place.rest.head? = some c := by
  rw [h.current_eq] at hc
  cases hhead : cursor.place.rest.head? <;> simp_all [Spot.ofOption]

theorem rest_eq_nil (h : cursor.Stands text) (hend : ∀ c, cursor.current ≠ .at c) :
    cursor.place.rest = [] := by
  rw [h.current_eq] at hend
  cases hrest : cursor.place.rest with
  | nil => rfl
  | cons c ahead => exact absurd (by simp [hrest, Spot.ofOption]) (hend c)

theorem passSpaces (h : cursor.Stands text) : cursor.passSpaces.Stands text ∧
    cursor.passSpaces.place.rest = cursor.place.rest.dropWhile (· == ' ') := by
  obtain ⟨⟨behind, ahead, rfl⟩, rfl⟩ := h
  have hpass : (facing behind ahead).passSpaces =
      facing ((ahead.takeWhile (· == ' ')).reverse ++ behind) (ahead.dropWhile (· == ' ')) := by
    simp [facing, Cursor.passSpaces, Place.enter_after, Place.passSpaces, Place.span_after]
  rw [hpass, rest_facing, rest_facing]
  exact ⟨stands_passed _ behind ahead, rfl⟩

theorem takeWhile (h : cursor.Stands text) (p : Char → Bool) :
    (cursor.takeWhile p).1 = cursor.place.rest.takeWhile p ∧
      (cursor.takeWhile p).2.Stands text ∧
      (cursor.takeWhile p).2.place.rest = cursor.place.rest.dropWhile p := by
  obtain ⟨⟨behind, ahead, rfl⟩, rfl⟩ := h
  have htake : (facing behind ahead).takeWhile p = (ahead.takeWhile p,
      facing ((ahead.takeWhile p).reverse ++ behind) (ahead.dropWhile p)) := by
    simp [facing, Cursor.takeWhile, Place.span_after]
  rw [htake, rest_facing]
  exact ⟨rfl, stands_passed p behind ahead, rest_facing⟩

theorem accept? (h : cursor.Stands text) {after : Cursor} (ha : cursor.accept? c = some after) :
    after.Stands text ∧ cursor.place.rest.dropWhile (· == ' ') = c :: after.place.rest := by
  obtain ⟨hpassed, hrest⟩ := h.passSpaces
  obtain ⟨⟨behind, ahead, hfacing⟩, htext⟩ := hpassed
  rw [← hrest]
  unfold Cursor.accept? at ha
  rw [hfacing] at ha htext ⊢
  cases ahead with
  | nil => simp [facing, Place.after] at ha
  | cons d ahead =>
    obtain ⟨rfl, rfl⟩ : d = c ∧ facing (d :: behind) ahead = after := by
      simpa [facing, Place.after] using ha
    refine ⟨⟨⟨_, _, rfl⟩, ?_⟩, by rw [rest_facing, rest_facing]⟩
    rw [← htext, text_facing, text_facing]
    simp

end Stands

end Cursor

/-! ## Readings that stay in a text -/

/-- An outcome somewhere in a text, with an error that points to its cause. -/
def Outcome.StaysIn {α : Type} (text : List Char) (Q : α → Cursor → Prop) : Outcome α → Prop
  | .done value last => last.cursor.Stands text ∧ Q value last.cursor
  | .failed error _ => ∀ fault, error = .unreadable fault → fault.Points text

namespace Reading

variable {α β : Type} {text : List Char} {here : Cursor} {Q : α → Cursor → Prop}
  {R : β → Cursor → Prop} {p q : Reading α} {next : α → Reading β} {fault : Fault}

/-- What a reading comes to from a place, whichever levels are lost and whether or not it skips. -/
def StaysFrom (text : List Char) (here : Cursor) (Q : α → Cursor → Prop) (p : Reading α) : Prop :=
  ∀ settings lost skipping, (p settings ⟨here, lost, skipping⟩).StaysIn text Q

/-- A reading stays in a text from wherever it begins. -/
def StaysIn (text : List Char) (p : Reading α) : Prop :=
  ∀ here, here.Stands text → StaysFrom text here (fun _ _ => True) p

theorem StaysFrom.bind (h : StaysFrom text here Q p)
    (hnext : ∀ value there, there.Stands text → Q value there → StaysFrom text there R (next value)) :
    StaysFrom text here R (p >>= next) := by
  intro settings lost skipping
  have hp := h settings lost skipping
  rw [bind_run]
  cases hrun : p settings ⟨here, lost, skipping⟩ with
  | failed error last => rwa [hrun] at hp
  | done value mid =>
    rw [hrun] at hp
    exact hnext value mid.cursor hp.1 hp.2 settings mid.lost mid.skipping

theorem StaysIn.bind (h : StaysIn text p) (hnext : ∀ value, StaysIn text (next value)) :
    StaysIn text (p >>= next) :=
  fun here hhere => (h here hhere).bind fun value there hthere _ => hnext value there hthere

theorem StaysIn.ite {condition : Prop} [Decidable condition] (h : StaysIn text p)
    (h' : StaysIn text q) : StaysIn text (if condition then p else q) := by
  split <;> assumption

/-! ## Elementary readings -/

theorem staysIn_pure (value : α) : StaysIn text (pure value : Reading α) :=
  fun _ hhere _ _ _ => ⟨hhere, trivial⟩

theorem staysFrom_cursor {next : Cursor → Reading β} (h : StaysFrom text here R (next here)) :
    StaysFrom text here R (cursor >>= next) := h

theorem staysIn_peek : StaysIn text peek := fun _ hhere _ _ _ => ⟨hhere, trivial⟩

theorem staysIn_passSpaces : StaysIn text passSpaces :=
  fun _ hhere _ _ _ => ⟨hhere.passSpaces.1, trivial⟩

theorem staysFrom_takeWhile (hhere : here.Stands text) (p : Char → Bool) :
    StaysFrom text here (fun taken there => taken = here.place.rest.takeWhile p ∧
      there.place.rest = here.place.rest.dropWhile p) (takeWhile p) := by
  obtain ⟨htaken, hthere, hrest⟩ := hhere.takeWhile p
  exact fun _ _ _ => ⟨hthere, htaken, hrest⟩

/-- A character is taken exactly if it is the first that is not a space. -/
theorem staysFrom_accept (hhere : here.Stands text) (c : Char) :
    StaysFrom text here (fun taken there => if taken
      then here.place.rest.dropWhile (· == ' ') = c :: there.place.rest
      else here.ahead ≠ .at c) (accept c) := by
  intro settings lost skipping
  cases h : here.accept? c with
  | some after =>
    rw [accept_takes h]
    exact hhere.accept? h
  | none =>
    have hahead : here.ahead ≠ .at c := by
      intro hahead
      obtain ⟨after, hafter⟩ := Cursor.accept?_eq_some hahead
      simp [h] at hafter
    rw [accept_refuses hahead]
    exact ⟨hhere, hahead⟩

theorem staysIn_accept (c : Char) : StaysIn text (accept c) := by
  intro here hhere settings lost skipping
  have h := staysFrom_accept hhere c settings lost skipping
  cases hrun : accept c settings ⟨here, lost, skipping⟩ with
  | failed error last => rwa [hrun] at h
  | done taken last =>
    rw [hrun] at h
    exact ⟨h.1, trivial⟩

theorem staysIn_failAt {place : Cursor} (h : SyntaxError.Points text ⟨fault, place.position⟩) :
    StaysIn text (failAt fault place : Reading α) := by
  rintro here - settings lost skipping error herror
  obtain rfl := EvalError.unreadable.inj herror
  exact h

/-- A fault that says nothing of the text may be found anywhere in it. -/
def Anywhere (text : List Char) (fault : Fault) : Prop :=
  ∀ position ≤ text.length, SyntaxError.Points text ⟨fault, position⟩

theorem staysIn_expect (h : Anywhere text fault) (c : Char) : StaysIn text (expect c fault) := by
  refine (staysIn_accept c).bind fun taken => .ite (staysIn_passSpaces.bind fun _ => ?_)
    (staysIn_pure ())
  exact fun here hhere =>
    staysFrom_cursor (staysIn_failAt (h here.position hhere.position_le) here hhere)

theorem staysIn_closeParenthesis : StaysIn text closeParenthesis :=
  staysIn_expect (fun _ hposition => ⟨hposition, trivial⟩) ')'

theorem staysIn_calculate (operation : Context → Arithmetic Decimal) :
    StaysIn text (calculate operation) := by
  intro here hhere settings lost skipping
  unfold calculate
  split
  · exact ⟨hhere, trivial⟩
  split
  · exact ⟨hhere, trivial⟩
  · exact fun fault => nofun

/-! ## Composed readings -/

theorem StaysIn.branch (h : StaysIn text p) (taken : Bool) : StaysIn text (branch taken p) := by
  intro here hhere settings lost skipping
  have hp := h here hhere settings lost (skipping || !taken)
  unfold Reading.branch
  cases hrun : p settings ⟨here, lost, skipping || !taken⟩ <;> rwa [hrun] at hp

theorem staysIn_tooDeep : StaysIn text (tooDeep : Reading α) := by
  rintro here hhere settings lost skipping error herror
  obtain rfl := EvalError.unreadable.inj herror
  exact ⟨hhere.position_le, trivial⟩

theorem StaysIn.nested (h : StaysIn text p) (levels : Nat) : StaysIn text (nested levels p) := by
  intro here hhere settings lost skipping
  unfold Reading.nested
  split
  · exact h here hhere settings lost skipping
  · exact staysIn_tooDeep here hhere settings lost skipping

/-- The text is read again from the place where the first reading began. -/
theorem StaysIn.orElse (h : StaysIn text p) (h' : StaysIn text q) (accepted : Cursor → Bool) :
    StaysIn text (orElse p accepted q) := by
  intro here hhere settings lost skipping
  have hp := h here hhere settings lost skipping
  unfold Reading.orElse
  cases hrun : p settings ⟨here, lost, skipping⟩ with
  | failed error after => exact h' here hhere settings after.lost after.skipping
  | done value after =>
    rw [hrun] at hp
    simp only
    split
    · exact hp
    · exact h' here hhere settings after.lost after.skipping

theorem StaysIn.iterateAlong {step : α → Reading (Option α)}
    (h : ∀ value, StaysIn text (step value)) (along : List Char) (value : α) :
    StaysIn text (iterateAlong step along value) := by
  induction along generalizing value with
  | nil => exact staysIn_pure value
  | cons c along ih =>
    refine (h value).bind fun next => ?_
    cases next with
    | none => exact staysIn_pure value
    | some next => exact ih next

theorem StaysIn.iterate {step : α → Reading (Option α)} (h : ∀ value, StaysIn text (step value))
    (value : α) : StaysIn text (iterate step value) :=
  fun here hhere settings lost skipping =>
    StaysIn.iterateAlong h here.place.rest value here hhere settings lost skipping

end Reading

end Reckoner
