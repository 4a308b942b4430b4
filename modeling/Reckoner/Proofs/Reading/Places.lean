import Reckoner.Proofs.Reading.Runs

/-!
# Places with a text ahead

A cursor that skips spaces, described by the text it has ahead of it: what it sees next is the
first character that is not a space.
-/

namespace Reckoner

/-- Whether all members of a list are such is decided by the members, not by all characters. -/
instance decidableForallMem (text : List Char) (p : Char → Prop) [DecidablePred p] :
    Decidable (∀ c ∈ text, p c) :=
  List.decidableBAll p text

/-- The first character that is not a space. -/
def significant (text : List Char) : Option Char := (text.dropWhile (· == ' ')).head?

/-- A text that consists of the signs, with any number of spaces in front of each. -/
inductive Spaced : List Char → List Char → Prop where
  | nil : Spaced [] []
  | cons {signs text : List Char} (n : Nat) (sign : Char) (rest : Spaced signs text) :
    Spaced (sign :: signs) (List.replicate n ' ' ++ sign :: text)

theorem dropWhile_spaces (n : Nat) (text : List Char) :
    (List.replicate n ' ' ++ text).dropWhile (· == ' ') = text.dropWhile (· == ' ') := by
  induction n with
  | zero => rfl
  | succ n ih => simp [List.replicate_succ, ih]

theorem significant_spaces (n : Nat) (text : List Char) :
    significant (List.replicate n ' ' ++ text) = significant text := by
  rw [significant, dropWhile_spaces, significant]

theorem significant_cons {c : Char} (hc : c ≠ ' ') (text : List Char) :
    significant (c :: text) = some c := by
  simp [significant, hc]

theorem Spaced.significant_append {c : Char} {signs text rest : List Char}
    (h : Spaced (c :: signs) text) (hc : c ≠ ' ') : significant (text ++ rest) = some c := by
  cases h with
  | cons n _ h => rw [List.append_assoc, significant_spaces, List.cons_append, significant_cons hc]

theorem Spaced.significant {c : Char} {signs text : List Char} (h : Spaced (c :: signs) text)
    (hc : c ≠ ' ') : significant text = some c := by
  have h : Reckoner.significant (text ++ []) = some c := h.significant_append hc
  rwa [List.append_nil] at h

/-- The first sign can be taken off. -/
theorem Spaced.uncons {c : Char} {signs text : List Char} (h : Spaced (c :: signs) text) :
    ∃ first rest, Spaced [c] first ∧ Spaced signs rest ∧ text = first ++ rest := by
  cases h with
  | @cons _ rest n _ h => exact ⟨List.replicate n ' ' ++ [c], rest, .cons n c .nil, h, by simp⟩

theorem Spaced.push {c : Char} {signs first rest : List Char} (h : Spaced [c] first)
    (hrest : Spaced signs rest) : Spaced (c :: signs) (first ++ rest) := by
  cases h with
  | cons n _ hnil =>
    cases hnil
    simpa using Spaced.cons n c hrest

theorem Spaced.mem {c : Char} {signs text : List Char} (h : Spaced signs text) (hc : c ∈ text) :
    c = ' ' ∨ c ∈ signs := by
  induction h with
  | nil => simp at hc
  | cons n sign _ ih =>
    obtain hc | rfl | hc := by simpa using hc
    · exact .inl hc.2
    · exact .inr List.mem_cons_self
    · exact (ih hc).imp_right (List.mem_cons_of_mem _)

/-- What stands before the first character that is not a space. -/
theorem spaced_of_significant {c : Char} {text : List Char} (h : significant text = some c) :
    ∃ sign rest, Spaced [c] sign ∧ text = sign ++ rest ∧
      text.dropWhile (· == ' ') = c :: rest := by
  induction text with
  | nil => simp [significant] at h
  | cons d text ih =>
    by_cases hd : d = ' '
    · subst hd
      obtain ⟨sign, rest, hsign, htext, hdrop⟩ := ih (by simpa [significant] using h)
      cases hsign with
      | cons n _ hnil =>
        refine ⟨List.replicate (n + 1) ' ' ++ [c], rest, .cons (n + 1) c .nil, ?_, by simpa⟩
        cases hnil
        simp [htext, List.replicate_succ]
    · rw [significant_cons hd, Option.some.injEq] at h
      subst h
      exact ⟨[d], text, .cons 0 d .nil, rfl, by simp [hd]⟩

theorem ne_space_of_significant {c : Char} {text : List Char} (h : significant text = some c) :
    c ≠ ' ' := by
  rintro rfl
  have hnot := List.head?_dropWhile_not (· == ' ') text
  rw [show (text.dropWhile (· == ' ')).head? = some ' ' from h] at hnot
  simp at hnot

theorem significant_append {c : Char} {text : List Char} (h : significant text = some c)
    (rest : List Char) : significant (text ++ rest) = some c := by
  obtain ⟨sign, tail, hsign, rfl, -⟩ := spaced_of_significant h
  rw [List.append_assoc]
  exact hsign.significant_append (ne_space_of_significant h)

theorem spaces_of_significant {text : List Char} (h : significant text = none) :
    ∃ n, text = List.replicate n ' ' := by
  induction text with
  | nil => exact ⟨0, rfl⟩
  | cons d text ih =>
    by_cases hd : d = ' '
    · subst hd
      obtain ⟨n, htext⟩ := ih (by simpa [significant] using h)
      exact ⟨n + 1, by rw [htext, List.replicate_succ]⟩
    · simp [significant_cons hd] at h

namespace Place

theorem spanAfter_eq (p : Char → Bool) (behind text : List Char) :
    spanAfter p behind text =
      (text.takeWhile p, after ((text.takeWhile p).reverse ++ behind) (text.dropWhile p)) := by
  induction text generalizing behind with
  | nil => rfl
  | cons c text ih =>
    rw [spanAfter]
    split
    · next hc => simp [ih, hc]
    · next hc => simp [hc, after]

theorem span_after (p : Char → Bool) (behind text : List Char) :
    (after behind text).span p =
      (text.takeWhile p, after ((text.takeWhile p).reverse ++ behind) (text.dropWhile p)) := by
  cases text with
  | nil => rfl
  | cons c text => exact spanAfter_eq p behind (c :: text)

theorem rest_after (behind text : List Char) : (after behind text).rest = text := by
  cases text <;> rfl

theorem enter_after (behind text : List Char) : (after behind text).enter = after behind text := by
  cases text <;> rfl

end Place

/-- What is seen of a character that may be missing at the end of a text. -/
def Spot.ofOption : Option Char → Spot
  | some c => .at c
  | none => .pastEnd

namespace Cursor

/-- A cursor that skips spaces, between the text behind it and the one ahead. -/
def facing (behind text : List Char) : Cursor := ⟨.after behind text, true⟩

variable {behind text : List Char}

theorem rest_facing : (facing behind text).place.rest = text := Place.rest_after behind text

theorem current_facing : (facing behind text).current = .ofOption text.head? := by
  cases text <;> rfl

theorem passSpaces_facing (behind text : List Char) :
    ∃ behind', (facing behind text).passSpaces = facing behind' (text.dropWhile (· == ' ')) := by
  refine ⟨(text.takeWhile (· == ' ')).reverse ++ behind, ?_⟩
  simp [facing, passSpaces, Place.enter_after, Place.passSpaces, Place.span_after]

theorem ahead_facing : (facing behind text).ahead = .ofOption (significant text) := by
  obtain ⟨behind', h⟩ := passSpaces_facing behind text
  rw [ahead, h]
  exact current_facing

theorem peek_facing : (facing behind text).peek = .ofOption (significant text) := by
  rw [← show (facing behind text).ahead = _ from ahead_facing]
  simp [peek, ahead, facing, passSpaces, Place.enter_after]

theorem ahead_facing_eq {c : Char} : (facing behind text).ahead = .at c ↔ significant text = some c := by
  rw [ahead_facing]
  cases significant text <;> simp [Spot.ofOption]

theorem accept?_facing {c : Char} {cursor : Cursor} (h : (facing behind text).accept? c = some cursor) :
    ∃ sign rest behind', Spaced [c] sign ∧ text = sign ++ rest ∧ cursor = facing behind' rest := by
  obtain ⟨sign, rest, hsign, htext, hdrop⟩ :=
    spaced_of_significant (ahead_facing_eq.1 (ahead_of_accept? h))
  obtain ⟨behind', hpass⟩ := passSpaces_facing behind text
  refine ⟨sign, rest, c :: behind', hsign, htext, ?_⟩
  rw [accept?, hpass, hdrop] at h
  simpa [facing, Place.after] using h.symm

theorem accept?_spaced {c : Char} {sign rest : List Char} (h : Spaced [c] sign) (hc : c ≠ ' ') :
    ∃ behind', (facing behind (sign ++ rest)).accept? c = some (facing behind' rest) := by
  have hdrop : (sign ++ rest).dropWhile (· == ' ') = c :: rest := by
    cases h with
    | cons n _ h =>
      cases h
      rw [List.append_assoc, dropWhile_spaces]
      simp [hc]
  obtain ⟨behind', hpass⟩ := passSpaces_facing behind (sign ++ rest)
  refine ⟨c :: behind', ?_⟩
  rw [accept?, hpass, hdrop]
  simp [facing, Place.after]

end Cursor

end Reckoner
