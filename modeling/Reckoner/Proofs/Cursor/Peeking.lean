import Reckoner.Proofs.Cursor.Offsets

/-!
# What a cursor sees ahead

A character is accepted where it is the next one that is seen, with one exception: a cursor that
does not skip spaces sees the first character of its text from before the start, but it accepts
none there.
-/

namespace Reckoner

namespace Pointer

/-- The character with an index, or the next one that is not a space. -/
def spotFrom (text : List Char) (skips : Bool) (index : Nat) : Spot :=
  if skips ∧ text[index]? = some ' ' then spotFrom text skips (index + 1)
  else .ofOption text[index]?
termination_by text.length - index
decreasing_by
  have : index < text.length := by
    by_contra hpast
    simp_all
  omega

/-- What is next for a pointer, without moving. -/
def peek (pointer : Pointer) : Spot :=
  spotFrom pointer.text pointer.skipsSpaces (max pointer.offset 1 - 1)

theorem spotFrom_append (behind ahead : List Char) (skips : Bool) :
    spotFrom (behind.reverse ++ ahead) skips behind.length =
      (if skips then (Place.after behind ahead).passSpaces else .after behind ahead).spot := by
  induction ahead generalizing behind with
  | nil =>
    rw [spotFrom]
    cases skips <;> simp [Spot.ofOption, Place.after, Place.passSpaces, Place.span, Place.spot]
  | cons c ahead ih =>
    have hindex : (behind.reverse ++ c :: ahead)[behind.length]? = some c := by simp
    rw [spotFrom, hindex]
    split
    · next hspace =>
      obtain ⟨rfl, rfl⟩ : skips = true ∧ c = ' ' := by simpa using hspace
      rw [if_pos rfl, Place.passSpaces_cons_space]
      simpa using ih (' ' :: behind)
    · next hother =>
      have hstays : skips = true → (Place.after behind (c :: ahead)).passSpaces = _ :=
        fun hskips => Place.passSpaces_stays behind (by simpa [hskips] using hother)
      split
      · next hskips => rw [hstays hskips]; rfl
      · rfl

theorem peek_ofCursor (cursor : Cursor) : (ofCursor cursor).peek = cursor.peek := by
  obtain ⟨behind, ahead, henter⟩ := cursor.place.enter_eq_after
  have htext : cursor.place.text = behind.reverse ++ ahead := by
    rw [← cursor.place.text_enter, henter, Place.text_after]
  have hindex : max cursor.place.offset 1 - 1 = behind.length := by
    have hoffset := cursor.place.offset_enter
    rw [henter, Place.offset_after] at hoffset
    split at hoffset <;> omega
  change spotFrom cursor.place.text cursor.skipsSpaces (max cursor.place.offset 1 - 1) = _
  rw [htext, hindex, spotFrom_append, Cursor.peek, henter]

end Pointer

namespace Cursor

/-- A cursor looks for a character where it sees ahead, except before the start if it does not skip
spaces. -/
theorem ahead_eq (cursor : Cursor) : cursor.ahead =
    if cursor.skipsSpaces ∨ cursor.offset ≠ 0 then cursor.peek else .beforeStart := by
  rcases cursor with ⟨text | ⟨behind, c, ahead⟩ | behind, skips | skips⟩ <;> rfl

theorem isSome_accept?_iff {cursor : Cursor} {target : Char} :
    (cursor.accept? target).isSome ↔ cursor.ahead = .at target := by
  rw [Option.isSome_iff_exists]
  exact ⟨fun ⟨_, hafter⟩ => ahead_of_accept? hafter, accept?_eq_some⟩

/-- A character is accepted if and only if it is what the cursor sees ahead, unless a cursor that
does not skip spaces is before the start. A pointer, which passes the spaces once to accept and once
more to see, answers alike in both. -/
theorem accepts_iff_peek (cursor : Cursor) (target : Char) :
    ((cursor.accept? target).isSome ↔
      cursor.peek = .at target ∧ (cursor.skipsSpaces ∨ cursor.offset ≠ 0)) ∧
    (Pointer.ofCursor cursor).peek = cursor.peek ∧
    ((Pointer.ofCursor cursor).scan? (.accept target)).map Prod.fst =
      some (cursor.accept? target).isSome := by
  refine ⟨?_, Pointer.peek_ofCursor cursor, ?_⟩
  · rw [isSome_accept?_iff, ahead_eq]
    split
    · next hlooks => exact ⟨fun hpeek => ⟨hpeek, hlooks⟩, fun h => h.1⟩
    · next hstart => exact ⟨fun h => by simp at h, fun h => absurd h.2 hstart⟩
  · rw [Pointer.scan?_ofCursor]
    rfl

/-- The first character is seen from before the start, but not accepted. -/
theorem plain_start_refuses :
    let cursor := Cursor.ofText ['a'] false
    cursor.peek = .at 'a' ∧ cursor.accept? 'a' = none := by
  decide

end Cursor

end Reckoner
