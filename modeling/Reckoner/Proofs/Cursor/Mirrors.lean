import Reckoner.Proofs.Cursor.Histories

/-!
# Mirrored cursors

A cursor scans backward as it scans forward. Read in a mirror, the text is reversed, the two ends
are exchanged and so are the two directions; whatever is asked of a cursor has the mirrored answer
of the cursor in the mirror.
-/

namespace Reckoner

/-! ## Places of a text -/

namespace Place

/-- The place of a text with a number; past its end there is only one. -/
def ofOffset (text : List Char) : Nat → Place
  | 0 => beforeStart text
  | index + 1 => after (text.take index).reverse (text.drop index)

theorem text_ofOffset (text : List Char) (offset : Nat) : (ofOffset text offset).text = text := by
  cases offset with
  | zero => rfl
  | succ index =>
    rw [ofOffset, text_after, List.reverse_reverse, List.take_append_drop]

theorem offset_ofOffset {text : List Char} {offset : Nat} (h : offset ≤ text.length + 1) :
    (ofOffset text offset).offset = offset := by
  cases offset with
  | zero => rfl
  | succ index =>
    rw [ofOffset, offset_after, List.length_reverse, List.length_take,
      Nat.min_eq_left (Nat.le_of_succ_le_succ h)]

theorem ofOffset_offset (place : Place) : ofOffset place.text place.offset = place := by
  rcases place with text | ⟨behind, c, ahead⟩ | behind
  · rfl
  · simp [ofOffset, text, offset, after]
  · have hall : behind.length = behind.reverse.length := behind.length_reverse.symm
    rw [offset, ofOffset, text, hall, List.take_length, List.drop_length, List.reverse_reverse]
    rfl

/-! ## In the mirror -/

def mirror : Place → Place
  | beforeStart text => pastEnd text
  | on behind current ahead => on ahead current behind
  | pastEnd behind => beforeStart behind

theorem mirror_mirror (place : Place) : place.mirror.mirror = place := by
  cases place <;> rfl

theorem text_mirror (place : Place) : place.mirror.text = place.text.reverse := by
  cases place <;> simp [mirror, text]

theorem offset_mirror (place : Place) :
    place.mirror.offset = place.text.length + 1 - place.offset := by
  cases place <;> simp [mirror, text, offset]

theorem mirror_ofOffset {text : List Char} {offset : Nat} (h : offset ≤ text.length + 1) :
    (ofOffset text offset).mirror = ofOffset text.reverse (text.length + 1 - offset) := by
  rw [← (ofOffset text offset).mirror.ofOffset_offset, text_mirror, offset_mirror, text_ofOffset,
    offset_ofOffset h]

theorem mirror_after (behind ahead : List Char) :
    (after behind ahead).mirror = before behind ahead := by
  cases ahead <;> rfl

theorem mirror_before (ahead behind : List Char) :
    (before ahead behind).mirror = after ahead behind := by
  cases behind <;> rfl

theorem previous?_mirror (place : Place) : place.mirror.previous? = place.next?.map mirror := by
  rcases place with text | ⟨behind, c, ahead⟩ | behind
  · exact congrArg some (mirror_after [] text).symm
  · exact congrArg some (mirror_after (c :: behind) ahead).symm
  · rfl

theorem next?_mirror (place : Place) : place.mirror.next? = place.previous?.map mirror := by
  rcases place with text | ⟨behind, c, ahead⟩ | behind
  · rfl
  · exact congrArg some (mirror_before (c :: ahead) behind).symm
  · exact congrArg some (mirror_before [] behind).symm

theorem enterBack_mirror (place : Place) : place.mirror.enterBack = place.enter.mirror := by
  rcases place with text | ⟨behind, c, ahead⟩ | behind
  · exact (mirror_after [] text).symm
  · rfl
  · rfl

theorem passSpacesBack_mirror (behind ahead : List Char) :
    (after behind ahead).mirror.passSpacesBack = (after behind ahead).passSpaces.mirror := by
  induction ahead generalizing behind with
  | nil => rfl
  | cons c ahead ih =>
    by_cases hc : c = ' '
    · subst hc
      rw [passSpaces_cons_space, ← ih, mirror_after, mirror_after, passSpacesBack_before,
        passSpacesBack_before]
      rfl
    · rw [passSpaces_stays behind (by simpa using hc), mirror_after, passSpacesBack_before,
        backOverSpaces_stays behind (by simpa using hc)]

end Place

def Spot.mirror : Spot → Spot
  | beforeStart => pastEnd
  | .at c => .at c
  | pastEnd => beforeStart

theorem Place.spot_mirror (place : Place) : place.mirror.spot = place.spot.mirror := by
  cases place <;> rfl

namespace Cursor

/-- The cursor at the place of a text with a number. -/
def ofOffset (text : List Char) (offset : Nat) (skips : Bool) : Cursor :=
  ⟨.ofOffset text offset, skips⟩

def mirror (cursor : Cursor) : Cursor := { cursor with place := cursor.place.mirror }

theorem mirror_mirror (cursor : Cursor) : cursor.mirror.mirror = cursor := by
  simp [mirror, Place.mirror_mirror]

theorem passSpacesBack_mirror (cursor : Cursor) :
    cursor.mirror.passSpacesBack = cursor.passSpaces.mirror := by
  rcases cursor with ⟨place, skips | skips⟩
  · rfl
  · obtain ⟨behind, ahead, henter⟩ := place.enter_eq_after
    simp [mirror, passSpaces, passSpacesBack, Place.enterBack_mirror, henter,
      Place.passSpacesBack_mirror]

theorem acceptBack?_mirror (cursor : Cursor) (target : Char) :
    cursor.mirror.acceptBack? target = (cursor.accept? target).map mirror := by
  have hspot : cursor.passSpaces.mirror.current = .at target ↔
      cursor.passSpaces.current = .at target := by
    change cursor.passSpaces.place.mirror.spot = _ ↔ cursor.passSpaces.place.spot = _
    rw [Place.spot_mirror]
    cases cursor.passSpaces.place.spot <;> simp [Spot.mirror]
  rw [accept?_eq, acceptBack?_eq, passSpacesBack_mirror]
  simp only [hspot]
  split
  · change (cursor.passSpaces.place.mirror.previous?.map _) = _
    rw [Place.previous?_mirror, Option.map_map, Option.map_map]
    rfl
  · rfl

/-- The other direction is that of the mirrored cursor. -/
theorem accept?_mirror (cursor : Cursor) (target : Char) :
    cursor.mirror.accept? target = (cursor.acceptBack? target).map mirror := by
  have hback := cursor.mirror.acceptBack?_mirror target
  rw [mirror_mirror] at hback
  rw [hback, Option.map_map]
  simp [Function.comp_def, mirror_mirror]

end Cursor

/-! ## Scans -/

/-- The scan in the other direction. -/
def Scan.mirror : Scan → Scan
  | next => previous
  | previous => next
  | accept target => acceptBack target
  | acceptBack target => accept target
  | hasNext => hasPrevious
  | hasPrevious => hasNext

theorem Scan.run_mirror (scan : Scan) (cursor : Cursor) :
    scan.mirror.run cursor.mirror = ((scan.run cursor).1, (scan.run cursor).2.mirror) := by
  cases scan with
  | next =>
    rw [mirror, run_next, run_previous, Cursor.mirror, cursor.place.previous?_mirror]
    cases cursor.place.next? <;> rfl
  | previous =>
    rw [mirror, run_next, run_previous, Cursor.mirror, cursor.place.next?_mirror]
    cases cursor.place.previous? <;> rfl
  | accept target =>
    simp only [mirror, run, Cursor.acceptBack?_mirror, Option.isSome_map]
    cases cursor.accept? target <;> rfl
  | acceptBack target =>
    simp only [mirror, run, Cursor.accept?_mirror, Option.isSome_map]
    cases cursor.acceptBack? target <;> rfl
  | hasNext => rcases cursor with ⟨_ | _ | _, skips⟩ <;> rfl
  | hasPrevious => rcases cursor with ⟨_ | _ | _, skips⟩ <;> rfl

/-- What is seen of a scan: whether it succeeds, and where the cursor is afterwards. -/
structure Sight where
  succeeds : Bool
  spot : Spot
  offset : Nat
  deriving DecidableEq, Repr

/-- The same sight in the mirror of a text with a number of characters. -/
def Sight.mirror (length : Nat) (sight : Sight) : Sight :=
  ⟨sight.succeeds, sight.spot.mirror, length + 1 - sight.offset⟩

/-- What is seen of one scan after the other. -/
def Cursor.sights (cursor : Cursor) : List Scan → List Sight
  | [] => []
  | scan :: scans =>
    let (succeeds, after) := scan.run cursor
    ⟨succeeds, after.current, after.offset⟩ :: after.sights scans

theorem Cursor.sights_mirror {text : List Char} {skips : Bool} {cursor : Cursor}
    (h : cursor.Over text skips) (scans : List Scan) :
    cursor.mirror.sights (scans.map Scan.mirror) =
      (cursor.sights scans).map (Sight.mirror text.length) := by
  induction scans generalizing cursor with
  | nil => rfl
  | cons scan scans ih =>
    have hafter := h.scan scan
    have hoffset : (scan.run cursor).2.mirror.offset =
        text.length + 1 - (scan.run cursor).2.offset := by
      rw [← hafter.1]
      exact Place.offset_mirror _
    simp only [sights, List.map_cons, Scan.run_mirror, ih hafter, hoffset]
    rw [List.cons.injEq, Sight.mirror]
    exact ⟨congrArg (Sight.mk _ · _) (Place.spot_mirror _), rfl⟩

/-- Scanning backward mirrors scanning forward: on the reversed text, from the place as far from its
end, the scans in the other direction succeed and fail alike, see the same characters with the two
ends exchanged, and are as far from the other end. -/
theorem Cursor.sights_reversed (text : List Char) (skips : Bool) (offset : Nat)
    (hoffset : offset ≤ text.length + 1) (scans : List Scan) :
    (Cursor.ofOffset text.reverse (text.length + 1 - offset) skips).sights
        (scans.map Scan.mirror) =
      ((Cursor.ofOffset text offset skips).sights scans).map (Sight.mirror text.length) := by
  have hmirror : (Cursor.ofOffset text offset skips).mirror =
      .ofOffset text.reverse (text.length + 1 - offset) skips := by
    rw [ofOffset, mirror, Place.mirror_ofOffset hoffset, ofOffset]
  have hover : (Cursor.ofOffset text offset skips).Over text skips :=
    ⟨Place.text_ofOffset text offset, rfl⟩
  rw [← hmirror]
  exact sights_mirror hover scans

/-- Both directions pass the spaces and meet the same characters, and at the end nothing more. -/
theorem Cursor.sights_reversed_sum :
    let text := "1 + 2".toList
    let scans := [Scan.accept '1', .accept '+', .accept '1', .hasNext, .accept '2', .next]
    1 ≤ text.length + 1 ∧
      (Cursor.ofOffset text.reverse (text.length + 1 - 1) true).sights (scans.map Scan.mirror) =
        ((Cursor.ofOffset text 1 true).sights scans).map (Sight.mirror text.length) ∧
      (Cursor.ofOffset text 1 true).sights scans =
        [⟨true, .at ' ', 2⟩, ⟨true, .at ' ', 4⟩, ⟨false, .at ' ', 4⟩, ⟨true, .at ' ', 4⟩,
          ⟨true, .pastEnd, 6⟩, ⟨false, .pastEnd, 6⟩] := by
  intro text scans
  have hoffset : 1 ≤ text.length + 1 := by decide
  exact ⟨hoffset, Cursor.sights_reversed text true 1 hoffset scans, by decide⟩

end Reckoner
