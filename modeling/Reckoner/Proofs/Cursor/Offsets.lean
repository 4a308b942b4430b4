import Reckoner.Proofs.Reading.Places

/-!
# Cursors by number

A cursor can also be kept as the number of its place in the text. Such a pointer could run out of
its text: reading a character that is not there and going back from the start are faults. Whatever
a cursor does on its text, the pointer with its number does without a fault.
-/

namespace Reckoner

/-! ## The numbers of places -/

namespace Place

variable {text behind ahead : List Char}

theorem text_after (behind ahead : List Char) :
    (after behind ahead).text = behind.reverse ++ ahead := by
  cases ahead with
  | nil => exact (List.append_nil _).symm
  | cons c ahead => rfl

theorem offset_after (behind ahead : List Char) :
    (after behind ahead).offset = behind.length + 1 := by
  cases ahead <;> rfl

theorem text_before (ahead behind : List Char) :
    (before ahead behind).text = behind.reverse ++ ahead := by
  cases behind <;> simp [before, text]

theorem offset_before (ahead behind : List Char) :
    (before ahead behind).offset = behind.length := by
  cases behind <;> rfl

theorem offset_le (place : Place) : place.offset ≤ place.text.length + 1 := by
  cases place <;> simp [offset, text]

theorem spot_eq_beforeStart {place : Place} : place.spot = .beforeStart ↔ place.offset = 0 := by
  cases place <;> simp [spot, offset]

theorem spot_eq_pastEnd {place : Place} :
    place.spot = .pastEnd ↔ place.offset = place.text.length + 1 := by
  cases place <;> simp [spot, offset, text]

theorem text_enter (place : Place) : place.enter.text = place.text := by
  rcases place with text | ⟨behind, c, ahead⟩ | behind
  · exact text_after [] text
  · rfl
  · rfl

theorem offset_enter (place : Place) :
    place.enter.offset = if place.offset = 0 then 1 else place.offset := by
  rcases place with text | ⟨behind, c, ahead⟩ | behind
  · exact offset_after [] text
  · rfl
  · rfl

theorem text_enterBack (place : Place) : place.enterBack.text = place.text := by
  rcases place with text | ⟨behind, c, ahead⟩ | behind
  · rfl
  · rfl
  · exact (text_before [] behind).trans (List.append_nil _)

theorem offset_enterBack (place : Place) :
    place.enterBack.offset =
      if place.text.length < place.offset then place.text.length else place.offset := by
  rcases place with text | ⟨behind, c, ahead⟩ | behind
  · rfl
  · simp [enterBack, offset, text]
  · exact (offset_before [] behind).trans (by simp [offset, text])

theorem enter_eq_after (place : Place) : ∃ behind ahead, place.enter = after behind ahead := by
  rcases place with text | ⟨behind, c, ahead⟩ | behind
  · exact ⟨[], text, rfl⟩
  · exact ⟨behind, c :: ahead, rfl⟩
  · exact ⟨behind, [], rfl⟩

theorem enterBack_eq_before (place : Place) :
    ∃ ahead behind, place.enterBack = before ahead behind := by
  rcases place with text | ⟨behind, c, ahead⟩ | behind
  · exact ⟨text, [], rfl⟩
  · exact ⟨ahead, c :: behind, rfl⟩
  · exact ⟨[], behind, rfl⟩

theorem next?_eq_none {place : Place} :
    place.next? = none ↔ place.text.length < place.offset := by
  cases place <;> simp [next?, text, offset]

theorem previous?_eq_none {place : Place} : place.previous? = none ↔ place.offset = 0 := by
  cases place <;> simp [previous?, offset]

theorem next?_counts {place after : Place} (h : place.next? = some after) :
    after.text = place.text ∧ after.offset = place.offset + 1 := by
  rcases place with text | ⟨behind, c, ahead⟩ | behind
  · obtain rfl := Option.some.inj h
    exact ⟨text_after [] text, offset_after [] text⟩
  · obtain rfl := Option.some.inj h
    exact ⟨(text_after (c :: behind) ahead).trans (by simp [text]),
      offset_after (c :: behind) ahead⟩
  · simp [next?] at h

theorem previous?_counts {place before : Place} (h : place.previous? = some before) :
    before.text = place.text ∧ place.offset = before.offset + 1 := by
  rcases place with text | ⟨behind, c, ahead⟩ | behind
  · simp [previous?] at h
  · obtain rfl := Option.some.inj h
    exact ⟨text_before (c :: ahead) behind,
      congrArg (· + 1) (offset_before (c :: ahead) behind).symm⟩
  · obtain rfl := Option.some.inj h
    exact ⟨(text_before [] behind).trans (List.append_nil _),
      congrArg (· + 1) (offset_before [] behind).symm⟩

theorem next?_of_spot {place : Place} {c : Char} (h : place.spot = .at c) :
    ∃ after, place.next? = some after := by
  cases place <;> simp_all [spot, next?]

theorem previous?_of_spot {place : Place} {c : Char} (h : place.spot = .at c) :
    ∃ before, place.previous? = some before := by
  cases place <;> simp_all [spot, previous?]

/-! ## Passing spaces -/

theorem passSpaces_cons_space (behind ahead : List Char) :
    (after behind (' ' :: ahead)).passSpaces = (after (' ' :: behind) ahead).passSpaces := by
  simp [passSpaces, span_after]

theorem passSpaces_stays (behind : List Char) (h : ahead.head? ≠ some ' ') :
    (after behind ahead).passSpaces = after behind ahead := by
  cases ahead with
  | nil => rfl
  | cons c ahead => simp [passSpaces, span_after, show c ≠ ' ' by simpa using h]

theorem passSpacesBack_before (ahead behind : List Char) :
    (before ahead behind).passSpacesBack = backOverSpaces ahead behind := by
  cases behind <;> rfl

theorem backOverSpaces_stays (ahead : List Char) (h : behind.head? ≠ some ' ') :
    backOverSpaces ahead behind = before ahead behind := by
  cases behind with
  | nil => rfl
  | cons c behind => simp [backOverSpaces, before, show c ≠ ' ' by simpa using h]

theorem text_passSpaces (behind ahead : List Char) :
    (after behind ahead).passSpaces.text = behind.reverse ++ ahead := by
  rw [passSpaces, span_after, text_after, List.reverse_append, List.reverse_reverse,
    List.append_assoc, List.takeWhile_append_dropWhile]

theorem text_backOverSpaces (ahead behind : List Char) :
    (backOverSpaces ahead behind).text = behind.reverse ++ ahead := by
  induction behind generalizing ahead with
  | nil => rfl
  | cons c behind ih =>
    rw [backOverSpaces]
    split
    · rw [ih, List.reverse_cons, List.append_assoc]
      rfl
    · simp [text]

end Place

namespace Cursor

theorem skipsSpaces_passSpaces (cursor : Cursor) :
    cursor.passSpaces.skipsSpaces = cursor.skipsSpaces := by
  rcases cursor with ⟨place, skips | skips⟩ <;> rfl

theorem skipsSpaces_passSpacesBack (cursor : Cursor) :
    cursor.passSpacesBack.skipsSpaces = cursor.skipsSpaces := by
  rcases cursor with ⟨place, skips | skips⟩ <;> rfl

theorem text_passSpaces (cursor : Cursor) : cursor.passSpaces.text = cursor.text := by
  rcases cursor with ⟨place, skips | skips⟩
  · rfl
  · obtain ⟨behind, ahead, henter⟩ := place.enter_eq_after
    change place.enter.passSpaces.text = place.text
    rw [← place.text_enter, henter, Place.text_passSpaces, Place.text_after]

theorem text_passSpacesBack (cursor : Cursor) : cursor.passSpacesBack.text = cursor.text := by
  rcases cursor with ⟨place, skips | skips⟩
  · rfl
  · obtain ⟨ahead, behind, henter⟩ := place.enterBack_eq_before
    change place.enterBack.passSpacesBack.text = place.text
    rw [← place.text_enterBack, henter, Place.passSpacesBack_before, Place.text_backOverSpaces,
      Place.text_before]

/-- A character is accepted where it stands behind the spaces, and it is passed by one move. -/
theorem accept?_eq (cursor : Cursor) (target : Char) : cursor.accept? target =
    if cursor.passSpaces.current = .at target then
      cursor.passSpaces.place.next?.map fun place => { cursor with place }
    else none := by
  unfold accept? current
  cases hplace : cursor.passSpaces.place <;>
    simp [hplace, skipsSpaces_passSpaces, Place.spot, Place.next?]

theorem acceptBack?_eq (cursor : Cursor) (target : Char) : cursor.acceptBack? target =
    if cursor.passSpacesBack.current = .at target then
      cursor.passSpacesBack.place.previous?.map fun place => { cursor with place }
    else none := by
  unfold acceptBack? current
  cases hplace : cursor.passSpacesBack.place <;>
    simp [hplace, skipsSpaces_passSpacesBack, Place.spot, Place.previous?]

theorem hasNext_eq (cursor : Cursor) :
    cursor.hasNext = decide (cursor.offset < cursor.text.length) := by
  rcases cursor with ⟨text | ⟨behind, c, ahead⟩ | behind, skips⟩
  · cases text <;> simp [hasNext, offset, Cursor.text, Place.offset, Place.text]
  · cases ahead <;> simp [hasNext, offset, Cursor.text, Place.offset, Place.text]
  · simp [hasNext, offset, Cursor.text, Place.offset, Place.text]

theorem hasPrevious_eq (cursor : Cursor) : cursor.hasPrevious = decide (1 < cursor.offset) := by
  rcases cursor with ⟨text | ⟨behind, c, ahead⟩ | behind, skips⟩
  · rfl
  · cases behind <;> simp [hasPrevious, offset, Place.offset]
  · cases behind <;> simp [hasPrevious, offset, Place.offset]

end Cursor

/-! ## What is asked of a cursor -/

/-- A move or a question in one of the two directions. -/
inductive Scan where
  | next
  | previous
  | accept (target : Char)
  | acceptBack (target : Char)
  | hasNext
  | hasPrevious
  deriving DecidableEq, Repr

/-- Whether a scan succeeds, and where it leaves the cursor. -/
def Scan.run : Scan → Cursor → Bool × Cursor
  | next, cursor =>
    match cursor.next with
    | .ok after => (true, after)
    | .error _ => (false, cursor)
  | previous, cursor =>
    match cursor.previous with
    | .ok after => (true, after)
    | .error _ => (false, cursor)
  | accept target, cursor => ((cursor.accept? target).isSome, (cursor.accept? target).getD cursor)
  | acceptBack target, cursor =>
    ((cursor.acceptBack? target).isSome, (cursor.acceptBack? target).getD cursor)
  | hasNext, cursor => (cursor.hasNext, cursor)
  | hasPrevious, cursor => (cursor.hasPrevious, cursor)

theorem Scan.run_next (cursor : Cursor) : next.run cursor =
    (cursor.place.next?.isSome,
      { cursor with place := cursor.place.next?.getD cursor.place }) := by
  cases hnext : cursor.place.next? <;> simp [run, Cursor.next, hnext]

theorem Scan.run_previous (cursor : Cursor) : previous.run cursor =
    (cursor.place.previous?.isSome,
      { cursor with place := cursor.place.previous?.getD cursor.place }) := by
  cases hprevious : cursor.place.previous? <;> simp [run, Cursor.previous, hprevious]

/-! ## Pointers -/

/-- A cursor as the number of its place: zero before the text, the length plus one past it. -/
structure Pointer where
  text : List Char
  offset : Nat
  skipsSpaces : Bool
  deriving DecidableEq, Repr

namespace Pointer

/-- What lies under a pointer. A character that the text does not have is a fault. -/
def spot? (pointer : Pointer) : Option Spot :=
  match pointer.offset with
  | 0 => some .beforeStart
  | index + 1 =>
    if pointer.text.length < index + 1 then some .pastEnd else (pointer.text[index]?).map .at

def forward (pointer : Pointer) : Pointer := { pointer with offset := pointer.offset + 1 }

/-- One place back. There is none in front of the first: that is a fault. -/
def back? (pointer : Pointer) : Option Pointer :=
  match pointer.offset with
  | 0 => none
  | offset + 1 => some { pointer with offset }

theorem le_length_of_spot? {pointer : Pointer} {c : Char} (h : pointer.spot? = some (.at c)) :
    pointer.offset ≤ pointer.text.length := by
  unfold spot? at h
  split at h
  · simp at h
  · split at h
    · simp at h
    · omega

theorem offset_of_back? {pointer before : Pointer} (h : pointer.back? = some before) :
    pointer.offset = before.offset + 1 := by
  unfold back? at h
  split at h
  · simp at h
  · next hoffset =>
    obtain rfl := Option.some.inj h
    exact hoffset

/-- Goes forward as long as there is a space under the pointer. -/
def overSpaces (pointer : Pointer) : Option Pointer :=
  match _ : pointer.spot? with
  | none => none
  | some spot => if spot = .at ' ' then pointer.forward.overSpaces else some pointer
termination_by pointer.text.length + 1 - pointer.offset
decreasing_by
  subst spot
  have := le_length_of_spot? (by assumption)
  simp only [forward]
  omega

/-- Goes back as long as there is a space under the pointer. -/
def backOverSpaces (pointer : Pointer) : Option Pointer :=
  match pointer.spot? with
  | none => none
  | some spot =>
    if spot = .at ' ' then
      match _ : pointer.back? with
      | none => none
      | some before => before.backOverSpaces
    else some pointer
termination_by pointer.offset
decreasing_by
  have := offset_of_back? (by assumption)
  omega

theorem backOverSpaces_space {pointer before : Pointer} (hspot : pointer.spot? = some (.at ' '))
    (hback : pointer.back? = some before) : pointer.backOverSpaces = before.backOverSpaces := by
  rw [backOverSpaces, hspot]
  simp only [↓reduceIte]
  split
  · next hnone => simp [hback] at hnone
  · next before' hsome =>
    obtain rfl := Option.some.inj (hback.symm.trans hsome)
    rfl

/-- Passes spaces, if the pointer skips them; it is not before the start afterwards. -/
def passSpaces (pointer : Pointer) : Option Pointer :=
  if pointer.skipsSpaces then
    { pointer with offset := if pointer.offset = 0 then 1 else pointer.offset }.overSpaces
  else some pointer

/-- Passes spaces backward, if the pointer skips them. -/
def passSpacesBack (pointer : Pointer) : Option Pointer :=
  if pointer.skipsSpaces then
    let last := pointer.text.length
    { pointer with offset := if last < pointer.offset then last else pointer.offset }.backOverSpaces
  else some pointer

/-- A pointer that finds another character is put back to where it was. -/
def scan? : Scan → Pointer → Option (Bool × Pointer)
  | .next, pointer =>
    if pointer.text.length < pointer.offset then some (false, pointer)
    else some (true, pointer.forward)
  | .previous, pointer =>
    if pointer.offset = 0 then some (false, pointer) else do return (true, ← pointer.back?)
  | .accept target, pointer => do
    let moved ← pointer.passSpaces
    if (← moved.spot?) = .at target then return (true, moved.forward)
    else return (false, { moved with offset := pointer.offset })
  | .acceptBack target, pointer => do
    let moved ← pointer.passSpacesBack
    if (← moved.spot?) = .at target then return (true, ← moved.back?)
    else return (false, { moved with offset := pointer.offset })
  | .hasNext, pointer => some (decide (pointer.offset < pointer.text.length), pointer)
  | .hasPrevious, pointer => some (decide (1 < pointer.offset), pointer)

/-! ## A pointer does what its cursor does -/

/-- The pointer that has the number of a place in its text. -/
def ofPlace (place : Place) (skipsSpaces : Bool) : Pointer :=
  ⟨place.text, place.offset, skipsSpaces⟩

def ofCursor (cursor : Cursor) : Pointer := ofPlace cursor.place cursor.skipsSpaces

variable {skips : Bool}

theorem spot?_ofPlace (place : Place) : (ofPlace place skips).spot? = some place.spot := by
  rcases place with text | ⟨behind, c, ahead⟩ | behind
  · rfl
  · simp [ofPlace, spot?, Place.text, Place.offset, Place.spot]
  · simp [ofPlace, spot?, Place.text, Place.offset, Place.spot]

theorem forward_ofPlace {place after : Place} (h : place.next? = some after) :
    (ofPlace place skips).forward = ofPlace after skips := by
  obtain ⟨htext, hoffset⟩ := Place.next?_counts h
  rw [ofPlace, ofPlace, htext, hoffset]
  rfl

theorem back?_ofPlace {place before : Place} (h : place.previous? = some before) :
    (ofPlace place skips).back? = some (ofPlace before skips) := by
  obtain ⟨htext, hoffset⟩ := Place.previous?_counts h
  rw [ofPlace, ofPlace, htext, hoffset]
  rfl

theorem overSpaces_ofPlace (behind ahead : List Char) :
    (ofPlace (.after behind ahead) skips).overSpaces =
      some (ofPlace (Place.after behind ahead).passSpaces skips) := by
  induction ahead generalizing behind with
  | nil =>
    rw [overSpaces, spot?_ofPlace]
    rfl
  | cons c ahead ih =>
    rw [overSpaces, spot?_ofPlace]
    by_cases hc : c = ' '
    · subst hc
      have hnext : (Place.after behind (' ' :: ahead)).next? =
          some (.after (' ' :: behind) ahead) := rfl
      rw [Place.passSpaces_cons_space, ← ih, ← forward_ofPlace hnext]
      rfl
    · rw [Place.passSpaces_stays behind (by simpa using hc)]
      simp [Place.after, Place.spot, hc]

theorem backOverSpaces_ofPlace (ahead behind : List Char) :
    (ofPlace (.before ahead behind) skips).backOverSpaces =
      some (ofPlace (Place.backOverSpaces ahead behind) skips) := by
  induction behind generalizing ahead with
  | nil =>
    rw [backOverSpaces, spot?_ofPlace]
    rfl
  | cons c behind ih =>
    by_cases hc : c = ' '
    · subst hc
      have hprevious : (Place.before ahead (' ' :: behind)).previous? =
        some (.before (' ' :: ahead) behind) := rfl
      rw [backOverSpaces_space (spot?_ofPlace _) (back?_ofPlace hprevious), ih]
      rfl
    · rw [Place.backOverSpaces_stays ahead (by simpa using hc), backOverSpaces, spot?_ofPlace]
      simp [Place.before, Place.spot, hc]

theorem passSpaces_ofCursor (cursor : Cursor) :
    (ofCursor cursor).passSpaces = some (ofCursor cursor.passSpaces) := by
  rcases cursor with ⟨place, skips | skips⟩
  · rfl
  · obtain ⟨behind, ahead, henter⟩ := place.enter_eq_after
    have hover : (ofPlace (.after behind ahead) true).overSpaces = _ :=
      overSpaces_ofPlace behind ahead
    rw [← henter, ofPlace, place.text_enter, place.offset_enter] at hover
    exact hover

theorem passSpacesBack_ofCursor (cursor : Cursor) :
    (ofCursor cursor).passSpacesBack = some (ofCursor cursor.passSpacesBack) := by
  rcases cursor with ⟨place, skips | skips⟩
  · rfl
  · obtain ⟨ahead, behind, henter⟩ := place.enterBack_eq_before
    have hover : (ofPlace (.before ahead behind) true).backOverSpaces = _ :=
      backOverSpaces_ofPlace ahead behind
    rw [← Place.passSpacesBack_before, ← henter, ofPlace, place.text_enterBack,
      place.offset_enterBack] at hover
    exact hover

theorem spot?_ofCursor (cursor : Cursor) : (ofCursor cursor).spot? = some cursor.current :=
  spot?_ofPlace cursor.place

theorem reset_ofCursor {moved cursor : Cursor} (htext : moved.text = cursor.text)
    (hskips : moved.skipsSpaces = cursor.skipsSpaces) :
    { ofCursor moved with offset := (ofCursor cursor).offset } = ofCursor cursor := by
  have hplace : moved.place.text = cursor.place.text := htext
  simp [ofCursor, ofPlace, hplace, hskips]

theorem scan?_accept (target : Char) (cursor : Cursor) : (ofCursor cursor).scan? (.accept target) =
    some (((Scan.accept target).run cursor).1, ofCursor ((Scan.accept target).run cursor).2) := by
  simp only [scan?, Scan.run, Cursor.accept?_eq, passSpaces_ofCursor, Option.bind_eq_bind,
    Option.bind_some, spot?_ofCursor]
  by_cases hspot : cursor.passSpaces.current = .at target
  · obtain ⟨after, hafter⟩ := Place.next?_of_spot hspot
    have hforward : (ofCursor cursor.passSpaces).forward =
        ofCursor { cursor with place := after } := by
      rw [ofCursor, forward_ofPlace hafter, cursor.skipsSpaces_passSpaces]
      rfl
    simp [hspot, hafter, hforward]
  · simp [hspot, reset_ofCursor cursor.text_passSpaces cursor.skipsSpaces_passSpaces]

theorem scan?_acceptBack (target : Char) (cursor : Cursor) :
    (ofCursor cursor).scan? (.acceptBack target) =
      some (((Scan.acceptBack target).run cursor).1,
        ofCursor ((Scan.acceptBack target).run cursor).2) := by
  simp only [scan?, Scan.run, Cursor.acceptBack?_eq, passSpacesBack_ofCursor, Option.bind_eq_bind,
    Option.bind_some, spot?_ofCursor]
  by_cases hspot : cursor.passSpacesBack.current = .at target
  · obtain ⟨before, hbefore⟩ := Place.previous?_of_spot hspot
    have hback : (ofCursor cursor.passSpacesBack).back? =
        some (ofCursor { cursor with place := before }) := by
      rw [ofCursor, back?_ofPlace hbefore, cursor.skipsSpaces_passSpacesBack]
      rfl
    simp [hspot, hbefore, hback]
  · simp [hspot, reset_ofCursor cursor.text_passSpacesBack cursor.skipsSpaces_passSpacesBack]

/-- Whatever is asked of a cursor, the pointer with its number answers alike and ends at the number
of the place where the cursor ends. -/
theorem scan?_ofCursor (scan : Scan) (cursor : Cursor) : (ofCursor cursor).scan? scan =
    some ((scan.run cursor).1, ofCursor (scan.run cursor).2) := by
  cases scan with
  | next =>
    rw [Scan.run_next]
    cases hnext : cursor.place.next? with
    | none => exact if_pos (Place.next?_eq_none.1 hnext)
    | some after =>
      have hroom : ¬ cursor.place.text.length < cursor.place.offset := by
        simp [← Place.next?_eq_none, hnext]
      rw [scan?, ofCursor, forward_ofPlace hnext]
      exact if_neg hroom
  | previous =>
    rw [Scan.run_previous]
    cases hprevious : cursor.place.previous? with
    | none => exact if_pos (Place.previous?_eq_none.1 hprevious)
    | some before =>
      have hroom : ¬ cursor.place.offset = 0 := by simp [← Place.previous?_eq_none, hprevious]
      rw [scan?, ofCursor, back?_ofPlace hprevious]
      exact if_neg hroom
  | accept target => exact scan?_accept target cursor
  | acceptBack target => exact scan?_acceptBack target cursor
  | hasNext =>
    simp only [scan?, Scan.run, cursor.hasNext_eq]
    rfl
  | hasPrevious =>
    simp only [scan?, Scan.run, cursor.hasPrevious_eq]
    rfl

end Pointer

end Reckoner
