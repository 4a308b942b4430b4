import Reckoner.Proofs.Cursor.Offsets

/-!
# Histories of cursors

Whatever is done with a cursor, it stays in its text, and the pointer that is asked for the same
never meets a fault: it keeps the number of the cursor's place all along, the marked places
included.
-/

namespace Reckoner

/-! ## Requests -/

/-- What is done with a cursor. A place is marked to come back to it later. -/
inductive Request where
  | scan (asked : Scan)
  | passSpaces
  | mark
  | reset (index : Nat)
  deriving DecidableEq, Repr

/-- A cursor with the places marked so far. -/
structure Session where
  cursor : Cursor
  marks : List Cursor

/-- Only a place that was marked can be come back to. -/
def Request.run : Request → Session → Session
  | scan asked, session => { session with cursor := (asked.run session.cursor).2 }
  | passSpaces, session => { session with cursor := session.cursor.passSpaces }
  | mark, session => { session with marks := session.marks ++ [session.cursor] }
  | reset index, session =>
    { session with cursor := (session.marks[index]?).getD session.cursor }

def Session.after (session : Session) (requests : List Request) : Session :=
  requests.foldl (fun session request => request.run session) session

/-- A pointer with the numbers marked so far. -/
structure Trail where
  pointer : Pointer
  marks : List Nat

def Request.run? : Request → Trail → Option Trail
  | scan asked, trail => do
    let (_, pointer) ← trail.pointer.scan? asked
    return { trail with pointer }
  | passSpaces, trail => do
    let pointer ← trail.pointer.passSpaces
    return { trail with pointer }
  | mark, trail => some { trail with marks := trail.marks ++ [trail.pointer.offset] }
  | reset index, trail =>
    let offset := (trail.marks[index]?).getD trail.pointer.offset
    some { trail with pointer := { trail.pointer with offset } }

def Trail.after? (trail : Trail) (requests : List Request) : Option Trail :=
  requests.foldlM (fun trail request => request.run? trail) trail

/-- The same session by numbers. -/
def Session.trail (session : Session) : Trail :=
  ⟨.ofCursor session.cursor, session.marks.map Cursor.offset⟩

/-! ## Staying in the text -/

/-- A cursor that is somewhere in a text. -/
def Cursor.Over (text : List Char) (skips : Bool) (cursor : Cursor) : Prop :=
  cursor.text = text ∧ cursor.skipsSpaces = skips

variable {text : List Char} {skips : Bool} {cursor : Cursor} {session : Session}

theorem Cursor.Over.next? (h : cursor.Over text skips) {place after : Place}
    (hplace : place.text = cursor.text) (hafter : place.next? = some after) :
    { cursor with place := after }.Over text skips :=
  ⟨(Place.next?_counts hafter).1.trans (hplace.trans h.1), h.2⟩

theorem Cursor.Over.previous? (h : cursor.Over text skips) {place before : Place}
    (hplace : place.text = cursor.text) (hbefore : place.previous? = some before) :
    { cursor with place := before }.Over text skips :=
  ⟨(Place.previous?_counts hbefore).1.trans (hplace.trans h.1), h.2⟩

theorem Cursor.Over.passSpaces (h : cursor.Over text skips) : cursor.passSpaces.Over text skips :=
  ⟨cursor.text_passSpaces.trans h.1, cursor.skipsSpaces_passSpaces.trans h.2⟩

theorem Cursor.Over.scan (h : cursor.Over text skips) (scan : Scan) :
    (scan.run cursor).2.Over text skips := by
  cases scan with
  | next =>
    rw [Scan.run_next]
    cases hnext : cursor.place.next? with
    | none => exact h
    | some after => exact h.next? rfl hnext
  | previous =>
    rw [Scan.run_previous]
    cases hprevious : cursor.place.previous? with
    | none => exact h
    | some before => exact h.previous? rfl hprevious
  | accept target =>
    simp only [Scan.run, cursor.accept?_eq target]
    split
    · cases hnext : cursor.passSpaces.place.next? with
      | none => exact h
      | some after => exact h.next? cursor.text_passSpaces hnext
    · exact h
  | acceptBack target =>
    simp only [Scan.run, cursor.acceptBack?_eq target]
    split
    · cases hprevious : cursor.passSpacesBack.place.previous? with
      | none => exact h
      | some before => exact h.previous? cursor.text_passSpacesBack hprevious
    · exact h
  | hasNext => exact h
  | hasPrevious => exact h

theorem Scan.stays_of_fails (scan : Scan) (cursor : Cursor) (h : (scan.run cursor).1 = false) :
    (scan.run cursor).2 = cursor := by
  cases scan with
  | next => simp_all [run_next]
  | previous => simp_all [run_previous]
  | accept target => simp_all [run]
  | acceptBack target => simp_all [run]
  | hasNext => rfl
  | hasPrevious => rfl

/-- All places of a session are in one text. -/
structure Session.Over (text : List Char) (skips : Bool) (session : Session) : Prop where
  cursor : session.cursor.Over text skips
  marks : ∀ mark ∈ session.marks, mark.Over text skips

theorem Session.Over.run (h : session.Over text skips) (request : Request) :
    (request.run session).Over text skips := by
  cases request with
  | scan asked => exact ⟨h.cursor.scan asked, h.marks⟩
  | passSpaces => exact ⟨h.cursor.passSpaces, h.marks⟩
  | mark =>
    refine ⟨h.cursor, fun mark hmark => ?_⟩
    obtain hmark | rfl := by simpa [Request.run] using hmark
    · exact h.marks mark hmark
    · exact h.cursor
  | reset index =>
    refine ⟨?_, h.marks⟩
    cases hmark : session.marks[index]? with
    | none => simpa [Request.run, hmark] using h.cursor
    | some mark => simpa [Request.run, hmark] using h.marks mark (List.mem_of_getElem? hmark)

theorem Session.Over.after (h : session.Over text skips) (requests : List Request) :
    (session.after requests).Over text skips := by
  induction requests generalizing session with
  | nil => exact h
  | cons request requests ih => exact ih (h.run request)

/-! ## Pointers without faults -/

theorem Session.Over.run? (h : session.Over text skips) (request : Request) :
    request.run? session.trail = some (request.run session).trail := by
  cases request with
  | scan asked => simp [Request.run?, Request.run, Session.trail, Pointer.scan?_ofCursor]
  | passSpaces => simp [Request.run?, Request.run, Session.trail, Pointer.passSpaces_ofCursor]
  | mark =>
    simp [Request.run?, Request.run, Session.trail, Pointer.ofCursor, Pointer.ofPlace,
      Cursor.offset]
  | reset index =>
    cases hmark : session.marks[index]? with
    | none => simp [Request.run?, Request.run, Session.trail, hmark]
    | some mark =>
      have hmarked := h.marks mark (List.mem_of_getElem? hmark)
      have hreset : { Pointer.ofCursor session.cursor with offset := mark.offset } =
          Pointer.ofCursor mark :=
        Pointer.reset_ofCursor (h.cursor.1.trans hmarked.1.symm) (h.cursor.2.trans hmarked.2.symm)
      simp [Request.run?, Request.run, Session.trail, hmark, hreset]

theorem Session.Over.after? (h : session.Over text skips) (requests : List Request) :
    session.trail.after? requests = some (session.after requests).trail := by
  induction requests generalizing session with
  | nil => rfl
  | cons request requests ih =>
    rw [Trail.after?, List.foldlM_cons, h.run? request]
    exact ih (h.run request)

/-- A cursor stays in its text, whatever is done with it: it counts at most one place more than the
text has characters and one before them, the two ends are where no character is under it, and a scan
that fails leaves it where it was. A pointer does the same by numbers, without a fault. -/
theorem Session.after_stays_in_text (text : List Char) (skips : Bool) (requests : List Request) :
    let session := Session.after ⟨.ofText text skips, []⟩ requests
    let cursor := session.cursor
    Trail.after? ⟨⟨text, 0, skips⟩, []⟩ requests = some session.trail ∧
      cursor.text = text ∧ cursor.offset ≤ text.length + 1 ∧
      (cursor.current = .beforeStart ↔ cursor.offset = 0) ∧
      (cursor.current = .pastEnd ↔ cursor.offset = text.length + 1) ∧
      ∀ scan : Scan,
        session.trail.pointer.scan? scan =
          some ((scan.run cursor).1, .ofCursor (scan.run cursor).2) ∧
        ((scan.run cursor).1 = false → (scan.run cursor).2 = cursor) := by
  intro session cursor
  have hstart : Session.Over text skips ⟨.ofText text skips, []⟩ := ⟨⟨rfl, rfl⟩, by simp⟩
  have hover : cursor.Over text skips := (hstart.after requests).cursor
  have htext : cursor.place.text = text := hover.1
  refine ⟨hstart.after? requests, htext, ?_, Place.spot_eq_beforeStart, ?_, fun scan => ⟨?_, ?_⟩⟩
  · rw [← htext]
    exact cursor.place.offset_le
  · rw [← htext]
    exact Place.spot_eq_pastEnd
  · exact Pointer.scan?_ofCursor scan cursor
  · exact scan.stays_of_fails cursor

end Reckoner
