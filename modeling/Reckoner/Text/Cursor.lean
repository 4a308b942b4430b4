/-!
# Cursors

A cursor stands on a character of a text, before its start or past its end. The text is kept
as what lies behind the place and what lies ahead of it, so no cursor can leave its text.
A cursor that skips spaces passes over them when it looks for a character.
-/

namespace Reckoner

/-- What lies under a cursor. -/
inductive Spot where
  | beforeStart
  | at (c : Char)
  | pastEnd
  deriving DecidableEq, Repr

def Spot.satisfies (p : Char → Bool) : Spot → Bool
  | .at c => p c
  | _ => false

/-- A place in a text. The characters behind it are listed from the nearest on. -/
inductive Place where
  | beforeStart (text : List Char)
  | on (behind : List Char) (current : Char) (ahead : List Char)
  | pastEnd (behind : List Char)
  deriving DecidableEq, Repr

namespace Place

def text : Place → List Char
  | beforeStart text => text
  | on behind current ahead => behind.reverse ++ current :: ahead
  | pastEnd behind => behind.reverse

/-- The places of a text counted from its start: zero before it, the length plus one past it. -/
def offset : Place → Nat
  | beforeStart _ => 0
  | on behind _ _ => behind.length + 1
  | pastEnd behind => behind.length + 1

def spot : Place → Spot
  | beforeStart _ => .beforeStart
  | on _ current _ => .at current
  | pastEnd _ => .pastEnd

/-- The characters from the place on. -/
def rest : Place → List Char
  | beforeStart text => text
  | on _ current ahead => current :: ahead
  | pastEnd _ => []

/-! ## Moving -/

/-- The place after the characters `behind`. -/
def after (behind : List Char) : List Char → Place
  | [] => pastEnd behind
  | current :: ahead => on behind current ahead

/-- The place before the characters `ahead`. -/
def before (ahead : List Char) : List Char → Place
  | [] => beforeStart ahead
  | current :: behind => on behind current ahead

def next? : Place → Option Place
  | beforeStart text => some (after [] text)
  | on behind current ahead => some (after (current :: behind) ahead)
  | pastEnd _ => none

def previous? : Place → Option Place
  | beforeStart _ => none
  | on behind current ahead => some (before (current :: ahead) behind)
  | pastEnd behind => some (before [] behind)

/-- The first character, for a place before the start. -/
def enter : Place → Place
  | beforeStart text => after [] text
  | place => place

/-- The last character, for a place past the end. -/
def enterBack : Place → Place
  | pastEnd behind => before [] behind
  | place => place

/-- Passes characters that `p` accepts, starting after `behind`, and collects them. -/
def spanAfter (p : Char → Bool) (behind : List Char) : List Char → List Char × Place
  | [] => ([], pastEnd behind)
  | c :: ahead =>
    if p c then
      let (taken, place) := spanAfter p (c :: behind) ahead
      (c :: taken, place)
    else ([], on behind c ahead)

/-- The characters from the place on that `p` accepts, and the place after them. -/
def span (p : Char → Bool) : Place → List Char × Place
  | on behind current ahead => spanAfter p behind (current :: ahead)
  | place => ([], place)

/-- Passes spaces forward. -/
def passSpaces (place : Place) : Place := (place.span (· == ' ')).2

/-- Passes spaces backward, starting before `ahead`. -/
def backOverSpaces (ahead : List Char) : List Char → Place
  | [] => beforeStart ahead
  | c :: behind => if c == ' ' then backOverSpaces (c :: ahead) behind else on behind c ahead

/-- Passes spaces backward. -/
def passSpacesBack : Place → Place
  | on behind current ahead => backOverSpaces ahead (current :: behind)
  | place => place

end Place

structure Cursor where
  place : Place
  skipsSpaces : Bool
  deriving DecidableEq, Repr

/-- A move that would leave the text, from the position of the cursor. -/
structure Exhausted where
  position : Nat
  deriving DecidableEq, Repr

def Exhausted.message (error : Exhausted) : String :=
  "Error at position " ++ toString error.position ++ ": No more characters to scan."

namespace Cursor

/-- A cursor before the start of a text. -/
def ofText (text : List Char) (skipsSpaces : Bool) : Cursor := ⟨.beforeStart text, skipsSpaces⟩

def text (cursor : Cursor) : List Char := cursor.place.text

def offset (cursor : Cursor) : Nat := cursor.place.offset

def current (cursor : Cursor) : Spot := cursor.place.spot

/-- The index of the current character in the text. -/
def position (cursor : Cursor) : Nat := cursor.offset - 1

def length (cursor : Cursor) : Nat := cursor.text.length

def hasNext (cursor : Cursor) : Bool :=
  match cursor.place with
  | .beforeStart text => !text.isEmpty
  | .on _ _ ahead => !ahead.isEmpty
  | .pastEnd _ => false

def hasPrevious (cursor : Cursor) : Bool :=
  match cursor.place with
  | .beforeStart _ => false
  | .on behind _ _ => !behind.isEmpty
  | .pastEnd behind => !behind.isEmpty

def next (cursor : Cursor) : Except Exhausted Cursor :=
  match cursor.place.next? with
  | some place => .ok { cursor with place }
  | none => .error ⟨cursor.position⟩

def previous (cursor : Cursor) : Except Exhausted Cursor :=
  match cursor.place.previous? with
  | some place => .ok { cursor with place }
  | none => .error ⟨cursor.position⟩

/-! ## Looking for a character -/

/-- Passes spaces, if the cursor skips them; it is not before the start afterwards. -/
def passSpaces (cursor : Cursor) : Cursor :=
  if cursor.skipsSpaces then { cursor with place := cursor.place.enter.passSpaces } else cursor

/-- Passes spaces backward, if the cursor skips them. -/
def passSpacesBack (cursor : Cursor) : Cursor :=
  if cursor.skipsSpaces then { cursor with place := cursor.place.enterBack.passSpacesBack }
  else cursor

/-- Moves over `target`, if that is the next character. -/
def accept? (cursor : Cursor) (target : Char) : Option Cursor :=
  let cursor := cursor.passSpaces
  match cursor.place with
  | .on behind current ahead =>
    if current = target then some { cursor with place := .after (current :: behind) ahead }
    else none
  | _ => none

/-- Moves back over `target`, if that is the next character backward. -/
def acceptBack? (cursor : Cursor) (target : Char) : Option Cursor :=
  let cursor := cursor.passSpacesBack
  match cursor.place with
  | .on behind current ahead =>
    if current = target then some { cursor with place := .before (current :: ahead) behind }
    else none
  | _ => none

/-- The next character, without moving. -/
def peek (cursor : Cursor) : Spot :=
  let place := cursor.place.enter
  (if cursor.skipsSpaces then place.passSpaces else place).spot

/-- Moves over the characters that `p` accepts, spaces included, and collects them. -/
def takeWhile (p : Char → Bool) (cursor : Cursor) : List Char × Cursor :=
  let (taken, place) := cursor.place.span p
  (taken, { cursor with place })

/-- The characters from one index to another, as far as the text has them. -/
def between (cursor : Cursor) (start stop : Nat) : List Char := (cursor.text.take stop).drop start

end Cursor

end Reckoner
