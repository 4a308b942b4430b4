import Reckoner.Numeral.PowerName

/-!
# Names already in use

Names of powers are remembered in both directions, so that each is made up or taken apart once.
-/

namespace Reckoner.Numeral

structure Names where
  /-- The name of an index. -/
  names : Std.HashMap Nat String
  /-- The index of a name in lower case. -/
  indices : Std.HashMap String Nat

namespace Names

def empty : Names := ⟨∅, ∅⟩

/-- The number of names remembered. -/
def size (known : Names) : Nat := known.names.size

/-- What is remembered stays as it is. -/
def remember (known : Names) (index : Nat) (name key : String) : Names :=
  ⟨known.names.insertIfNew index name, known.indices.insertIfNew key index⟩

end Names

/-- A computation that may remember names. -/
abbrev Naming : Type → Type := StateM Names

def lowerText (name : String) : String := String.ofList (Text.lower name.toList)

def nameOf (index : Nat) : Naming String := do
  let known ← get
  match known.names[index]? with
  | some name => return name
  | none =>
    let name := powerName index
    set (known.remember index name (lowerText name))
    return name

/-- The index of a name, in any letter case. -/
def indexOf? (name : List Char) : Naming (Option Nat) := do
  let key := Text.lower name
  let known ← get
  match known.indices[String.ofList key]? with
  | some index => return some index
  | none =>
    match readPowerName? key with
    | none => return none
    | some index =>
      set (known.remember index (powerName index) (String.ofList key))
      return some index

end Reckoner.Numeral
