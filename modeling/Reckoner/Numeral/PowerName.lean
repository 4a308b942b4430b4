import Std.Data.HashMap
import Reckoner.Text.Letter
import Reckoner.Word

/-!
# Latin names of the powers of a thousand

The power with index `i` is `1000 ^ (i + 1)`. Its name is put together from the digits of `i` in
base one thousand: each digit gives a segment such as `centilli`, and `on` ends the name.
-/

namespace Reckoner.Numeral

/-! ## Segments -/

/-- What a tens or hundreds fragment asks of the units in front of it. -/
inductive Marker where
  | s
  | x
  | m
  | n
  deriving DecidableEq, Repr

structure Fragment where
  text : String
  markers : List Marker
  deriving DecidableEq, Repr

def units : List String :=
  ["", "un", "duo", "tre", "quattuor", "quinqua", "se", "septe", "octo", "nove"]

def tens : List Fragment :=
  [⟨"", []⟩, ⟨"deci", [.n]⟩, ⟨"viginti", [.m, .s]⟩, ⟨"triginta", [.n, .s]⟩,
    ⟨"quadraginta", [.n, .s]⟩, ⟨"quinquaginta", [.n, .s]⟩, ⟨"sexaginta", [.n]⟩,
    ⟨"septuaginta", [.n]⟩, ⟨"octoginta", [.m, .x]⟩, ⟨"nonaginta", []⟩]

def hundreds : List Fragment :=
  [⟨"", []⟩, ⟨"centi", [.n, .x]⟩, ⟨"ducenti", [.n]⟩, ⟨"trecenti", [.n, .s]⟩,
    ⟨"quadringenti", [.n, .s]⟩, ⟨"quingenti", [.n, .s]⟩, ⟨"sescenti", [.n]⟩,
    ⟨"septingenti", [.n]⟩, ⟨"octingenti", [.m, .x]⟩, ⟨"nongenti", []⟩]

/-- The names of the digits below ten, which stand alone. -/
def aloneStems : List String :=
  ["ni", "mi", "bi", "tri", "quadri", "quinti", "sexti", "septi", "octi", "noni"]

/-- A sound added to the units in front of a marked fragment. -/
structure EuphonyRule where
  units : String
  marker : Marker
  replacement : String
  deriving DecidableEq, Repr

def euphonyRules : List EuphonyRule :=
  [⟨"tre", .s, "tres"⟩, ⟨"tre", .x, "tres"⟩, ⟨"se", .s, "ses"⟩, ⟨"se", .x, "sex"⟩,
    ⟨"septe", .m, "septem"⟩, ⟨"septe", .n, "septen"⟩, ⟨"nove", .m, "novem"⟩,
    ⟨"nove", .n, "noven"⟩]

/-- The units as they sound in front of a fragment with these markers. -/
def euphony (units : String) (following : List Marker) : String :=
  match euphonyRules.find? fun r => r.units == units && following.contains r.marker with
  | some rule => rule.replacement
  | none => units

/-- The units are changed by the tens, or by the hundreds where there are no tens. -/
def segmentStem (group : Nat) : List Char :=
  if group < 10 then (aloneStems.getD group "").toList
  else
    let ten := tens.getD (group / 10 % 10) ⟨"", []⟩
    let hundred := hundreds.getD (group / 100) ⟨"", []⟩
    let following := if ten.text.isEmpty then hundred else ten
    (euphony (units.getD (group % 10) "") following.markers).toList ++ ten.text.toList ++
      hundred.text.toList

def isVowel (c : Char) : Bool := ['a', 'e', 'i', 'o', 'u'].contains c

/-- What every segment ends with. -/
def segmentEnd : List Char := ['i', 'l', 'l', 'i']

/-- The segment of a digit in base one thousand. A last vowel of the stem gives way. -/
def segment (group : Nat) : List Char :=
  let stem := segmentStem (group % 1000)
  let stem := if stem.getLast?.any isVowel then stem.dropLast else stem
  stem ++ segmentEnd

/-! ## Names -/

/-- The digits in base one thousand, from the most significant on. -/
def thousands (index : Nat) : List Nat :=
  if index < 1000 then [index] else thousands (index / 1000) ++ [index % 1000]
termination_by index
decreasing_by omega

/-- The name of a power of a thousand; the first one is not Latin. -/
def powerName (index : Nat) : String :=
  if index = 0 then "Thousand"
  else String.ofList (Text.capitalize ((thousands index).flatMap segment ++ ['o', 'n']))

/-! ## Reading names -/

/-- Cuts after every end of a segment; `taken` is the segment begun, backward. -/
def cutSegments (taken : List Char) : List Char → Option (List (List Char))
  | 'i' :: 'l' :: 'l' :: 'i' :: rest =>
    (cutSegments [] rest).map ((taken.reverse ++ segmentEnd) :: ·)
  | c :: rest => cutSegments (c :: taken) rest
  | [] => if taken.isEmpty then some [] else none

/-- Every segment with its digit. -/
def segmentValues : Std.HashMap String Nat :=
  (List.range 1000).foldl (fun known group => known.insert (String.ofList (segment group)) group) ∅

/-- Appends the digit of a segment to an index, unless that leaves the unsigned words. -/
def appendSegment? (index : Nat) (segment : List Char) : Option Nat := do
  let group ← segmentValues[String.ofList segment]?
  let index := index * 1000 + group
  if index < Word.count then some index else none

/-- The index of a Latin name, in any letter case. Only names as they are given out are read. -/
def readPowerName? (name : List Char) : Option Nat := do
  let body ← Text.dropEnding? ['o', 'n'] (Text.lower name)
  let segments ← cutSegments [] body
  let index ← segments.foldlM appendSegment? 0
  if 0 < index && Text.sameLetters (powerName index).toList name then some index else none

end Reckoner.Numeral
