import VectorImage.Xml.Doctype

/-!
The values of attributes. Blanks become spaces, a line break counts once, and entities are
replaced by their texts, in which the references are replaced in turn. Entities nest ten deep at
most, and the text of one refers to others no more than 255 times.
-/

set_option autoImplicit false
set_option relaxedAutoImplicit false

namespace VectorImage

namespace Xml

open TextScan

/-- How deep entities nest. -/
def entityLevels : Nat := 10

/-- How often the text of an entity refers to others, those further down included. -/
def entityUses : Nat := 255

/-- Where references stand: what entities stand for, whether one has been entered, and the number
of references within it so far. -/
structure Expansion where
  entities : Entities
  inEntity : Bool
  uses : Nat

def Expansion.initial (entities : Entities) : Expansion := ⟨entities, false, 0⟩

/-- Enter an entity; the first entered allows any number of references to it. -/
def Expansion.enter? (x : Expansion) : Option Expansion :=
  if !x.inEntity then some { x with inEntity := true }
  else if x.uses < entityUses then some { x with uses := x.uses + 1 }
  else none

/-- The number of references to go on with after an entity. -/
def Expansion.leave (x : Expansion) (uses : Nat) : Expansion :=
  { x with uses := if x.inEntity then uses else 0 }

/-- A value as it is read in: the characters so far, last first, and the references within the
entity that has been entered. -/
abbrev ValueDraft := List Char × Expansion

/-- Replace references in a value, given how to replace those in the text of an entity. A
character reference is taken as it stands, except that within an entity it counts like any other
character and must not be an opening bracket. -/
def expandWith (expand : Expansion → List Char → Option (List Char × Nat)) (x : Expansion)
    (text : List Char) : Option (List Char × Nat) :=
  let blankToSpace (c : Char) : Char := if isBlank c then ' ' else c
  let step (s : ValueDraft) : TextScan (Option ValueDraft) := do
    match ← Parser.next? with
    | none => return none
    | some '&' =>
      match ← reference with
      | .char c =>
        if !s.2.inEntity then return some (c :: s.1, s.2)
        if c = '<' then fault
        return some (blankToSpace c :: s.1, s.2)
      | .entity name =>
        let value ← orFault (s.2.entities.lookup name)
        let (inner, uses) ← orFault ((s.2.enter?).bind fun x => expand x value)
        return some (inner.reverse ++ s.1, s.2.leave uses)
    | some '\r' =>
      let _ ← accept '\n'
      return some (' ' :: s.1, s.2)
    | some c => return some (blankToSpace c :: s.1, s.2)
  (first? (Parser.iterate step ([], x)) text).map fun s => (s.1.reverse, s.2.uses)

/-- Replace references in a value, with so many levels of entities left to enter. -/
def expandValue : (levels : Nat) → Expansion → List Char → Option (List Char × Nat)
  | 0 => expandWith fun _ _ => none
  | levels + 1 => expandWith (expandValue levels)

/-- An attribute as it is written: name, and value between quotes. -/
def rawAttribute : TextScan (RawName × List Char) := do
  let name ← rawName
  skipBlanks
  expect '='
  skipBlanks
  let value ← quotedChars
  if value.contains '<' then fault
  return (name, value)

end Xml

end VectorImage
