/-!
Where a file is: a text of names between slashes. Two locations are the same if they have the same
parts, so that repeated slashes, a slash at the end and single dots inside do not tell them apart;
the text is kept for messages.
-/

set_option autoImplicit false
set_option relaxedAutoImplicit false

namespace VectorImage

/-- A part of a location. -/
inductive LocationPart
  | root
  | current
  | parent
  | name (text : List Char)
  deriving DecidableEq, Inhabited

structure Location where
  text : String
  deriving Inhabited

namespace Location

/-- The part that a piece between slashes is; empty pieces and single dots are none. -/
def partOf? (piece : List Char) : Option LocationPart :=
  if piece.isEmpty || piece = ['.'] then none
  else if piece = ['.', '.'] then some .parent
  else some (.name piece)

/-- What a location starts from: the root, after a slash, or a dot of its own. -/
def origin : List Char → List LocationPart
  | '/' :: _ => [.root]
  | ['.'] => [.current]
  | '.' :: '/' :: _ => [.current]
  | _ => []

def parts (l : Location) : List LocationPart :=
  origin l.text.toList ++ (l.text.toList.splitOn '/').filterMap partOf?

/-- The name at the end, unless the location ends in dots or is a root. -/
def fileName? (l : Location) : Option (List Char) :=
  match l.parts.getLast? with
  | some (.name text) => some text
  | _ => none

/-- What follows the last dot of a file name, unless the name starts with that dot. -/
def extension? (name : List Char) : Option (List Char) :=
  let suffix := (name.reverse.takeWhile (· != '.')).reverse
  let stem := name.take (name.length - suffix.length - 1)
  if suffix.length < name.length && !stem.isEmpty then some suffix else none

instance : BEq Location where
  beq a b := decide (a.parts = b.parts)

instance : EquivBEq Location where
  rfl := decide_eq_true rfl
  symm h := decide_eq_true (of_decide_eq_true h).symm
  trans h h' := decide_eq_true ((of_decide_eq_true h).trans (of_decide_eq_true h'))

end Location

end VectorImage
