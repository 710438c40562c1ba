import VectorImage.Svg.Value.Length

/-!
The origin that a map is seen from: one offset along each axis, given by lengths or by words. A
single word or length leaves the other offset in the middle; two words may come in either order.
-/

set_option autoImplicit false
set_option relaxedAutoImplicit false

namespace VectorImage

namespace Svg

open TextScan

/-- An offset: the middle of either axis, a place along one of them, or a length. -/
inductive OriginPart
  | middle
  | horizontal (l : Length)
  | vertical (l : Length)
  | length (l : Length)

def originWords : List (List Char × OriginPart) :=
  [("left".toList, .horizontal ⟨.zero, .number⟩), ("right".toList, .horizontal ⟨.ofNat 100, .percent⟩),
    ("top".toList, .vertical ⟨.zero, .number⟩), ("bottom".toList, .vertical ⟨.ofNat 100, .percent⟩),
    ("center".toList, .middle)]

def originPart : TextScan OriginPart := do
  skipBlanks
  let rest := (← Parser.input).rest
  match originWords.find? fun w => w.1.isPrefixOf rest with
  | some (word, part) =>
    let _ ← acceptText word
    return part
  | none => return .length (← length)

/-- Half of what there is. -/
def halfway : Length := ⟨.ofNat 50, .percent⟩

namespace OriginPart

/-- The offset from the left. -/
def x? : OriginPart → Option Length
  | middle => some halfway
  | horizontal l => some l
  | length l => some l
  | vertical _ => none

/-- The offset from the top. -/
def y? : OriginPart → Option Length
  | middle => some halfway
  | vertical l => some l
  | length l => some l
  | horizontal _ => none

def isLength : OriginPart → Bool
  | length _ => true
  | _ => false

end OriginPart

/-- The offsets of one or two parts. -/
def originOfParts : List OriginPart → Option (Length × Length)
  | [.vertical y] => some (halfway, y)
  | [p] => p.x?.map fun x => (x, halfway)
  | [p, q] =>
    match p.x?, q.y? with
    | some x, some y => some (x, y)
    | _, _ =>
      if p.isLength || q.isLength then none
      else do return (← q.x?, ← p.y?)
  | _ => none

/-- An origin. A third offset, away from the plane, has no effect. -/
def originOf? (text : List Char) : Option (Length × Length) :=
  (whole? (do
    let first ← originPart
    if ← atEnd then return [first]
    separator
    let second ← originPart
    if !(← atEnd) then
      separator
      let _ ← length
    skipBlanks
    return [first, second]) text).bind originOfParts

end Svg

end VectorImage
