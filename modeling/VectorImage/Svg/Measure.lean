import VectorImage.Svg.Element
import VectorImage.Svg.Placement
import VectorImage.Svg.Value.Origin
import VectorImage.Svg.Value.Transform

/-!
Lengths in user units. Percentages refer to the width, the height or the mean of both, depending
on what the length measures; font-relative units to the font size at the element. An inch has 96
user units.
-/

set_option autoImplicit false
set_option relaxedAutoImplicit false

namespace VectorImage

namespace Svg

/-- The size that percentages refer to. -/
structure Canvas where
  width : Binary32
  height : Binary32
  deriving DecidableEq, Inhabited

/-- Percentages as fractions. -/
def Canvas.unit : Canvas := ⟨.one, .one⟩

/-- What a hundred percent are for an attribute; a length that follows neither axis takes the
root mean square of both sides. -/
def Canvas.extent (c : Canvas) (key : String) : Binary32 :=
  if ["x", "x1", "x2", "cx", "fx", "rx", "width"].contains key then c.width
  else if ["y", "y1", "y2", "cy", "fy", "ry", "height"].contains key then c.height
  else ((c.width * c.width + c.height * c.height) / .ofNat 2).sqrt

/-- The number nearest to `digits * 10 ^ -places`. -/
def decimal (digits places : Nat) : Binary32 := .ofBinary64 (.ofDecimal false digits (-places))

/-- A length in user units, where a hundred percent are `full`. -/
def Length.resolve (l : Length) (fontSize full : Binary32) : Binary32 :=
  let n := Binary32.ofBinary64 l.number
  let inches := n * .ofNat 96
  match l.unit with
  | .number => n
  | .px => n
  | .em => n * fontSize
  | .ex => n * fontSize / .ofNat 2
  | .inch => inches
  | .cm => inches / decimal 254 2
  | .mm => inches / decimal 254 1
  | .pt => inches / .ofNat 72
  | .pc => inches / .ofNat 6
  | .percent => full * n / .ofNat 100

/-- How many steps a named font size is away from the size around. -/
def fontSteps (name : String) : Int :=
  ([("xx-small", -3), ("x-small", -2), ("small", -1), ("smaller", -1), ("large", 1), ("larger", 1),
    ("x-large", 2), ("xx-large", 3)].lookup name).getD 0

/-- The ratio of a font size to the next smaller one, raised to a power. -/
def fontFactor (steps : Int) : Binary32 :=
  let ratio := decimal 12 1
  let factor := match steps.natAbs with
    | 0 => .one
    | 1 => ratio
    | 2 => ratio * ratio
    | _ => ratio * (ratio * ratio)
  if steps < 0 then .one / factor else factor

/-- A font size, given the size around. -/
def fontSizeOf (around : Binary32) (text : List Char) : Binary32 :=
  match lengthOf? text with
  | some ⟨x, .percent⟩ => Binary32.ofBinary64 x * around * decimal 1 2
  | some l => l.resolve around .zero
  | none => around * fontFactor (fontSteps (.ofList text))

namespace Site

/-- The font size at an element; one that is given in relative units refers to the size
around. -/
def fontSize (s : Site) : Binary32 :=
  (s.element :: s.ancestors).foldr (fun e size =>
    match e.own? "font-size" with
    | some text => fontSizeOf size text
    | none => size) (.ofNat 12)

/-- The element's own length. -/
def length? (s : Site) (key : String) : Option Length := (s.own? key).bind lengthOf?

/-- The element's own length in user units. -/
def measure (s : Site) (canvas : Canvas) (key : String) (default : Length) : Binary32 :=
  ((s.length? key).getD default).resolve s.fontSize (canvas.extent key)

/-- An inherited length in user units. -/
def measureInherited (s : Site) (canvas : Canvas) (key : String) (default : Binary32) : Binary32 :=
  match s.holder? key with
  | some h =>
    match h.length? key with
    | some l => l.resolve h.fontSize (canvas.extent key)
    | none => default
  | none => default

/-- The map that an attribute gives, seen from the element's origin; a malformed or unusable one
changes nothing. -/
def placement (s : Site) (canvas : Canvas) (key : String) : Placement :=
  let m := match (s.own? key).bind transformOf? with
    | some m => if (Placement.ofAffine m).isUsable then .ofAffine m else .identity
    | none => .identity
  match (s.own? "transform-origin").bind originOf? with
  | some (x, y) => m.about (x.resolve s.fontSize canvas.width) (y.resolve s.fontSize canvas.height)
  | none => m

/-- One of the languages asked for is the reader's, or a kind of it. -/
def speaksLanguage (text : List Char) : Bool :=
  (text.splitOn ',').any fun language =>
    (White.trim language).takeWhile (· != '-') = ['e', 'n']

/-- The element asks for no extension and for no other language. -/
def isApplicable (s : Site) : Bool :=
  (s.own? "requiredExtensions").isNone &&
    ((s.own? "systemLanguage").map speaksLanguage).getD true

/-- The element takes part: it is displayed and applicable, and its map is usable if it is
well-formed. -/
def isDisplayed (s : Site) : Bool :=
  let hasUsableMap := match (s.own? "transform").bind transformOf? with
    | some m => (Placement.ofAffine m).isUsable
    | none => true
  s.own? "display" != some "none".toList && hasUsableMap && s.isApplicable

/-- What is drawn can be seen. -/
def isVisible (s : Site) : Bool :=
  match (s.inherited? "visibility").map String.ofList with
  | some "hidden" => false
  | some "collapse" => false
  | _ => true

/-- The box that the four attributes of an element give; it must have an area. -/
def box? (s : Site) (canvas : Canvas) (x y width height : Length) : Option Box :=
  Box.ofCorner? (s.measure canvas "x" x) (s.measure canvas "y" y)
    (s.measure canvas "width" width) (s.measure canvas "height" height)

/-- An attribute asks for user units. -/
def inUserSpace (s : Site) (key : String) : Bool := s.own? key == some "userSpaceOnUse".toList

/-- An attribute asks for units of the shape's box. -/
def inBoxUnits (s : Site) (key : String) : Bool := s.own? key == some "objectBoundingBox".toList

end Site

end Svg

end VectorImage
