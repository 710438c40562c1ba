import VectorImage.Paint.Basic
import VectorImage.Path.Basic
import VectorImage.Svg.Placement

/-!
Pictures: what an SVG document draws once every reference, unit and inherited property has been
resolved. All numbers are of 32 bits. Gradients and raster images carry a number that tells one
definition from another.
-/

set_option autoImplicit false
set_option relaxedAutoImplicit false

namespace VectorImage

namespace Svg

/-- The segments of a path. -/
abbrev Outline := List (PathSegment Spot)

def Outline.widen (o : Outline) : Path := ⟨o.map (PathSegment.map Spot.widen)⟩

/-- A color without opacity. -/
structure Rgb where
  r : UInt8
  g : UInt8
  b : UInt8
  deriving DecidableEq, Inhabited

def Rgb.black : Rgb := ⟨0, 0, 0⟩

structure Stop where
  offset : Binary32
  color : Rgb
  opacity : Binary32
  deriving DecidableEq, Inhabited

inductive RampShape
  | linear (start stop : Spot)
  | radial (center : Spot) (radius : Binary32) (focal : Spot)
  deriving DecidableEq, Inhabited

def RampShape.widen : RampShape → GradientKind
  | .linear p q => .linear p.widen q.widen
  | .radial c r f => .radial c.widen r.widen f.widen

/-- A gradient as it is used. One in user units is identified by its element; one in units of the
shape, by the shape too. -/
structure Ramp where
  identity : List Nat
  shape : RampShape
  stops : List Stop
  spread : SpreadMethod
  placement : Placement
  deriving DecidableEq, Inhabited

/-- What fills and strokes are painted with; patterns are not drawn. -/
inductive Ink
  | color (c : Rgb)
  | ramp (r : Ramp)
  | pattern
  deriving DecidableEq, Inhabited

structure InkFill where
  ink : Ink
  opacity : Binary32
  rule : FillRule
  deriving DecidableEq, Inhabited

structure InkStroke where
  ink : Ink
  opacity : Binary32
  width : Binary32
  cap : LineCap
  join : LineJoin
  miterLimit : Binary32
  dashes : Option (List Binary32)
  dashOffset : Binary32
  deriving DecidableEq, Inhabited

/-- A path, with the box it covers in its own coordinates and in those of the picture. A hidden
one takes part in everything but drawing. -/
structure PathLeaf where
  outline : Outline
  box : Box
  cover : Box
  fill : Option InkFill
  stroke : Option InkStroke
  visible : Bool
  deriving DecidableEq, Inhabited

/-- What an image shows: encoded pixels, or a document, which is not drawn. Pixels are identified
by where they were read: the elements passed on the way, the image's own first. -/
inductive ImageContent
  | raster (identity : List Nat) (bytes : List UInt8)
  | document
  deriving DecidableEq, Inhabited

/-- An image of the given size, drawn at the origin, with the box it covers in the picture. -/
structure PictureLeaf where
  content : ImageContent
  width : Binary32
  height : Binary32
  cover : Box
  visible : Bool
  deriving DecidableEq, Inhabited

/-- How a group sets what is in it: where and how opaque; under a clip, and by which placement;
under a mask. -/
structure GroupFrame where
  placement : Placement
  opacity : Binary32
  clip : Option Placement
  masked : Bool
  deriving DecidableEq, Inhabited

/-- The frame that changes nothing. -/
def GroupFrame.plain : GroupFrame := ⟨.identity, .one, none, false⟩

/-- A node of a picture. A group lists what its clip and its mask consist of; without one, the
list is empty. Text is the group of the outlines it is set in. -/
inductive PictureNode
  | group (frame : GroupFrame) (clip mask children : List PictureNode)
  | path (leaf : PathLeaf)
  | image (leaf : PictureLeaf)
  deriving Inhabited

/-- The size of the canvas and the nodes on it. -/
structure Picture where
  width : Binary32
  height : Binary32
  nodes : List PictureNode
  deriving Inhabited

end Svg

end VectorImage
