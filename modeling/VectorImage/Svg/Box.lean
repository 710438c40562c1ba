import VectorImage.Number.Binary32
import VectorImage.Geometry.Rect

/-!
Points and boxes of 32-bit coordinates. A box has finite sides in order, with finite distances
between them; it may be flat.
-/

set_option autoImplicit false
set_option relaxedAutoImplicit false

namespace VectorImage

namespace Svg

/-- A point of 32-bit coordinates. -/
structure Spot where
  x : Binary32
  y : Binary32
  deriving DecidableEq, Inhabited

namespace Spot

def widen (s : Spot) : Point := ⟨s.x.widen, s.y.widen⟩

def ofPoint (p : Point) : Spot := ⟨.ofBinary64 p.x, .ofBinary64 p.y⟩

end Spot

/-- A rectangle along the axes, by its sides. -/
structure Box where
  left : Binary32
  top : Binary32
  right : Binary32
  bottom : Binary32
  deriving DecidableEq, Inhabited

namespace Box

def zero : Box := ⟨.zero, .zero, .zero, .zero⟩

/-- The box of this size at the origin. -/
def ofSize (width height : Binary32) : Box := ⟨.zero, .zero, width, height⟩

def width (b : Box) : Binary32 := b.right - b.left

def height (b : Box) : Binary32 := b.bottom - b.top

/-- The greatest finite number. -/
def greatest : Binary32 := ⟨0x7f7fffff⟩

/-- The sides are in order, and their distance in full lies below the greatest finite number. -/
def isSpan (low high : Binary32) : Bool :=
  low.isFinite && high.isFinite && low.le high && (high.widen - low.widen).lt greatest.widen

def ofSides? (left top right bottom : Binary32) : Option Box :=
  if isSpan left right && isSpan top bottom then some ⟨left, top, right, bottom⟩ else none

/-- The box extends in both directions. -/
def hasArea (b : Box) : Bool := b.left.lt b.right && b.top.lt b.bottom

/-- The box with an area that has this corner and size. -/
def ofCorner? (x y width height : Binary32) : Option Box :=
  (ofSides? x y (width + x) (height + y)).filter hasArea

/-- The box around two boxes. -/
def union (a b : Box) : Box :=
  ⟨a.left.min b.left, a.top.min b.top, a.right.max b.right, a.bottom.max b.bottom⟩

/-- The box around several boxes. -/
def unionAll? : List Box → Option Box
  | [] => none
  | b :: bs =>
    let u := bs.foldl union b
    ofSides? u.left u.top u.right u.bottom

/-- The box around points. -/
def around? (points : List Spot) : Option Box :=
  if points.all fun p => p.x.isFinite && p.y.isFinite then
    unionAll? (points.map fun p => ⟨p.x, p.y, p.x, p.y⟩)
  else none

def corners (b : Box) : List Spot :=
  [⟨b.left, b.top⟩, ⟨b.right, b.top⟩, ⟨b.right, b.bottom⟩, ⟨b.left, b.bottom⟩]

end Box

end Svg

end VectorImage
