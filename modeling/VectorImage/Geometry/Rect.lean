import VectorImage.Number.Binary64

/-!
Points and axis-aligned rectangles. A rectangle keeps its corners as given and may be reversed;
unions and hulls take field-wise least and greatest coordinates.
-/

set_option autoImplicit false
set_option relaxedAutoImplicit false

namespace VectorImage

structure Point where
  x : Binary64
  y : Binary64
  deriving DecidableEq, Inhabited

/-- A rectangle by two opposite corners. -/
structure Rect where
  x0 : Binary64
  y0 : Binary64
  x1 : Binary64
  y1 : Binary64
  deriving DecidableEq, Inhabited

def Point.origin : Point := ⟨.zero, .zero⟩

def Point.add (p q : Point) : Point := ⟨p.x + q.x, p.y + q.y⟩

/-- The point on the far side of `center` from `p`. -/
def Point.reflect (center p : Point) : Point :=
  let two : Binary64 := .ofNat 2
  ⟨two * center.x - p.x, two * center.y - p.y⟩

namespace Rect

def zero : Rect := ⟨.zero, .zero, .zero, .zero⟩

def width (r : Rect) : Binary64 := r.x1 - r.x0

def height (r : Rect) : Binary64 := r.y1 - r.y0

/-- The same rectangle with its corners in order. -/
def abs (r : Rect) : Rect := ⟨r.x0.min r.x1, r.y0.min r.y1, r.x0.max r.x1, r.y0.max r.y1⟩

def ofPoints (p q : Point) : Rect := abs ⟨p.x, p.y, q.x, q.y⟩

def union (r s : Rect) : Rect := ⟨r.x0.min s.x0, r.y0.min s.y0, r.x1.max s.x1, r.y1.max s.y1⟩

/-- The least rectangle holding `r` and `p`. -/
def unionPoint (r : Rect) (p : Point) : Rect :=
  ⟨r.x0.min p.x, r.y0.min p.y, r.x1.max p.x, r.y1.max p.y⟩

/-- Move every side outwards by the given distances. -/
def inflate (r : Rect) (dx dy : Binary64) : Rect := ⟨r.x0 - dx, r.y0 - dy, r.x1 + dx, r.y1 + dy⟩

/-- Closed overlap: rectangles that only touch do overlap. -/
def overlaps (r s : Rect) : Bool :=
  r.x0.le s.x1 && s.x0.le r.x1 && r.y0.le s.y1 && s.y0.le r.y1

/-- The rectangle with every negative zero replaced by zero. -/
def unsignZeros (r : Rect) : Rect :=
  ⟨r.x0.unsignZero, r.y0.unsignZero, r.x1.unsignZero, r.y1.unsignZero⟩

/-- The coordinates in the order they are stored. -/
def toList (r : Rect) : List Binary64 := [r.x0, r.y0, r.x1, r.y1]

end Rect

/-- The hull of a list of points, if there is one. -/
def hull? : List Point → Option Rect
  | [] => none
  | p :: ps => some (ps.foldl Rect.unionPoint (Rect.ofPoints p p))

/-- The hull of what is covered so far and one more rectangle. -/
def Rect.unionOption (covered : Option Rect) (r : Rect) : Rect :=
  match covered with
  | none => r
  | some c => c.union r

end VectorImage
