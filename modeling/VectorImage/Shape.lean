import VectorImage.Paint.Basic
import VectorImage.Path.Basic

/-!
The leaves of an image (shapes, raster images, text runs, references to groups) and the
attributes of groups, clips and the document.
-/

set_option autoImplicit false
set_option relaxedAutoImplicit false

namespace VectorImage

/-- A rectangle with corner radii. -/
structure RectGeom where
  rect : Rect
  rx : Binary64
  ry : Binary64
  deriving DecidableEq, Inhabited

/-- An axis-aligned ellipse. -/
structure EllipseGeom where
  center : Point
  rx : Binary64
  ry : Binary64
  deriving DecidableEq, Inhabited

/-- A line through points, or the polygon they bound. -/
structure PolyGeom where
  points : List Point
  closed : Bool
  deriving DecidableEq, Inhabited

namespace RectGeom

def toFloats (g : RectGeom) : List Binary64 := g.rect.toList ++ [g.rx, g.ry]

def ofFloats : List Binary64 → Except Error RectGeom
  | [x0, y0, x1, y1, rx, ry] => .ok ⟨⟨x0, y0, x1, y1⟩, rx, ry⟩
  | floats => .error (.format (.operandCount .rect floats.length))

theorem ofFloats_toFloats (g : RectGeom) : ofFloats g.toFloats = .ok g := rfl

end RectGeom

namespace EllipseGeom

def circle (center : Point) (r : Binary64) : EllipseGeom := ⟨center, r, r⟩

def toFloats (g : EllipseGeom) : List Binary64 := [g.center.x, g.center.y, g.rx, g.ry]

def ofFloats : List Binary64 → Except Error EllipseGeom
  | [cx, cy, rx, ry] => .ok ⟨⟨cx, cy⟩, rx, ry⟩
  | floats => .error (.format (.operandCount .ellipse floats.length))

theorem ofFloats_toFloats (g : EllipseGeom) : ofFloats g.toFloats = .ok g := rfl

end EllipseGeom

/-- The points that pairs of numbers write; an odd last number is refused. -/
def pointsOfFloats : List Binary64 → Except Error (List Point)
  | [] => .ok []
  | [_] => .error (.format .polyPairs)
  | x :: y :: rest => (pointsOfFloats rest).map (⟨x, y⟩ :: ·)

namespace PolyGeom

def toFloats (g : PolyGeom) : List Binary64 := g.points.flatMap fun p => [p.x, p.y]

def ofFloats (floats : List Binary64) (closed : Bool) : Except Error PolyGeom :=
  (pointsOfFloats floats).map fun points => ⟨points, closed⟩

theorem pointsOfFloats_flatMap (points : List Point) :
    pointsOfFloats (points.flatMap fun p => [p.x, p.y]) = .ok points := by
  induction points with
  | nil => rfl
  | cons p rest ih => simp [pointsOfFloats, ih, Except.map]

theorem ofFloats_toFloats (g : PolyGeom) : ofFloats g.toFloats g.closed = .ok g := by
  simp [ofFloats, toFloats, pointsOfFloats_flatMap, Except.map]

end PolyGeom

/-- The outline of a painted leaf. -/
inductive Geometry
  | path (p : Path)
  | rect (g : RectGeom)
  | ellipse (g : EllipseGeom)
  | poly (g : PolyGeom)
  deriving DecidableEq, Inhabited

/-- A painted leaf; its transform applies before the enclosing group's. -/
structure Shape where
  geometry : Geometry
  paint : Paint
  transform : Option Affine
  deriving DecidableEq, Inhabited

/-- A raster image drawn into a rectangle. -/
structure ImageLeaf where
  image : ImageId
  dest : Rect
  transform : Option Affine
  deriving DecidableEq, Inhabited

/-- Where the origin lies in a text run. -/
inductive TextAnchor
  | start | middle | stop
  deriving DecidableEq, Inhabited

namespace TextAnchor

def code : TextAnchor → UInt8
  | .start => 0
  | .middle => 1
  | .stop => 2

def ofCode (code : UInt8) : Except Error TextAnchor :=
  match code.toNat with
  | 0 => .ok .start
  | 1 => .ok .middle
  | 2 => .ok .stop
  | _ => .error (.format (.unknownAnchor code))

theorem ofCode_code (a : TextAnchor) : ofCode a.code = .ok a := by cases a <;> rfl

end TextAnchor

/-- A text run, not shaped. -/
structure TextLeaf where
  text : StringId
  family : Option StringId
  size : Binary64
  origin : Point
  anchor : TextAnchor
  paint : Paint
  transform : Option Affine
  deriving DecidableEq, Inhabited

/-- A group: transform, opacity (255 is opaque) and the name it can be referred to by. -/
structure GroupAttrs where
  transform : Option Affine
  alpha : UInt8
  exportId : Option StringId
  deriving DecidableEq

/-- An opaque group with neither transform nor name. -/
def GroupAttrs.plain : GroupAttrs := ⟨none, 255, none⟩

instance : Inhabited GroupAttrs := ⟨.plain⟩

/-- A clip of everything that follows it in its scope. -/
structure ClipPath where
  path : Path
  rule : FillRule
  transform : Option Affine
  deriving DecidableEq, Inhabited

/-- A reference to a closed group by its name. -/
structure UseRef where
  target : StringId
  transform : Option Affine
  deriving DecidableEq, Inhabited

/-- Attributes of the whole image. -/
structure Document where
  width : Option Binary64
  height : Option Binary64
  viewBox : Option Rect
  tint : Option Color
  deriving DecidableEq, Inhabited

namespace Document

def empty : Document := ⟨none, none, none, none⟩

/-- A canvas of the given size at the origin. -/
def sized (width height : Binary64) : Document := ⟨some width, some height, none, none⟩

/-- The document that declares `rect` both as view box and as output size. -/
def showing (d : Document) (rect : Rect) : Document :=
  ⟨some rect.width, some rect.height, some rect, d.tint⟩

end Document

end VectorImage
