import VectorImage.Error
import VectorImage.Geometry.Affine
import VectorImage.Number.Binary32
import VectorImage.Paint.Color

/-!
What leaves are painted with: fills and strokes in a flat color or in a gradient registered
before, and the gradients themselves. Lists of numbers (stop offsets, dashes) are named by their
index in the float-list table.
-/

set_option autoImplicit false
set_option relaxedAutoImplicit false

namespace VectorImage

/-- Index into the table of raster images. -/
abbrev ImageId := UInt32

/-- Index into the table of strings. -/
abbrev StringId := UInt32

/-- Index into the table of float lists. -/
abbrev FloatListId := UInt32

/-- Index of a registered gradient. -/
abbrev GradientId := UInt32

inductive PaintSource
  | solid (color : Color)
  | gradient (id : GradientId)
  deriving DecidableEq, Inhabited

/-- Winding rule of fills and clips. -/
inductive FillRule
  | nonZero | evenOdd
  deriving DecidableEq, Inhabited

inductive LineCap
  | butt | round | square
  deriving DecidableEq, Inhabited

inductive LineJoin
  | miter | round | bevel
  deriving DecidableEq, Inhabited

/-- How a gradient goes on outside its ramp. -/
inductive SpreadMethod
  | pad | reflect | repeated
  deriving DecidableEq, Inhabited

namespace FillRule

def code : FillRule → UInt8
  | .nonZero => 0
  | .evenOdd => 1

def ofCode (code : UInt8) : Except Error FillRule :=
  match code.toNat with
  | 0 => .ok .nonZero
  | 1 => .ok .evenOdd
  | _ => .error (.format (.unknownCode .fillRule code))

theorem ofCode_code (r : FillRule) : ofCode r.code = .ok r := by cases r <;> rfl

end FillRule

namespace LineCap

def code : LineCap → UInt8
  | .butt => 0
  | .round => 1
  | .square => 2

def ofCode (code : UInt8) : Except Error LineCap :=
  match code.toNat with
  | 0 => .ok .butt
  | 1 => .ok .round
  | 2 => .ok .square
  | _ => .error (.format (.unknownCode .lineCap code))

theorem ofCode_code (c : LineCap) : ofCode c.code = .ok c := by cases c <;> rfl

end LineCap

namespace LineJoin

def code : LineJoin → UInt8
  | .miter => 0
  | .round => 1
  | .bevel => 2

def ofCode (code : UInt8) : Except Error LineJoin :=
  match code.toNat with
  | 0 => .ok .miter
  | 1 => .ok .round
  | 2 => .ok .bevel
  | _ => .error (.format (.unknownCode .lineJoin code))

theorem ofCode_code (j : LineJoin) : ofCode j.code = .ok j := by cases j <;> rfl

end LineJoin

namespace SpreadMethod

def code : SpreadMethod → UInt8
  | .pad => 0
  | .reflect => 1
  | .repeated => 2

def ofCode (code : UInt8) : Except Error SpreadMethod :=
  match code.toNat with
  | 0 => .ok .pad
  | 1 => .ok .reflect
  | 2 => .ok .repeated
  | _ => .error (.format (.unknownCode .spreadMethod code))

theorem ofCode_code (s : SpreadMethod) : ofCode s.code = .ok s := by cases s <;> rfl

end SpreadMethod

structure Fill where
  source : PaintSource
  rule : FillRule
  deriving DecidableEq, Inhabited

structure Stroke where
  source : PaintSource
  width : Binary64
  cap : LineCap
  join : LineJoin
  miterLimit : Binary64
  dash : Option FloatListId
  dashOffset : Binary64
  deriving DecidableEq, Inhabited

/-- The stroke of default shape in a flat color. -/
def Stroke.solid (color : Color) (width : Binary64) : Stroke where
  source := .solid color
  width := width
  cap := .butt
  join := .miter
  miterLimit := .ofNat 4
  dash := none
  dashOffset := .zero

/-- The part of a stroke width that widens the painted extent. -/
def paintedWidth (width : Binary64) : Binary64 := width.max .zero

/-- The paint of a leaf: a fill, a stroke, both or neither. -/
structure Paint where
  fill : Option Fill
  stroke : Option Stroke
  deriving DecidableEq, Inhabited

namespace Paint

def none : Paint := ⟨.none, .none⟩

/-- A flat fill with no stroke. -/
def filled (color : Color) : Paint := ⟨some ⟨.solid color, .nonZero⟩, .none⟩

/-- A stroke with no fill. -/
def stroked (stroke : Stroke) : Paint := ⟨.none, some stroke⟩

/-- The stroke width that counts for the painted extent, zero without a stroke. -/
def strokeWidth (p : Paint) : Binary64 :=
  match p.stroke with
  | some s => paintedWidth s.width
  | .none => .zero

end Paint

/-- The gradient a source names, if it is one. -/
def PaintSource.gradientId? : PaintSource → Option GradientId
  | .solid _ => none
  | .gradient id => some id

/-- The gradients of a paint, the fill's before the stroke's. -/
def Paint.gradientIds (p : Paint) : List GradientId :=
  (p.fill.bind fun f => f.source.gradientId?).toList ++
    (p.stroke.bind fun s => s.source.gradientId?).toList

/-- Rename the gradient of a source. -/
def PaintSource.mapGradient (f : GradientId → Except Error GradientId) :
    PaintSource → Except Error PaintSource
  | .solid c => .ok (.solid c)
  | .gradient id => (f id).map .gradient

/-- Rename the gradients of a paint, the fill's first. -/
def Paint.mapGradients (f : GradientId → Except Error GradientId) (p : Paint) :
    Except Error Paint := do
  let fill ← match p.fill with
    | some fill => do
      let source ← fill.source.mapGradient f
      pure (some { fill with source := source })
    | .none => pure .none
  let stroke ← match p.stroke with
    | some stroke => do
      let source ← stroke.source.mapGradient f
      pure (some { stroke with source := source })
    | .none => pure .none
  return ⟨fill, stroke⟩

/-- The geometry of a gradient's ramp. -/
inductive GradientKind
  | linear (start stop : Point)
  | radial (center : Point) (radius : Binary64) (focal : Point)
  deriving DecidableEq, Inhabited

namespace GradientKind

def code : GradientKind → UInt8
  | .linear _ _ => 0
  | .radial _ _ _ => 1

/-- The coordinates in the order they are stored. -/
def toFloats : GradientKind → List Binary64
  | .linear p q => [p.x, p.y, q.x, q.y]
  | .radial c r f => [c.x, c.y, r, f.x, f.y]

def ofFloats (code : UInt8) (floats : List Binary64) : Except Error GradientKind :=
  match code.toNat, floats with
  | 0, [x0, y0, x1, y1] => .ok (.linear ⟨x0, y0⟩ ⟨x1, y1⟩)
  | 1, [cx, cy, r, fx, fy] => .ok (.radial ⟨cx, cy⟩ r ⟨fx, fy⟩)
  | _, _ => .error (.format (.gradientOperands code floats.length))

theorem ofFloats_toFloats (k : GradientKind) : ofFloats k.code k.toFloats = .ok k := by
  cases k <;> rfl

/-- Pass every coordinate through `g`. -/
def map (g : Binary64 → Binary64) : GradientKind → GradientKind
  | .linear p q => .linear ⟨g p.x, g p.y⟩ ⟨g q.x, g q.y⟩
  | .radial c r f => .radial ⟨g c.x, g c.y⟩ (g r) ⟨g f.x, g f.y⟩

theorem toFloats_map (g : Binary64 → Binary64) (k : GradientKind) :
    (k.map g).toFloats = k.toFloats.map g := by
  cases k <;> rfl

end GradientKind

/-- A gradient: ramp geometry, stops, and what lies outside. -/
structure Gradient where
  kind : GradientKind
  offsets : FloatListId
  colors : List Color
  spread : SpreadMethod
  transform : Option Affine
  deriving DecidableEq, Inhabited

end VectorImage
