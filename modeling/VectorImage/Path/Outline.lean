import VectorImage.Path.Basic

/-!
Outlines of basic shapes, drawn at a chosen coordinate precision: each given number is first
rounded to that precision, computed with in full, and each result rounded again. Drawing an
ellipse takes four cubic arcs.
-/

set_option autoImplicit false
set_option relaxedAutoImplicit false

namespace VectorImage

/-- One step of drawing a path. -/
inductive DrawStep
  | segment (s : Segment)
  | ellipse (center : Point) (rx ry : Binary64)
  | rect (origin : Point) (width height : Binary64)
  | poly (closed : Bool) (points : List Point)
  deriving DecidableEq, Inhabited

namespace DrawStep

/-- Distance of a control point from its arc's end, for a unit radius. -/
def kappa : Binary64 := ⟨0x3fe1ac5111534a22⟩

/-- The four arcs start at the rightmost point and run towards positive `y` first. -/
def ellipseSegments (center : Point) (rx ry : Binary64) : List Segment :=
  let cx := center.x
  let cy := center.y
  let kx := rx * kappa
  let ky := ry * kappa
  [.moveTo ⟨cx + rx, cy⟩,
    .cubicTo ⟨cx + rx, cy + ky⟩ ⟨cx + kx, cy + ry⟩ ⟨cx, cy + ry⟩,
    .cubicTo ⟨cx - kx, cy + ry⟩ ⟨cx - rx, cy + ky⟩ ⟨cx - rx, cy⟩,
    .cubicTo ⟨cx - rx, cy - ky⟩ ⟨cx - kx, cy - ry⟩ ⟨cx, cy - ry⟩,
    .cubicTo ⟨cx + kx, cy - ry⟩ ⟨cx + rx, cy - ky⟩ ⟨cx + rx, cy⟩,
    .close]

def rectSegments (origin : Point) (width height : Binary64) : List Segment :=
  let x := origin.x
  let y := origin.y
  [.moveTo ⟨x, y⟩, .lineTo ⟨x + width, y⟩, .lineTo ⟨x + width, y + height⟩,
    .lineTo ⟨x, y + height⟩, .close]

/-- A line through the points, closed on demand; no points give no segments. -/
def polySegments (closed : Bool) : List Point → List Segment
  | [] => []
  | p :: ps => .moveTo p :: (ps.map .lineTo ++ if closed then [.close] else [])

/-- The segments a step adds at a precision. -/
def segments (width : FloatWidth) (step : DrawStep) : List Segment :=
  let r := width.round
  let point (p : Point) : Point := ⟨r p.x, r p.y⟩
  match step with
  | .segment s => [s.map point]
  | .ellipse c rx ry => (ellipseSegments (point c) (r rx) (r ry)).map (PathSegment.map point)
  | .rect o w h => (rectSegments (point o) (r w) (r h)).map (PathSegment.map point)
  | .poly closed ps => polySegments closed (ps.map point)

end DrawStep

/-- The path that a list of steps draws. -/
def Path.draw (width : FloatWidth) (steps : List DrawStep) : Path :=
  ⟨steps.flatMap (DrawStep.segments width)⟩

end VectorImage
