import VectorImage.Drawing.Primitive
import VectorImage.Geometry.Viewport

/-!
Extents of what is drawn. The painted extent of a leaf is its own extent widened by the full
stroke width and mapped by its transform; a text run is measured as one em per character.
-/

set_option autoImplicit false
set_option relaxedAutoImplicit false

namespace VectorImage

def RectGeom.bounds (g : RectGeom) : Rect := g.rect.abs

def EllipseGeom.bounds (g : EllipseGeom) : Rect :=
  let rx := g.rx.abs
  let ry := g.ry.abs
  ⟨g.center.x - rx, g.center.y - ry, g.center.x + rx, g.center.y + ry⟩

/-- The hull of the points, if there are any. -/
def PolyGeom.bounds (g : PolyGeom) : Option Rect := hull? g.points

/-- The extent of an outline, if it has one. -/
def Geometry.bounds : Geometry → Option Rect
  | .path p => p.controlBounds
  | .rect g => some g.bounds
  | .ellipse g => some g.bounds
  | .poly g => g.bounds

/-- The box of an unshaped text run: one em for each of `length` characters, an em above the
baseline and half an em below it. -/
def textBounds (length : Nat) (size : Binary64) (origin : Point) (anchor : TextAnchor) : Rect :=
  let em := size.abs
  let width := .ofNat length * em
  let x0 :=
    match anchor with
    | .start => origin.x
    | .middle => origin.x - width / .ofNat 2
    | .stop => origin.x - width
  ⟨x0, origin.y - em, x0 + width, origin.y + em * .half⟩

/-- The extent that `extent` covers once stroked and transformed. -/
def paintedBounds (extent : Rect) (strokeWidth : Binary64) (t : Affine) : Rect :=
  let w := paintedWidth strokeWidth
  t.mapRect (extent.inflate w w)

/-- The absolute extent of a primitive; brackets and empty outlines have none. -/
def Primitive.bounds : Primitive → Option Rect
  | .shape geometry style t => geometry.bounds.map fun r => paintedBounds r style.strokeWidth t
  | .image _ dest t => some (t.mapRect dest.abs)
  | .text run style t =>
    some (paintedBounds (textBounds run.text.length run.size run.origin run.anchor)
      style.strokeWidth t)
  | _ => none

/-- The union of the extents there are, in order. -/
def unionBounds (extents : List (Option Rect)) : Option Rect :=
  extents.foldl (fun covered extent =>
    match extent with
    | some r => some (Rect.unionOption covered r)
    | none => covered) none

/-- The extent of a drawing. -/
def drawingBounds (primitives : List Primitive) : Option Rect :=
  unionBounds (primitives.map Primitive.bounds)

/-- The viewport of a document: its view box, else its declared size, else the extent of what is
drawn, else nothing. -/
def Document.viewport (d : Document) (extent : Except Error (Option Rect)) :
    Except Error Viewport :=
  match d.viewBox with
  | some box =>
    .ok (.ofOutputSize box (d.width.getD box.width) (d.height.getD box.height))
  | none =>
    match d.width, d.height with
    | some w, some h => .ok (.ofRect ⟨.zero, .zero, w, h⟩)
    | _, _ => extent.map fun r => .ofRect (r.getD .zero)

end VectorImage
