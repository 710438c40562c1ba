import VectorImage.Drawing.Primitive
import VectorImage.Indexed

/-!
The values behind the indices of an image, and the resolution of paints and text runs.
-/

set_option autoImplicit false
set_option relaxedAutoImplicit false

namespace VectorImage

structure Resources where
  images : Array Raster
  strings : Array String
  floatLists : Array (List Binary64)
  gradients : Array Gradient
  deriving Inhabited

namespace Resources

variable (r : Resources)

def image (id : ImageId) : Except Error Raster := lookup r.images .image id

def string (id : StringId) : Except Error String := lookup r.strings .string id

def floatList (id : FloatListId) : Except Error (List Binary64) := lookup r.floatLists .floatList id

def gradient (id : GradientId) : Except Error Gradient := lookup r.gradients .gradient id

def resolveSource : PaintSource → Except Error ResolvedSource
  | .solid c => .ok (.solid c)
  | .gradient id => do
    let g ← r.gradient id
    let offsets ← r.floatList g.offsets
    return .gradient ⟨g.kind, offsets, g.colors, g.spread, g.transform⟩

def resolveFill (f : Fill) : Except Error ResolvedFill := do
  let source ← r.resolveSource f.source
  return ⟨source, f.rule⟩

def resolveStroke (s : Stroke) : Except Error ResolvedStroke := do
  let source ← r.resolveSource s.source
  let dash ← s.dash.mapM r.floatList
  return ⟨source, s.width, s.cap, s.join, s.miterLimit, dash, s.dashOffset⟩

/-- The style of a paint, its fill resolved first. -/
def resolvePaint (p : Paint) : Except Error Style := do
  let fill ← p.fill.mapM r.resolveFill
  let stroke ← p.stroke.mapM r.resolveStroke
  return ⟨fill, stroke⟩

def resolveText (t : TextLeaf) : Except Error ResolvedText := do
  let text ← r.string t.text
  let family ← t.family.mapM r.string
  return ⟨text, family, t.size, t.origin, t.anchor⟩

end Resources

end VectorImage
