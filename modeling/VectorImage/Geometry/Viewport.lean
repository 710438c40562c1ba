import VectorImage.Geometry.Affine

/-!
The visible rectangle of an image with the scale from its units to output units.
-/

set_option autoImplicit false
set_option relaxedAutoImplicit false

namespace VectorImage

structure Viewport where
  rect : Rect
  scaleX : Binary64
  scaleY : Binary64
  deriving DecidableEq, Inhabited

namespace Viewport

/-- The viewport whose units are output units. -/
def ofRect (rect : Rect) : Viewport := ⟨rect, .one, .one⟩

/-- The ratio of output size to extent; 1 for an extent that is not positive. -/
private def ratio (output extent : Binary64) : Binary64 :=
  if Binary64.lt .zero extent then output / extent else .one

/-- The viewport that shows `rect` at the given output size. -/
def ofOutputSize (rect : Rect) (width height : Binary64) : Viewport :=
  ⟨rect, ratio width rect.width, ratio height rect.height⟩

/-- The map from user space to output space. -/
def toOutput (v : Viewport) : Affine :=
  Affine.scale v.scaleX v.scaleY * Affine.translate (-v.rect.x0) (-v.rect.y0)

end Viewport

end VectorImage
