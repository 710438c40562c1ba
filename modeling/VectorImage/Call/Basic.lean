import VectorImage.Raster.Basic
import VectorImage.Shape

/-!
The calls that describe an image. A stream of calls begins with the tables, may then declare the
document, and goes on with the tree: groups, clips, masks, leaves and gradient registrations, all
inside an implicit root group. Gradient ids in paints count the gradient calls before them.
-/

set_option autoImplicit false
set_option relaxedAutoImplicit false

namespace VectorImage

/-- The tables that leaves refer to by index. -/
structure Tables where
  images : List Raster
  strings : List String
  floatLists : List (List Binary64)
  deriving DecidableEq, Inhabited

def Tables.empty : Tables := ⟨[], [], []⟩

inductive Call
  | init (tables : Tables)
  | document (document : Document)
  | gradient (gradient : Gradient)
  | beginGroup (attrs : GroupAttrs)
  | endGroup
  | clip (clip : ClipPath)
  | beginMask
  | maskContent
  | endMask
  | shape (shape : Shape)
  | image (leaf : ImageLeaf)
  | text (leaf : TextLeaf)
  | use (ref : UseRef)
  deriving DecidableEq, Inhabited

def Geometry.treeCall : Geometry → TreeCall
  | .path _ => .path
  | .rect _ => .rect
  | .ellipse _ => .ellipse
  | .poly _ => .poly

namespace Call

/-- The name of a call that only the tree phase allows. Calls that end a scope have none: an
open scope is all they need. -/
def treeCall? : Call → Option TreeCall
  | .gradient _ => some .gradient
  | .beginGroup _ => some .beginGroup
  | .clip _ => some .clip
  | .beginMask => some .beginMask
  | .shape s => some s.geometry.treeCall
  | .image _ => some .image
  | .text _ => some .text
  | .use _ => some .use
  | _ => none

/-- The paint of a call, if it draws with one. -/
def paint? : Call → Option Paint
  | .shape s => some s.paint
  | .text t => some t.paint
  | _ => none

/-- Rename the gradients in a call's paint. -/
def mapGradients (f : GradientId → Except Error GradientId) : Call → Except Error Call
  | .shape s => (s.paint.mapGradients f).map fun paint => .shape { s with paint := paint }
  | .text t => (t.paint.mapGradients f).map fun paint => .text { t with paint := paint }
  | call => .ok call

end Call

/-- What an accepted call answers: a gradient call gives the id that paints refer to. -/
inductive Reply
  | done
  | gradient (id : GradientId)
  deriving DecidableEq, Inhabited

end VectorImage
