import VectorImage.Raster.Basic
import VectorImage.Shape

/-!
What drawing an image emits: leaves with every reference resolved and an absolute transform,
between brackets that open and close layers, clips and masks.
-/

set_option autoImplicit false
set_option relaxedAutoImplicit false

namespace VectorImage

/-- A gradient with its stop offsets. -/
structure ResolvedGradient where
  kind : GradientKind
  offsets : List Binary64
  colors : List Color
  spread : SpreadMethod
  transform : Option Affine
  deriving DecidableEq, Inhabited

inductive ResolvedSource
  | solid (color : Color)
  | gradient (gradient : ResolvedGradient)
  deriving DecidableEq, Inhabited

structure ResolvedFill where
  source : ResolvedSource
  rule : FillRule
  deriving DecidableEq, Inhabited

structure ResolvedStroke where
  source : ResolvedSource
  width : Binary64
  cap : LineCap
  join : LineJoin
  miterLimit : Binary64
  dash : Option (List Binary64)
  dashOffset : Binary64
  deriving DecidableEq, Inhabited

structure Style where
  fill : Option ResolvedFill
  stroke : Option ResolvedStroke
  deriving DecidableEq, Inhabited

/-- A text run with its strings. -/
structure ResolvedText where
  text : String
  family : Option String
  size : Binary64
  origin : Point
  anchor : TextAnchor
  deriving DecidableEq, Inhabited

inductive Primitive
  | pushLayer (alpha : UInt8)
  | popLayer
  | pushClip (path : Path) (rule : FillRule) (transform : Affine)
  | popClip
  | beginMask
  | maskedContent
  | endMask
  | shape (geometry : Geometry) (style : Style) (transform : Affine)
  | image (image : Raster) (dest : Rect) (transform : Affine)
  | text (run : ResolvedText) (style : Style) (transform : Affine)
  deriving DecidableEq, Inhabited

/-- The stroke width that counts for the painted extent. -/
def Style.strokeWidth (s : Style) : Binary64 :=
  match s.stroke with
  | some stroke => paintedWidth stroke.width
  | none => .zero

end VectorImage
