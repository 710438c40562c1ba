/-!
Encoded raster images, kept as bytes with their size in pixels.
-/

set_option autoImplicit false
set_option relaxedAutoImplicit false

namespace VectorImage

structure Raster where
  width : UInt32
  height : UInt32
  bytes : List UInt8
  deriving DecidableEq, Inhabited

end VectorImage
