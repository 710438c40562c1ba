import VectorImage.Image
import VectorImage.Svg.Document
import VectorImage.Svg.Stream

/-!
SVG documents as images: a document is read into a picture, and the picture's calls are handed
to a backend.
-/

set_option autoImplicit false
set_option relaxedAutoImplicit false

namespace VectorImage

namespace Svg

/-- The calls that draw a document. -/
def callsOf (bytes : List UInt8) : Except Error (List Call) :=
  match Picture.ofBytes? bytes with
  | some p => p.calls
  | none => .error (.parse .markup)

end Svg

/-- Read a document into the wanted representation. -/
def Image.ofSvg (stamp : Nat) (bytes : List UInt8) : Representation → Except Error Image
  | .compact => do
    let calls ← Svg.callsOf bytes
    .compact <$> CompactImage.ofCalls stamp .binary32 calls
  | .graph => do
    let calls ← Svg.callsOf bytes
    .graph <$> GraphImage.ofCalls stamp true .empty calls

end VectorImage
