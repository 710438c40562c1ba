import VectorImage.Raster.Size
import VectorImage.Svg.Outline
import VectorImage.Svg.Scene
import VectorImage.Svg.Value.Aspect
import VectorImage.Svg.Value.DataUrl

/-!
Images in a document. An image is given as data: encoded pixels, which claim a size, or another
document. It is fitted into the rectangle of its element by a group of its own, which
is clipped if the image may cover more.
-/

set_option autoImplicit false
set_option relaxedAutoImplicit false

namespace VectorImage

namespace Svg

/-- An image before it is placed. -/
structure Embedded where
  content : ImageContent
  width : Binary32
  height : Binary32

/-- The media types of encoded pixels. -/
def rasterTypes : List String := ["image/jpg", "image/jpeg", "image/png", "image/gif", "image/webp"]

/-- Encoded pixels, if their header can be read. -/
def embeddedRaster? (identity : List Nat) (bytes : List UInt8) : Option Embedded := do
  let (w, h) ← Raster.claimedSize? bytes
  return ⟨.raster identity bytes, .ofNat w, .ofNat h⟩

/-- What an image element holds. -/
def Scene.embedded? (scene : Scene) (identity : List Nat) (s : Site) : Option Embedded := do
  let imageSize? ← scene.imageSize?
  let data ← dataOf? (← s.own? "href")
  let document? : Option Embedded :=
    (imageSize? data.bytes).map fun (w, h) => ⟨.document, w, h⟩
  let found ←
    if rasterTypes.contains data.mediaType then embeddedRaster? identity data.bytes
    else if data.mediaType = "image/svg+xml" then document?
    else if data.mediaType = "text/plain" then
      if (Raster.formatOf? data.bytes).isSome then embeddedRaster? identity data.bytes else document?
    else none
  if found.width.isPositive && found.height.isPositive then some found else none

/-- The box that an image element asks for. With one side given the other follows the image's
proportions. -/
def Scene.imageBox? (scene : Scene) (s : Site) (image : Embedded) : Option Box :=
  let side (key : String) (default : Binary32) : Binary32 :=
    s.measure scene.canvas key (.ofNumber default.widen)
  let width := side "width" image.width
  let height := side "height" image.height
  let (width, height) :=
    match s.length? "width", s.length? "height" with
    | some _, none => (width, image.height * (width / image.width))
    | none, some _ => (image.width * (height / image.height), height)
    | _, _ => (width, height)
  Box.ofCorner? (side "x" .zero) (side "y" .zero) width height

/-- A box as what a clip consists of. -/
def Box.clip? (b : Box) : Option PictureNode :=
  (outlineOf? [.moveTo ⟨b.left, b.top⟩, .lineTo ⟨b.right, b.top⟩, .lineTo ⟨b.right, b.bottom⟩,
    .lineTo ⟨b.left, b.bottom⟩, .close]).map fun outline =>
    .path ⟨outline, b, b, some ⟨.color .black, .one, .nonZero⟩, none, true⟩

/-- The group that an image element becomes, given the map of what is around. -/
def Scene.image? (scene : Scene) (around : Placement) (identity : List Nat) (s : Site) :
    Option PictureNode := do
  let image ← scene.embedded? identity s
  let frame ← scene.imageBox? s image
  let aspect := ((s.own? "preserveAspectRatio").bind aspectOf?).getD .standard
  let (width, height) := aspect.fit image.width image.height frame.width frame.height
  let (x, y) := aspect.place frame.left frame.top (frame.width - width) (frame.height - height)
  let view ← Box.ofCorner? x y width height
  let cover ← view.map? around
  let placement : Placement :=
    ⟨view.width / image.width, .zero, .zero, view.height / image.height, view.left, view.top⟩
  let leaf : PictureLeaf := ⟨image.content, image.width, image.height, cover, s.isVisible⟩
  let fitted : PictureNode :=
    .group { GroupFrame.plain with placement := placement } [] [] [.image leaf]
  if aspect.slice then
    return .group { GroupFrame.plain with clip := some .identity } [← frame.clip?] [] [fitted]
  else return fitted

end Svg

end VectorImage
