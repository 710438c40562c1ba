import VectorImage.Bytes.Gzip
import VectorImage.Svg.Nodes
import VectorImage.Svg.Tree
import VectorImage.Text.Utf8
import VectorImage.Xml.Parser

/-!
Reading a document into a picture. The size is that of the root element, where percentages refer
to the view box; without a view box they refer to a standard size, and the picture then takes the
size of what is in it. A view box is mapped onto the size by a group around everything.
-/

set_option autoImplicit false
set_option relaxedAutoImplicit false

namespace VectorImage

namespace Svg

/-- The picture with the size of what is in it, if that is one. -/
def Picture.fitted (p : Picture) : Picture :=
  match Box.unionAll? (PictureNode.covers p.nodes) with
  | some b =>
    if b.right.isPositive && b.bottom.isPositive then { p with width := b.right, height := b.bottom }
    else p
  | none => p

/-- The side of the root element: a percentage of the view box or of the standard size, or a
length. -/
def rootSide (root : Site) (viewBox : Option Box) (key : String) : Binary32 :=
  let l := (root.length? key).getD (percent 100)
  match viewBox with
  | some r => l.resolve root.fontSize ((⟨r.width, r.height⟩ : Canvas).extent key)
  | none =>
    match l with
    | ⟨x, .percent⟩ => .ofBinary64 (x / .ofNat 100 * .ofNat 100)
    | l => l.resolve root.fontSize .zero

/-- The map of a view box onto a size. -/
def viewBoxPlacement (viewBox : Box) (aspect : Aspect) (width height : Binary32) : Placement :=
  let sx := width / viewBox.width
  let sy := height / viewBox.height
  let (sx, sy) :=
    if aspect.align.isNone then (sx, sy)
    else
      let least := if sy.lt sx then sy else sx
      let greatest := if sx.lt sy then sy else sx
      if aspect.slice then (greatest, greatest) else (least, least)
  let (x, y) := aspect.place (-viewBox.left * sx) (-viewBox.top * sy) (width - viewBox.width * sx)
    (height - viewBox.height * sy)
  ⟨sx, .zero, .zero, sy, x, y⟩

/-- A bound on the steps between an element and what it refers to: no element is resolved inside
itself, and one step leads to a sibling, a child or a reference. -/
def resolutionFuel (elements : Nat) : Nat := 2 * (elements + 2) * (elements + 2)

/-- A side of the root element is a percentage. -/
def hasRelativeSide (root : Site) : Bool :=
  ["width", "height"].any fun key => ((root.length? key).getD (percent 100)).unit == .percent

/-- The picture of a root element. -/
def Picture.ofRoot? (imageSize? : Option (List UInt8 → Option (Binary32 × Binary32)))
    (root : Element) : Option Picture := do
  if root.name ≠ "svg" then none
  let site : Site := ⟨root, []⟩
  let viewBox? : Option Box := do
    let (x, y, w, h) ← (site.own? "viewBox").bind viewBoxOf?
    Box.ofCorner? (.ofBinary64 x) (.ofBinary64 y) (.ofBinary64 w) (.ofBinary64 h)
  let width := rootSide site viewBox? "width"
  let height := rootSide site viewBox? "height"
  if !(width.isPositive && height.isPositive) then none
  let viewBox := viewBox?.getD (.ofSize width height)
  let aspect := ((site.own? "preserveAspectRatio").bind aspectOf?).getD .standard
  let sites := root.sites []
  let scene : Scene := ⟨sites, ⟨viewBox.width, viewBox.height⟩, imageSize?⟩
  let placement := viewBoxPlacement viewBox aspect width height
  let nodes := scene.nodes (resolutionFuel sites.length) (.initial placement) site
  let nodes :=
    if placement.isIdentity || !site.isDisplayed then nodes
    else [.group { GroupFrame.plain with placement := placement } [] [] nodes]
  let picture : Picture := ⟨width, height, nodes⟩
  return if viewBox?.isNone && hasRelativeSide site then picture.fitted else picture

/-- The text of a document in UTF-8, which may be compressed. -/
def textOf? (bytes : List UInt8) : Option (List Char) := do
  let bytes ← if Gzip.signature.isPrefixOf bytes then Gzip.decode? bytes else some bytes
  (Utf8.decodeList bytes).toOption

/-- Read a document, given how to read documents used as images. -/
def Picture.read? (imageSize? : Option (List UInt8 → Option (Binary32 × Binary32)))
    (bytes : List UInt8) : Option Picture := do
  let root ← Xml.ofText? (← textOf? bytes)
  Picture.ofRoot? imageSize? (← Element.ofDocument? root)

/-- The size of a document used as an image; images inside it are not drawn. -/
def imageSize? (bytes : List UInt8) : Option (Binary32 × Binary32) :=
  (Picture.read? none bytes).map fun p => (p.width, p.height)

/-- Read a document. -/
def Picture.ofBytes? (bytes : List UInt8) : Option Picture :=
  Picture.read? (some imageSize?) bytes

end Svg

end VectorImage
