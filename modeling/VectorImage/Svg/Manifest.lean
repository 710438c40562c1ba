import VectorImage.Call.Basic
import VectorImage.Indexed
import VectorImage.Raster.Png
import VectorImage.Svg.Picture

/-!
The tables of a picture: every raster image, each definition once, and every list of numbers that
a paint may refer to, each once, in the order they are met. Clips come before masks and masks
before what they apply to; hidden leaves count too.
-/

set_option autoImplicit false
set_option relaxedAutoImplicit false

namespace VectorImage

namespace Svg

/-- The stop offsets of a gradient. -/
def Ramp.offsets (r : Ramp) : List Binary64 := r.stops.map fun s => s.offset.widen

/-- The list of numbers that an ink refers to, if there is one. -/
def Ink.floatLists : Ink → List (List Binary64)
  | .ramp r => [r.offsets]
  | _ => []

/-- The dashes of a stroke, if it has any. -/
def InkStroke.dashFloats? (s : InkStroke) : Option (List Binary64) :=
  s.dashes.map fun dashes => dashes.map Binary32.widen

def InkFill.floatLists (f : InkFill) : List (List Binary64) := f.ink.floatLists

def InkStroke.floatLists (s : InkStroke) : List (List Binary64) :=
  s.ink.floatLists ++ s.dashFloats?.toList

def PathLeaf.floatLists (p : PathLeaf) : List (List Binary64) :=
  p.fill.toList.flatMap InkFill.floatLists ++ p.stroke.toList.flatMap InkStroke.floatLists

/-- The whole number nearest to a side of a layout, as a number of pixels. -/
def pixels (side : Binary32) : UInt32 :=
  UInt32.ofNat (min (side.widen.toInt?.getD 0).toNat (2 ^ 32 - 1))

/-- The raster image of a leaf with its identity. An image whose header is not sound takes the
size of its layout. -/
def PictureLeaf.raster? (leaf : PictureLeaf) : Option (List Nat × Raster) :=
  match leaf.content with
  | .raster identity bytes =>
    match Raster.ofEncoded bytes with
    | .ok r => some (identity, r)
    | .error _ => some (identity, ⟨pixels leaf.width, pixels leaf.height, bytes⟩)
  | .document => none

mutual
/-- The lists of numbers below a node. -/
def PictureNode.floatLists : PictureNode → List (List Binary64)
  | .group _ clip mask children => floatListsAll clip ++ floatListsAll mask ++ floatListsAll children
  | .path leaf => leaf.floatLists
  | .image _ => []

def PictureNode.floatListsAll : List PictureNode → List (List Binary64)
  | [] => []
  | node :: rest => node.floatLists ++ floatListsAll rest
end

mutual
/-- The raster images below a node. -/
def PictureNode.rasters : PictureNode → List (List Nat × Raster)
  | .group _ clip mask children => rastersAll clip ++ rastersAll mask ++ rastersAll children
  | .path _ => []
  | .image leaf => leaf.raster?.toList

def PictureNode.rastersAll : List PictureNode → List (List Nat × Raster)
  | [] => []
  | node :: rest => node.rasters ++ rastersAll rest
end

/-- The tables of a picture, with the identities of the images. -/
structure Manifest where
  images : List (List Nat × Raster)
  floatLists : List (List Binary64)

namespace Manifest

/-- The first entry for each key. -/
def firstOfEach {κ α : Type} [BEq κ] (entries : List (κ × α)) : List (κ × α) :=
  (entries.map Prod.fst).eraseDups.filterMap fun key =>
    (entries.lookup key).map fun value => (key, value)

def ofNodes (nodes : List PictureNode) : Manifest where
  images := firstOfEach (PictureNode.rastersAll nodes)
  floatLists := (PictureNode.floatListsAll nodes).eraseDups

/-- The tables, unless they are too long for indices. -/
def tables (m : Manifest) : Except Error Tables :=
  if m.images.length ≤ 2 ^ 32 ∧ m.floatLists.length ≤ 2 ^ 32 then
    .ok ⟨m.images.map Prod.snd, [], m.floatLists⟩
  else .error (.other .indexOverflow)

/-- The index of an image. -/
def imageId? (m : Manifest) (identity : List Nat) : Option ImageId :=
  ((m.images.map Prod.fst).idxOf? identity).map UInt32.ofNat

/-- The index of a list of numbers, which must be in the tables. -/
def floatListId (m : Manifest) (floats : List Binary64) : Except Error FloatListId :=
  match m.floatLists.idxOf? floats with
  | some i => .ok (UInt32.ofNat i)
  | none => .error (.structural .floatListNotScanned)

end Manifest

end Svg

end VectorImage
