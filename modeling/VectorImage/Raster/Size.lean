import VectorImage.Bytes.LittleEndian
import VectorImage.Raster.Png

/-!
The size that the first bytes of an encoded image claim, read without a check of anything else.
Four formats are told apart by how they begin.
-/

set_option autoImplicit false
set_option relaxedAutoImplicit false

namespace VectorImage

namespace Raster

/-- The formats of encoded pixels. -/
inductive Format
  | png | gif | jpeg | webp
  deriving DecidableEq, Inhabited

/-- The format that the bytes begin like. -/
def formatOf? (bytes : List UInt8) : Option Format :=
  if bytes.length < 12 then none
  else if [0xff, 0xd8, 0xff].isPrefixOf bytes then some .jpeg
  else if (Png.signature.take 4).isPrefixOf bytes then some .png
  else if (Png.name ['G', 'I', 'F', '8']).isPrefixOf bytes then some .gif
  else if (Png.name ['R', 'I', 'F', 'F']).isPrefixOf bytes &&
      (Png.name ['W', 'E', 'B', 'P']).isPrefixOf (bytes.drop 8) then
    some .webp
  else none

/-- Some bytes from an offset on, if there are as many. -/
def slice? (bytes : List UInt8) (offset count : Nat) : Option (List UInt8) :=
  let taken := (bytes.drop offset).take count
  if taken.length = count then some taken else none

/-- The natural at an offset, most significant byte first. -/
def big? (bytes : List UInt8) (offset count : Nat) : Option Nat :=
  (slice? bytes offset count).map Png.bigEndian

/-- The natural at an offset, least significant byte first. -/
def little? (bytes : List UInt8) (offset count : Nat) : Option Nat :=
  (slice? bytes offset count).map LittleEndian.read

/-- The second byte of a marker that gives the size of a frame. -/
def isFrameMarker (code : Nat) : Bool :=
  0xc0 ≤ code && code ≤ 0xcf && !([0xc4, 0xc8, 0xcc].contains code)

/-- The size in a list of marked parts; an image inside another has an end of its own. -/
def frameSize? (depth : Nat) (bytes : List UInt8) : Option (Nat × Nat) :=
  match bytes with
  | 0xff :: code :: rest =>
    let code := code.toNat
    if isFrameMarker code && depth = 0 then do
      let height ← big? rest 3 2
      let width ← big? rest 5 2
      return (width, height)
    else if code = 0xd9 && depth = 0 then none
    else
      let depth := if code = 0xd8 then depth + 1 else if code = 0xd9 then depth - 1 else depth
      match big? rest 0 2 with
      | some length => if length < 2 then none else frameSize? depth (rest.drop length)
      | none => none
  | _ => none
termination_by bytes.length
decreasing_by simp; omega

/-- The size in one of three kinds of chunk. -/
def chunkSize? (bytes : List UInt8) : Option (Nat × Nat) := do
  let kind ← slice? bytes 12 4
  if kind = Png.name ['V', 'P', '8', ' '] then
    return ((← little? bytes 26 2) % 2 ^ 14, (← little? bytes 28 2) % 2 ^ 14)
  else if kind = Png.name ['V', 'P', '8', 'L'] then
    let packed ← little? bytes 21 4
    return (packed % 2 ^ 14 + 1, packed / 2 ^ 14 % 2 ^ 14 + 1)
  else if kind = Png.name ['V', 'P', '8', 'X'] then
    return ((← little? bytes 24 3) + 1, (← little? bytes 27 3) + 1)
  else none

/-- The width and height that encoded pixels claim. -/
def claimedSize? (bytes : List UInt8) : Option (Nat × Nat) := do
  match ← formatOf? bytes with
  | .png => return (← big? bytes 16 4, ← big? bytes 20 4)
  | .gif => return (← little? bytes 6 2, ← little? bytes 8 2)
  | .jpeg => frameSize? 0 (bytes.drop 2)
  | .webp => chunkSize? bytes

end Raster

end VectorImage
