import VectorImage.Bytes.Crc32
import VectorImage.Bytes.LittleEndian
import VectorImage.Error
import VectorImage.Input.Parser
import VectorImage.Raster.Basic

/-!
The header of PNG images. The size is in the first chunk; an image counts as one when its chunks
are sound up to the first that holds pixels, and a line of it is not too long. A chunk whose name
has a capital letter first is critical: its check value must be right and its name known. Of the
others only those that describe the frames of an animation are checked.
-/

set_option autoImplicit false
set_option relaxedAutoImplicit false

namespace VectorImage

namespace Png

abbrev Scan (α : Type) := Parser UInt8 OtherError α

def signature : List UInt8 := [0x89, 0x50, 0x4e, 0x47, 0x0d, 0x0a, 0x1a, 0x0a]

/-- The four bytes of a chunk name. -/
def name (letters : List Char) : List UInt8 := letters.map fun c => UInt8.ofNat c.toNat

def headerName : List UInt8 := name ['I', 'H', 'D', 'R']

def paletteName : List UInt8 := name ['P', 'L', 'T', 'E']

def pixelsName : List UInt8 := name ['I', 'D', 'A', 'T']

/-- The name of chunks that describe a frame. -/
def frameName : List UInt8 := name ['f', 'c', 'T', 'L']

/-- The name of chunks that hold the pixels of a frame. -/
def framePixelsName : List UInt8 := name ['f', 'd', 'A', 'T']

/-- The natural that bytes write, most significant first. -/
def bigEndian (bytes : List UInt8) : Nat := LittleEndian.read bytes.reverse

def fault {α : Type} : Scan α := Parser.fail .rasterDimensions

def take (n : Nat) : Scan (List UInt8) := Parser.takeExactly n fun _ => .rasterDimensions

def word : Scan Nat := do return bigEndian (← take 4)

/-- The length and the name of the next chunk. -/
def chunkHead : Scan (Nat × List UInt8) := do
  let length ← word
  let name ← take 4
  return (length, name)

/-- The third bit of the first letter is clear, as it is in capital letters. -/
def isCritical (name : List UInt8) : Bool :=
  (name.head?.map fun b => b.toNat / 32 % 2 == 0).getD false

/-- The data of a chunk, if its check value is right. -/
def checkedData? (length : Nat) (name : List UInt8) : Scan (Option (List UInt8)) := do
  let data ← take length
  let check ← word
  return if check = (Crc32.checksum (name ++ data)).toNat then some data else none

/-- The size of an image and the number of bytes of a pixel once it is decoded. -/
structure Header where
  width : Nat
  height : Nat
  pixelBytes : Nat

/-- The bit depths that a color type allows. -/
def depths : Nat → List Nat
  | 0 => [1, 2, 4, 8, 16]
  | 2 => [8, 16]
  | 3 => [1, 2, 4, 8]
  | 4 => [8, 16]
  | 6 => [8, 16]
  | _ => []

/-- The channels of a color type; colors of a palette have three. -/
def channels : Nat → Nat
  | 0 => 1
  | 4 => 2
  | 6 => 4
  | _ => 3

/-- The longest line of a decoded image, in bytes. -/
def lineLimit : Nat := 512 * 1024 * 1024

/-- The header, whose fields must be allowed. -/
def header? (data : List UInt8) : Option Header :=
  match data.drop 8 |>.map UInt8.toNat with
  | depth :: color :: compression :: filter :: interlace :: _ =>
    let width := bigEndian (data.take 4)
    let height := bigEndian ((data.drop 4).take 4)
    if width ≠ 0 ∧ height ≠ 0 ∧ depth ∈ depths color ∧ compression = 0 ∧ filter = 0 ∧
      interlace ≤ 1 then some ⟨width, height, channels color * (if depth = 16 then 2 else 1)⟩
    else none
  | _ => none

/-- What has been met on the way to the pixels: a palette, and descriptions of frames. -/
structure Progress where
  hasPalette : Bool
  frames : Nat
  isReached : Bool

/-- The description of a frame in front of the pixels: its number, the whole image as its place,
and two options. -/
def isFrame (h : Header) (number : Nat) (data : List UInt8) : Bool :=
  let field (i : Nat) : Nat := bigEndian ((data.drop (4 * i)).take 4)
  let options := (data.drop 24).map UInt8.toNat
  26 ≤ data.length && field 0 = number && field 1 = h.width && field 2 = h.height &&
    field 3 = 0 && field 4 = 0 && (options.getD 0 3) ≤ 2 && (options.getD 1 2) ≤ 1

/-- A palette has from one to 256 colors of three bytes. -/
def isPalette (data : List UInt8) : Bool :=
  !data.isEmpty && data.length ≤ 768 && data.length % 3 = 0

/-- Pass over a chunk, unless pixels are reached. -/
def skipChunk (h : Header) (p : Progress) : Scan (Option Progress) := do
  if p.isReached then return none
  let (length, name) ← chunkHead
  if name = pixelsName then return some { p with isReached := true }
  if name = framePixelsName then
    if p.frames = 0 || length < 4 then fault
    return some { p with isReached := true }
  if isCritical name && name != paletteName then fault
  match ← checkedData? length name with
  | none => if isCritical name then fault else return some p
  | some data =>
    if name = paletteName then
      if p.hasPalette || !isPalette data then fault
      return some { p with hasPalette := true }
    if name = frameName then
      if !isFrame h p.frames data then fault
      return some { p with frames := p.frames + 1 }
    return some p

/-- The size in pixels, read from the header and confirmed up to the pixels. -/
def size : Scan (Nat × Nat) := do
  if (← take signature.length) ≠ signature then fault
  let (length, name) ← chunkHead
  if name ≠ headerName then fault
  match (← checkedData? length name).bind header? with
  | none => fault
  | some h =>
    if lineLimit < h.width * h.pixelBytes then fault
    let _ ← Parser.iterate (skipChunk h) ⟨false, 0, false⟩
    return (h.width, h.height)

end Png

/-- Encoded bytes with the size that their header gives. -/
def Raster.ofEncoded (bytes : List UInt8) : Except Error Raster :=
  match Png.size.parse bytes with
  | .ok (width, height) => .ok ⟨UInt32.ofNat width, UInt32.ofNat height, bytes⟩
  | .error e => .error (.other e)

end VectorImage
