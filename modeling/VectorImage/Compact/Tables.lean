import VectorImage.Canonical.TableSet
import VectorImage.Compact.Encoding

/-!
The sections for the tables and for the document. Tables come in a fixed order (images, strings,
float lists, transforms, paths), each as a count followed by its entries; entries are loaded in
place, equal ones included. The document keeps its numbers in full.
-/

set_option autoImplicit false
set_option relaxedAutoImplicit false

namespace VectorImage

namespace Compact

/-- A count, then every entry. -/
def writeList {α : Type} (write : α → Except Error Bytes) (vs : List α) : Except Error Bytes := do
  let length ← writeLength vs.length
  let entries ← vs.mapM write
  return length ++ entries.flatten

def writeRaster (r : Raster) : Except Error Bytes := do
  let length ← writeLength r.bytes.length
  return writeU32 r.width ++ writeU32 r.height ++ length ++ r.bytes

def writeString (s : String) : Except Error Bytes := do
  let bytes := Utf8.encode s
  return (← writeLength bytes.length) ++ bytes

def writeFloats (width : FloatWidth) (xs : List Binary64) : Bytes := xs.flatMap (writeFloat width)

def writeFloatList (width : FloatWidth) (xs : List Binary64) : Except Error Bytes := do
  return (← writeLength xs.length) ++ writeFloats width xs

def writeAffine (width : FloatWidth) (m : Affine) : Except Error Bytes :=
  .ok (writeFloats width m.toList)

def writePath (width : FloatWidth) (p : Path) : Except Error Bytes := do
  return (← writeLength p.verbs.length) ++ p.verbs.map Verb.code ++ writeFloats width p.coords

def writeTables (width : FloatWidth) (t : TableSet) : Except Error Bytes := do
  let images ← writeList writeRaster t.images.entries.toList
  let strings ← writeList writeString t.strings.entries.toList
  let floatLists ← writeList (writeFloatList width) t.floatLists.entries.toList
  let transforms ← writeList (writeAffine width) t.transforms.entries.toList
  let paths ← writeList (writePath width) t.paths.entries.toList
  return images ++ strings ++ floatLists ++ transforms ++ paths

/-- A table of `n` entries read one by one and loaded in order. -/
def readTable {α : Type} [Keyed α] (read : Reader α) :
    Nat → CanonicalTable α → Reader (CanonicalTable α)
  | 0, t => return t
  | n + 1, t => do
    let v ← read
    let (t, _) ← Parser.ofExcept (t.pushIndexed v)
    readTable read n t

/-- A count, then as many entries. -/
def readCounted {α : Type} [Keyed α] (read : Reader α) : Reader (CanonicalTable α) := do
  let n ← readCount
  readTable read n .empty

def readRaster : Reader Raster := do
  let width ← readU32
  let height ← readU32
  let length ← readCount
  let bytes ← readBytes length
  return ⟨width, height, bytes⟩

def readString : Reader String := do
  let length ← readCount
  let bytes ← readBytes length
  match Utf8.decode bytes with
  | .ok s => return s
  | .error fault => Parser.fail (.format (.invalidString fault))

def readFloats (width : FloatWidth) (n : Nat) : Reader (List Binary64) :=
  Parser.replicate (readFloat width) n

def readFloatList (width : FloatWidth) : Reader (List Binary64) := do
  let length ← readCount
  readFloats width length

def readAffine (width : FloatWidth) : Reader Affine := do
  let a ← readFloat width
  let b ← readFloat width
  let c ← readFloat width
  let d ← readFloat width
  let e ← readFloat width
  let f ← readFloat width
  return ⟨a, b, c, d, e, f⟩

def readVerb : Reader Verb := do
  let code ← readByte
  Parser.ofExcept (Verb.ofCode code)

def readPath (width : FloatWidth) : Reader Path := do
  let length ← readCount
  let verbs ← Parser.replicate readVerb length
  let coords ← readFloats width (Path.coordCount verbs)
  Parser.ofExcept (Path.ofParts verbs coords)

def readTables (width : FloatWidth) : Reader TableSet := do
  let images ← readCounted readRaster
  let strings ← readCounted readString
  let floatLists ← readCounted (readFloatList width)
  let transforms ← readCounted (readAffine width)
  let paths ← readCounted (readPath width)
  return ⟨images, strings, floatLists, transforms, paths⟩

/-- One flag bit for each field of the document that is present. -/
def documentFlags (d : Document) : UInt8 :=
  (if d.width.isSome then 1 else 0) + (if d.height.isSome then 2 else 0) +
    (if d.viewBox.isSome then 4 else 0) + (if d.tint.isSome then 8 else 0)

/-- What an optional field writes. -/
def writeOption {α : Type} (write : α → Bytes) : Option α → Bytes
  | none => []
  | some v => write v

/-- An optional field, present if its flag is set. -/
def readOption {α : Type} (present : Bool) (read : Reader α) : Reader (Option α) :=
  if present then some <$> read else return none

/-- A bit of a flag byte. -/
def hasBit (flags : UInt8) (k : Nat) : Bool := flags.toNat.testBit k

def writeRect (r : Rect) : Bytes := r.toList.flatMap writeBinary64

def writeColor (c : Color) : Bytes := writeU32 c.toArgb

def writeDocument (d : Document) : Bytes :=
  writeByte (documentFlags d) ++ writeOption writeBinary64 d.width ++
    writeOption writeBinary64 d.height ++ writeOption writeRect d.viewBox ++
    writeOption writeColor d.tint

def readRect : Reader Rect := do
  let x0 ← readBinary64
  let y0 ← readBinary64
  let x1 ← readBinary64
  let y1 ← readBinary64
  return ⟨x0, y0, x1, y1⟩

def readColor : Reader Color := Color.ofArgb <$> readU32

def readDocument : Reader Document := do
  let flags ← readByte
  let width ← readOption (hasBit flags 0) readBinary64
  let height ← readOption (hasBit flags 1) readBinary64
  let viewBox ← readOption (hasBit flags 2) readRect
  let tint ← readOption (hasBit flags 3) readColor
  return ⟨width, height, viewBox, tint⟩

end Compact

end VectorImage
