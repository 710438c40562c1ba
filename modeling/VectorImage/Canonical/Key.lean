import VectorImage.Bytes.LittleEndian
import VectorImage.Raster.Basic
import VectorImage.Shape
import VectorImage.Text.Utf8

/-!
Two ways for values to be the same. By content: structured values have byte keys, and two values are
taken to be the same exactly when their keys are; numbers contribute their bit patterns, so the two
zeros differ and a not-a-number pattern equals itself. Optional parts are tagged and lists carry their
length, so that a key can be read back.

By identity: a shared value is an instance, named by the run that made it (its stamp, which no two
runs share) and by its place in what that run made. Two occurrences are the same shared value exactly
when their instances are equal, whatever their contents.
-/

set_option autoImplicit false
set_option relaxedAutoImplicit false

namespace VectorImage

abbrev Key := List UInt8

/-- Values that are compared by a key. -/
class Keyed (α : Type) where
  key : α → Key

/-- How keys are spread over the buckets of a table. -/
class KeyDigest where
  digest : Key → UInt64

/-- Multiply and add, byte by byte, from a fixed offset. -/
instance : KeyDigest where
  digest key := key.foldl (fun h b => (h ^^^ b.toUInt64) * 0x100000001b3) 0xcbf29ce484222325

namespace Key

def bool (b : Bool) : Key := [if b then 1 else 0]

def u32 (n : UInt32) : Key := LittleEndian.write 4 n.toNat

/-- An optional name takes as many bytes as a length. -/
def wide (n : UInt32) : Key := LittleEndian.write 8 n.toNat

/-- A length takes eight bytes. One that they cannot hold follows the greatest that they can. -/
def nat (n : Nat) : Key :=
  if n < 2 ^ 64 - 1 then LittleEndian.write 8 n
  else LittleEndian.write 8 (2 ^ 64 - 1) ++ Varint.write n

def float (x : Binary64) : Key := LittleEndian.write 8 x.bits.toNat

def option {α : Type} (write : α → Key) : Option α → Key
  | none => [0]
  | some v => 1 :: write v

/-- The length, then the entries. -/
def list {α : Type} (write : α → Key) (vs : List α) : Key := nat vs.length ++ vs.flatMap write

def bytes (bs : List UInt8) : Key := nat bs.length ++ bs

def floats (xs : List Binary64) : Key := list float xs

def string (s : String) : Key := bytes (Utf8.encode s)

def affine (m : Affine) : Key := m.toList.flatMap float

def raster (r : Raster) : Key := u32 r.width ++ u32 r.height ++ bytes r.bytes

def path (p : Path) : Key := list (fun v => [Verb.code v]) p.verbs ++ floats p.coords

def poly (g : PolyGeom) : Key := bool g.closed ++ floats g.toFloats

def source : PaintSource → Key
  | .solid c => 0 :: u32 c.toArgb
  | .gradient id => 1 :: u32 id

def fill (f : Fill) : Key := source f.source ++ [f.rule.code]

def stroke (s : Stroke) : Key :=
  source s.source ++ float s.width ++ [s.cap.code, s.join.code] ++ float s.miterLimit ++
    option u32 s.dash ++ float s.dashOffset

def paint (p : Paint) : Key := option fill p.fill ++ option stroke p.stroke

def gradient (g : Gradient) : Key :=
  [g.kind.code] ++ floats g.kind.toFloats ++ u32 g.offsets ++
    list (fun c => u32 (Color.toArgb c)) g.colors ++ [g.spread.code] ++ option affine g.transform

end Key

instance : Keyed Raster := ⟨Key.raster⟩
instance : Keyed String := ⟨Key.string⟩
instance : Keyed (List Binary64) := ⟨Key.floats⟩
instance : Keyed Affine := ⟨Key.affine⟩
instance : Keyed Path := ⟨Key.path⟩
instance : Keyed PolyGeom := ⟨Key.poly⟩
instance : Keyed Paint := ⟨Key.paint⟩
instance : Keyed Gradient := ⟨Key.gradient⟩

/-! Identity. -/

/-- The run that made a value, and the place of the value within the run. -/
structure Instance where
  stamp : Nat
  place : List Nat
  deriving DecidableEq, Hashable, Inhabited

/-- A value with its identity. -/
structure Shared (α : Type) where
  inst : Instance
  value : α
  deriving DecidableEq, Inhabited

end VectorImage
