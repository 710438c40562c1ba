import VectorImage.Bytes.Crc32
import VectorImage.Bytes.Inflate

/-!
Deflated data in a frame: a header that may name what is in it, then the data, a check value and
the size. What follows does not count.
-/

set_option autoImplicit false
set_option relaxedAutoImplicit false

namespace VectorImage

namespace Gzip

/-- A reader of bytes; every fault is the same. -/
abbrev Scan (α : Type) := Parser UInt8 Unit α

def fault {α : Type} : Scan α := Parser.fail ()

def take (count : Nat) : Scan (List UInt8) := Parser.takeExactly count fun _ => ()

/-- A natural of some bytes. -/
def nat (count : Nat) : Scan Nat := do return LittleEndian.read (← take count)

/-- The two bytes that framed data begins with. -/
def signature : List UInt8 := [0x1f, 0x8b]

/-- Bytes up to a zero, and the zero. -/
def text : Scan (List UInt8) := do
  let chars ← Parser.takeWhile (· != 0)
  return chars ++ (← take 1)

/-- The parts that a header may have after its ten first bytes, with the bit that announces each:
data with its size before it, a name and a comment. -/
def optionalParts : List (Nat × Scan (List UInt8)) :=
  [(2, do
      let size ← take 2
      return size ++ (← take (LittleEndian.read size))),
    (3, text), (4, text)]

/-- The header. A check value at its end must be right. -/
def header : Scan Unit := do
  let start ← take 10
  let method := start.getD 2 0
  let flags := (start.getD 3 0).toNat
  if !signature.isPrefixOf start || method != 8 || 32 ≤ flags then fault
  let parts ← optionalParts.mapM fun (bit, part) =>
    if flags.testBit bit then part else pure []
  if flags.testBit 1 then
    let check ← nat 2
    if check ≠ (Crc32.checksum (start ++ parts.flatten)).toNat % 2 ^ 16 then fault

/-- What framed data holds. -/
def frame : Scan (List UInt8) := do
  header
  match Inflate.read? (← Parser.input).rest with
  | none => fault
  | some (bytes, count) =>
    let _ ← take count
    let check ← nat 4
    let size ← nat 4
    if check ≠ (Crc32.checksum bytes).toNat || size ≠ bytes.length % 2 ^ 32 then fault
    return bytes

/-- Read framed data. -/
def decode? (bytes : List UInt8) : Option (List UInt8) := (frame.parse bytes).toOption

end Gzip

end VectorImage
