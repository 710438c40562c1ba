/-!
The 32-bit cyclic redundancy check of PNG chunks: reflected, with all bits set before and
inverted after.
-/

set_option autoImplicit false
set_option relaxedAutoImplicit false

namespace VectorImage

namespace Crc32

def polynomial : UInt32 := 0xedb88320

/-- Divide by one bit. -/
def bitStep (crc : UInt32) : UInt32 :=
  if crc &&& 1 = 1 then (crc >>> 1) ^^^ polynomial else crc >>> 1

/-- Take in one byte. -/
def byteStep (crc : UInt32) (byte : UInt8) : UInt32 :=
  Nat.repeat bitStep 8 (crc ^^^ byte.toUInt32)

/-- The check value of a list of bytes. -/
def checksum (bytes : List UInt8) : UInt32 := ~~~ bytes.foldl byteStep 0xffffffff

end Crc32

end VectorImage
