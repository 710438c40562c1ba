import VectorImage.Bytes.LittleEndian
import VectorImage.Error
import VectorImage.Input.Parser
import VectorImage.Number.Binary32

/-!
The elements of the stored form, each as a writer to bytes and a reader from them: little-endian
words, indices and counts in base 128, optional indices, and numbers at a stored width.
-/

set_option autoImplicit false
set_option relaxedAutoImplicit false

namespace VectorImage

namespace Compact

abbrev Bytes := List UInt8

/-- A reader of stored bytes. -/
abbrev Reader (α : Type) := Parser UInt8 Error α

def truncated (need : Nat) (i : Input UInt8) : Error :=
  .format (.truncated need i.offset i.rest.length)

/-- Exactly `n` bytes. -/
def readBytes (n : Nat) : Reader Bytes := Parser.takeExactly n (truncated n)

/-- A word of `k` bytes. -/
def readWord (k : Nat) : Reader Nat := do
  let bytes ← readBytes k
  return LittleEndian.read bytes

def readByte : Reader UInt8 := do return UInt8.ofNat (← readWord 1)

def readU32 : Reader UInt32 := do return UInt32.ofNat (← readWord 4)

def writeByte (b : UInt8) : Bytes := [b]

def writeU16 (n : Nat) : Bytes := LittleEndian.write 2 n

def writeU32 (n : UInt32) : Bytes := LittleEndian.write 4 n.toNat

/-- Seven bits to a byte, the low ones first; every byte but the last has its high bit set. -/
def writeVarint (n : UInt32) : Bytes :=
  if n < 0x80 then [n.toUInt8] else (n.toUInt8 &&& 0x7f ||| 0x80) :: writeVarint (n >>> 7)
termination_by n.toNat
decreasing_by
  rename_i hn
  have hlarge : 128 ≤ n.toNat := Nat.not_lt.mp fun h => hn (UInt32.lt_iff_toNat_lt.mpr h)
  have hshift : (n >>> 7).toNat = n.toNat / 128 := by
    simp [UInt32.toNat_shiftRight, Nat.shiftRight_eq_div_pow]
  omega

/-- Read up to `groups` more groups of seven bits; the next one goes to `shift`. The fifth has only
the four bits left that 32 bits leave it. -/
def readDigits : (groups : Nat) → (shift value : UInt32) → Reader UInt32
  | 0, _, _ => Parser.fail (.format .varintTooLong)
  | groups + 1, shift, value => do
    let b ← readByte
    let bits := b.toUInt32 &&& 0x7f
    if shift = 28 ∧ 0x0f < bits then Parser.fail (.format .varintOverflow)
    let value := value ||| bits <<< shift
    if b &&& 0x80 = 0 then return value
    readDigits groups (shift + 7) value

def readVarint : Reader UInt32 := readDigits 5 0 0

/-- An optional index is stored one higher, zero standing for none. -/
def writeOptIndex : Option UInt32 → Bytes
  | none => writeVarint 0
  | some i => writeVarint (i + 1)

def readOptIndex : Reader (Option UInt32) := do
  let n ← readVarint
  return if n = 0 then none else some (n - 1)

/-- A count of things that take at least a byte each, so that it cannot exceed the bytes left. -/
def readCount : Reader Nat := do
  let n ← readVarint
  let i ← Parser.input
  if (Parser.splitExactly n.toNat i.rest).isNone then
    Parser.fail (.format (.countExceeds n.toNat i.rest.length))
  return n.toNat

/-- A length that fits 32 bits. -/
def fitU32 (n : Nat) : Except Error UInt32 :=
  if n < 2 ^ 32 then .ok (UInt32.ofNat n) else .error (.format (.lengthOverflow n))

def writeLength (n : Nat) : Except Error Bytes := do
  return writeVarint (← fitU32 n)

def writeBinary64 (x : Binary64) : Bytes := LittleEndian.write 8 x.bits.toNat

def readBinary64 : Reader Binary64 := do return ⟨UInt64.ofNat (← readWord 8)⟩

/-- A number at a stored width. -/
def writeFloat : FloatWidth → Binary64 → Bytes
  | .binary32, x => LittleEndian.write 4 (Binary32.ofBinary64 x).bits.toNat
  | .binary64, x => writeBinary64 x

def readFloat : FloatWidth → Reader Binary64
  | .binary32 => do
    let bits ← readWord 4
    return Binary32.widen ⟨UInt32.ofNat bits⟩
  | .binary64 => readBinary64

end Compact

end VectorImage
