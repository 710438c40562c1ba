import VectorImage.Compact.Encoding

/-!
The header of the stored form and its division into sections. Extra header bytes and extra
sections are skipped, so that later minor versions stay readable; another major version is not.
-/

set_option autoImplicit false
set_option relaxedAutoImplicit false

namespace VectorImage

namespace Compact

structure Header where
  major : Nat
  minor : Nat
  width : FloatWidth
  deriving DecidableEq, Inhabited

def magic : Bytes := [0x56, 0x47, 0x43, 0x49]

def majorVersion : Nat := 1

def minorVersion : Nat := 0

namespace Header

/-- The header that this version writes. -/
def current (width : FloatWidth) : Header := ⟨majorVersion, minorVersion, width⟩

/-- The low flag bit says that numbers are stored in full. -/
def flags (width : FloatWidth) : UInt8 :=
  match width with
  | .binary32 => 0
  | .binary64 => 1

def widthOfFlags (flags : UInt8) : FloatWidth :=
  if flags.toNat % 2 = 1 then .binary64 else .binary32

def write (h : Header) : Bytes :=
  magic ++ writeU16 h.major ++ writeU16 h.minor ++ writeByte (flags h.width) ++ writeU16 0

def read : Reader Header := do
  if (← readBytes 4) ≠ magic then Parser.fail (.format .badMagic)
  let major ← readWord 2
  let minor ← readWord 2
  if major ≠ majorVersion then Parser.fail (.format (.unsupportedMajor major))
  let flags ← readByte
  let extension ← readWord 2
  let _ ← readBytes extension
  return ⟨major, minor, widthOfFlags flags⟩

end Header

/-- A section: its length in four bytes, then its payload. -/
def writeSection (payload : Bytes) : Except Error Bytes := do
  let length ← fitU32 payload.length
  return writeU32 length ++ payload

/-- The payload of the next section. -/
def readSection (which : Section) : Reader Bytes := do
  let length ← Parser.mapError (fun _ => .format (.missingSection which)) readU32
  Parser.mapError (fun _ => .format (.truncatedSection which)) (readBytes length.toNat)

/-- Skip any sections that follow. -/
def skipSections : Reader Unit :=
  Parser.iterate (fun _ => do
    match ← Parser.peek? with
    | none => return none
    | some _ =>
      let _ ← readSection .extension
      return some ()) ()

end Compact

end VectorImage
