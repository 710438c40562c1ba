/-!
What can go wrong, by cause. Each cause belongs to one of five kinds; `Error.message` gives the
wording.
-/

set_option autoImplicit false
set_option relaxedAutoImplicit false

namespace VectorImage

/-- The tables an index can point into. -/
inductive TableKind
  | image | string | floatList | transform | path | gradient
  deriving DecidableEq

def TableKind.name : TableKind → String
  | .image => "image"
  | .string => "string"
  | .floatList => "float list"
  | .transform => "transform"
  | .path => "path"
  | .gradient => "gradient"

/-- The calls that may only follow the tables. -/
inductive TreeCall
  | gradient | beginGroup | clip | beginMask | path | rect | ellipse | poly | image | text | use
  deriving DecidableEq

def TreeCall.name : TreeCall → String
  | .gradient => "gradient"
  | .beginGroup => "begin_group"
  | .clip => "clip_path"
  | .beginMask => "begin_mask"
  | .path => "path"
  | .rect => "rect"
  | .ellipse => "ellipse"
  | .poly => "poly"
  | .image => "image"
  | .text => "text"
  | .use => "use"

/-- The sections of the stored form. -/
inductive Section
  | tables | document | ops | extension
  deriving DecidableEq

def Section.name : Section → String
  | .tables => "tables"
  | .document => "document"
  | .ops => "ops"
  | .extension => "extension"

/-- The enumerations stored as one code byte, by the name they are reported under. -/
inductive CodeTable
  | fillRule | lineCap | lineJoin | spreadMethod
  deriving DecidableEq

def CodeTable.name : CodeTable → String
  | .fillRule => "FillRule"
  | .lineCap => "LineCap"
  | .lineJoin => "LineJoin"
  | .spreadMethod => "SpreadMethod"

/-- The operand lists whose length is fixed. -/
inductive Operands
  | rect | ellipse | image | text | stroke
  deriving DecidableEq

def Operands.name : Operands → String
  | .rect => "rect"
  | .ellipse => "ellipse"
  | .image => "image"
  | .text => "text"
  | .stroke => "stroke"

def Operands.count : Operands → Nat
  | .rect => 6
  | .ellipse => 4
  | .image => 4
  | .text => 3
  | .stroke => 3

/-- Where and how a byte string stops being UTF-8. An incomplete last character has no length. -/
structure Utf8Fault where
  validUpTo : Nat
  length : Option Nat
  deriving DecidableEq

def Utf8Fault.message (f : Utf8Fault) : String :=
  match f.length with
  | some n => s!"invalid utf-8 sequence of {n} bytes from index {f.validUpTo}"
  | none => s!"incomplete utf-8 byte sequence from index {f.validUpTo}"

/-- Malformed nesting of calls, and malformed bytes. -/
inductive FormatError
  | initTwice
  | documentBeforeInit
  | documentAfterTree
  | beforeInit (call : TreeCall)
  | endGroupInMask
  | endGroupUnopened
  | maskContentUnopened
  | endMaskBeforeContent
  | endMaskUnopened
  | finishBeforeInit
  | unclosedGroup
  | unclosedMask
  | scopeMismatch
  | truncated (need offset available : Nat)
  | varintOverflow
  | varintTooLong
  | countExceeds (count available : Nat)
  | badMagic
  | unsupportedMajor (version : Nat)
  | missingSection (which : Section)
  | truncatedSection (which : Section)
  | unknownOpcode (code : UInt8)
  | unknownVerb (code : UInt8)
  | unknownCode (table : CodeTable) (code : UInt8)
  | unknownAnchor (code : UInt8)
  | unknownPaintSource (code : UInt8)
  | gradientOperands (kind : UInt8) (count : Nat)
  | operandCount (operands : Operands) (count : Nat)
  | polyPairs
  | pathCoordinates (expected count : Nat)
  | invalidString (fault : Utf8Fault)
  | lengthOverflow (length : Nat)
  deriving DecidableEq

/-- Two lower-case hexadecimal digits. -/
def hexByte (b : UInt8) : String :=
  let digit (n : Nat) : Char := (Nat.digitChar n)
  String.ofList [digit (b.toNat / 16), digit (b.toNat % 16)]

def FormatError.message : FormatError → String
  | .initTwice => "init called twice"
  | .documentBeforeInit => "document before init"
  | .documentAfterTree => "document after tree calls"
  | .beforeInit call => call.name ++ " before init"
  | .endGroupInMask => "end_group inside an open mask"
  | .endGroupUnopened => "end_group without begin_group"
  | .maskContentUnopened => "mask_content without begin_mask"
  | .endMaskBeforeContent => "end_mask before mask_content"
  | .endMaskUnopened => "end_mask without begin_mask"
  | .finishBeforeInit => "finish before init"
  | .unclosedGroup => "unclosed group at finish"
  | .unclosedMask => "unclosed mask at finish"
  | .scopeMismatch => "scope end without matching begin"
  | .truncated need offset available =>
    s!"truncated stream: need {need} bytes at offset {offset}, have {available}"
  | .varintOverflow => "varint overflows u32"
  | .varintTooLong => "varint longer than 5 bytes"
  | .countExceeds count available => s!"count {count} exceeds remaining {available} bytes"
  | .badMagic => "bad magic"
  | .unsupportedMajor version => s!"unsupported major version {version} (reader is 1)"
  | .missingSection which => "missing " ++ which.name ++ " section"
  | .truncatedSection which => "truncated " ++ which.name ++ " section"
  | .unknownOpcode code => "unknown opcode 0x" ++ hexByte code
  | .unknownVerb code => "unknown path verb " ++ toString code.toNat
  | .unknownCode table code => "unknown " ++ table.name ++ " code " ++ toString code.toNat
  | .unknownAnchor code => "unknown text anchor " ++ toString code.toNat
  | .unknownPaintSource code => "unknown paint source " ++ toString code.toNat
  | .gradientOperands kind count =>
    "gradient kind " ++ toString kind.toNat ++ " with " ++ toString count ++ " operands"
  | .operandCount operands count =>
    operands.name ++ " expects " ++ toString operands.count ++ " operands, got " ++ toString count
  | .polyPairs => "poly operands must come in x,y pairs"
  | .pathCoordinates expected count => s!"path expects {expected} coordinates, got {count}"
  | .invalidString fault => "string table entry: " ++ fault.message
  | .lengthOverflow length => s!"length {length} exceeds the u32 range"

/-- References that denote nothing, or a group not yet closed. -/
inductive StructuralError
  | missing (table : TableKind) (index : UInt32)
  | duplicateExport (id : UInt32)
  | useInsideOwnGroup (id : UInt32)
  | useUnresolved (id : UInt32)
  | floatListNotScanned
  deriving DecidableEq

def StructuralError.message : StructuralError → String
  | .missing table index => "missing " ++ table.name ++ " index " ++ toString index.toNat
  | .duplicateExport id => "duplicate export id " ++ toString id.toNat
  | .useInsideOwnGroup id => "use of export id " ++ toString id.toNat ++ " inside its own group"
  | .useUnresolved id => "use of unresolved export id " ++ toString id.toNat
  | .floatListNotScanned => "float list missed by the svg pre-scan"

/-- Text that does not follow its grammar. -/
inductive ParseError
  | pathUninitialized
  | pathUnexpectedEnd
  | pathNumber
  | pathCommand (letter : Char)
  | config
  | markup
  | loadFailed (load : Nat)
  deriving DecidableEq

def ParseError.message : ParseError → String
  | .pathUninitialized => "Uninitialized path (missing moveto command)"
  | .pathUnexpectedEnd => "Unexpected EOF"
  | .pathNumber => "Unable to parse a number"
  | .pathCommand letter => "Unknown command, \"" ++ letter.toString ++ "\""
  | .config => "invalid configuration"
  | .markup => "invalid markup"
  | .loadFailed load => s!"load {load} failed"

/-- Releases and reloads that the cache does not expect; the source is named by its text. -/
inductive CacheUsageError
  | removeUnknown (source : String)
  | removeUnreferenced (source : String)
  | reloadUnknown (source : String)
  deriving DecidableEq

def CacheUsageError.message : CacheUsageError → String
  | .removeUnknown source => "remove_reference on unknown source " ++ source
  | .removeUnreferenced source => "remove_reference on unreferenced source " ++ source
  | .reloadUnknown source => "force_reload on unknown source " ++ source

/-- Failures outside the domain: index ranges, raster headers and files. -/
inductive OtherError
  | indexOverflow
  | rasterDimensions
  | readSource (path : String)
  | openConfig (path : String)
  deriving DecidableEq

def OtherError.message : OtherError → String
  | .indexOverflow => "out of range integral type conversion attempted"
  | .rasterDimensions => "read image dimensions"
  | .readSource path => "read image source \x27" ++ path ++ "\x27"
  | .openConfig path => "open vgc config \x27" ++ path ++ "\x27"

inductive Error
  | format (cause : FormatError)
  | structural (cause : StructuralError)
  | parse (cause : ParseError)
  | cacheUsage (cause : CacheUsageError)
  | other (cause : OtherError)
  deriving DecidableEq

/-- The reported text: the kind, where it has a name of its own, and the cause. -/
def Error.message : Error → String
  | .format cause => "format error: " ++ cause.message
  | .structural cause => "structural error: " ++ cause.message
  | .parse cause => "parse error: " ++ cause.message
  | .cacheUsage cause => "cache usage error: " ++ cause.message
  | .other cause => cause.message

end VectorImage
