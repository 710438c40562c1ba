import VectorImage.Input.Text
import VectorImage.Number.Decimal

/-!
The small parts of XML: characters, names, references, comments and instructions. A reference
stands for a character or names an entity; the five predefined entities are characters.
-/

set_option autoImplicit false
set_option relaxedAutoImplicit false

namespace VectorImage

namespace Xml

open TextScan

/-- Characters that may occur in a document at all. -/
def isXmlChar (c : Char) : Bool :=
  if c.toNat < 0x20 then isBlank c else c.toNat != 0xfffe && c.toNat != 0xffff

/-- The code points outside ASCII that may start a name, as closed ranges. -/
def nameStartRanges : List (Nat × Nat) :=
  [(0xc0, 0xd6), (0xd8, 0xf6), (0xf8, 0x2ff), (0x370, 0x37d), (0x37f, 0x1fff),
    (0x200c, 0x200d), (0x2070, 0x218f), (0x2c00, 0x2fef), (0x3001, 0xd7ff), (0xf900, 0xfdcf),
    (0xfdf0, 0xfffd), (0x10000, 0xeffff)]

/-- Characters that may start a name; a colon counts as one. -/
def isNameStart (c : Char) : Bool :=
  c.isAlpha || c = '_' || c = ':' ||
    nameStartRanges.any fun r => r.1 ≤ c.toNat && c.toNat ≤ r.2

def isNameChar (c : Char) : Bool :=
  isNameStart c || c.isDigit || c = '-' || c = '.' || c.toNat = 0xb7 ||
    (0x300 ≤ c.toNat && c.toNat ≤ 0x36f) || c.toNat = 0x203f || c.toNat = 0x2040

/-- At least one blank. -/
def blanks : TextScan Unit := do
  if (← Parser.takeWhile isBlank).isEmpty then fault

/-- A name in which colons mean nothing. -/
def plainName : TextScan (List Char) := do
  match ← Parser.peek? with
  | some c => if isNameStart c then Parser.takeWhile isNameChar else fault
  | none => fault

/-- A name as written: its prefix, empty if there is none, and its local part. -/
structure RawName where
  space : List Char
  name : List Char
  deriving DecidableEq

/-- A name with at most one colon. -/
def rawName : TextScan RawName := do
  let isPart (c : Char) : Bool := isNameChar c && c != ':'
  let starts : List Char → Bool
    | c :: _ => isNameStart c
    | [] => false
  let first ← Parser.takeWhile isPart
  let n : RawName ← do
    if ← accept ':' then pure ⟨first, ← Parser.takeWhile isPart⟩ else pure ⟨[], first⟩
  if starts n.name && (n.space.isEmpty || starts n.space) then return n else fault

/-- What a reference stands for. -/
inductive Reference
  | char (c : Char)
  | entity (name : List Char)

/-- The reference of a name. -/
def Reference.ofName : List Char → Reference
  | ['l', 't'] => .char '<'
  | ['g', 't'] => .char '>'
  | ['a', 'm', 'p'] => .char '&'
  | ['q', 'u', 'o', 't'] => .char '"'
  | ['a', 'p', 'o', 's'] => .char '\''
  | name => .entity name

/-- The character of a number, if it may occur in a document. A number of 32 bits that belongs
to no character stands for the replacement character. -/
def charOfNumber? (n : Nat) : Option Char :=
  let c := if n.isValidChar then Char.ofNat n else '\ufffd'
  if n < 2 ^ 32 && isXmlChar c then some c else none

/-- A reference after its ampersand. -/
def reference : TextScan Reference := do
  let found : Reference ← do
    if ← accept '#' then
      let hex ← accept 'x'
      let digits ← Parser.takeWhile fun c => if hex then (hexDigit? c).isSome else isDigit c
      if digits.isEmpty then fault
      let base := if hex then 16 else 10
      let n := digits.foldl (fun n c => base * n + (hexDigit? c).getD 0) 0
      pure (.char (← orFault (charOfNumber? n)))
    else pure (.ofName (← plainName))
  expect ';'
  return found

/-- Characters up to the text `stop`, and `stop` itself. -/
def charsThrough (stop : List Char) : TextScan (List Char) := do
  let text ← takeThrough stop
  if !text.all isXmlChar then fault
  return text

/-- Text between quotes. -/
def quoted : TextScan (List Char) := do
  if ← accept '"' then takeThrough ['"']
  else if ← accept '\'' then takeThrough ['\'']
  else fault

/-- Characters between quotes. -/
def quotedChars : TextScan (List Char) := do
  let text ← quoted
  if !text.all isXmlChar then fault
  return text

/-- A comment after its opening: no two hyphens in a row before its end. -/
def comment : TextScan Unit := do
  let _ ← charsThrough ['-', '-']
  expect '>'

/-- A processing instruction after its opening. The declaration of a document is none. -/
def instruction : TextScan Unit := do
  if ← comesNext ['x', 'm', 'l', ' '] then fault
  let _ ← plainName
  let _ ← charsThrough ['?', '>']

end Xml

end VectorImage
