import VectorImage.Number.Decimal
import VectorImage.Text.Base64
import VectorImage.Text.Utf8

/-!
Data held in a reference: a media type, then base64 digits or percent-encoded text. Tabs and line
breaks do not count anywhere, except that they part what would be a percent code.
-/

set_option autoImplicit false
set_option relaxedAutoImplicit false

namespace VectorImage

namespace Svg

/-- Data with its media type in lower case, parameters left out. -/
structure Data where
  mediaType : String
  bytes : List UInt8
  deriving DecidableEq, Inhabited

/-- Characters of a reference that do not count. -/
def isIgnored (c : Char) : Bool := c = '\t' || c = '\n' || c = '\r'

/-- The bytes of percent-encoded text, up to a hash sign. -/
def percentDecode : List Char → List UInt8
  | '%' :: a :: b :: rest =>
    match hexDigit? a, hexDigit? b with
    | some hi, some lo => UInt8.ofNat (16 * hi + lo) :: percentDecode rest
    | _, _ => UInt8.ofNat '%'.toNat :: percentDecode (a :: b :: rest)
  | '#' :: _ => []
  | c :: rest => (if isIgnored c then [] else Utf8.encodeChar c) ++ percentDecode rest
  | [] => []

/-- The text without characters of this kind at its start, one after the other, or none if it
does not start with them. Letters may be of either case. -/
def dropWord? : (word : List Char) → List Char → Option (List Char)
  | [], text => some text
  | w :: word, text =>
    match text.dropWhile isIgnored with
    | c :: rest => if c.toLower = w then dropWord? word rest else none
    | [] => none

def isSpace (c : Char) : Bool := c = ' '

/-- The text without spaces and ignored characters around it. -/
def trimSpaces (text : List Char) : List Char :=
  let start (text : List Char) : List Char := text.dropWhile fun c => isSpace c || isIgnored c
  (start (start text).reverse).reverse

/-- The header without a mark for base64 at its end, and whether there was one. -/
def splitBase64 (header : List Char) : List Char × Bool :=
  let mark := "base64".toList.reverse
  let before? := (dropWord? mark header.reverse).bind fun before =>
    dropWord? [';'] (before.dropWhile fun c => isSpace c || isIgnored c)
  match before? with
  | some before => (before.reverse, true)
  | none => (header, false)

/-- Characters of the parts of a media type. -/
def isTokenChar (c : Char) : Bool := c.isAlphanum || "!#$%&'*+-.^_`|~".toList.contains c

/-- A character of a header; one that is not plain stands by the codes of its bytes. -/
def headerChars (c : Char) : List Char :=
  if isIgnored c then []
  else if 0x20 ≤ c.toNat && c.toNat < 0x7f then [c]
  else (Utf8.encodeChar c).flatMap fun b =>
    ['%', Nat.digitChar (b.toNat / 16), Nat.digitChar (b.toNat % 16)]

/-- The media type of a header; plain text unless both its parts are there. -/
def mediaTypeOf (header : List Char) : String :=
  let type := trimSpaces ((header.flatMap headerChars).takeWhile (· != ';'))
  let parts := type.splitOn '/'
  if parts.length = 2 && parts.all fun p => !p.isEmpty && p.all isTokenChar then
    .ofList (type.map Char.toLower)
  else "text/plain"

/-- Read a reference that holds data. -/
def dataOf? (reference : List Char) : Option Data := do
  let isControl (c : Char) : Bool := c.toNat ≤ 0x20
  let rest ← dropWord? "data:".toList (reference.dropWhile isControl)
  let rest := (rest.reverse.dropWhile isControl).reverse
  let header := rest.takeWhile fun c => c != ',' && c != '#'
  match rest.drop header.length with
  | ',' :: body =>
    let (header, isBase64) := splitBase64 (trimSpaces header)
    let body := percentDecode body
    let bytes ←
      if isBase64 then Base64.decode? (body.map fun b => Char.ofNat b.toNat) else some body
    return ⟨mediaTypeOf header, bytes⟩
  | _ => none

end Svg

end VectorImage
