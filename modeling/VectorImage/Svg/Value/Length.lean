import VectorImage.Input.Text
import VectorImage.Number.Binary32
import VectorImage.Number.Decimal

/-!
Numbers and lengths in SVG attributes. The letter after a number that begins a unit of the font
size is not an exponent. A number out of the finite range is malformed.
-/

set_option autoImplicit false
set_option relaxedAutoImplicit false

namespace VectorImage

namespace Svg

open TextScan

/-- The unit of a length. -/
inductive LengthUnit
  | number | em | ex | px | inch | cm | mm | pt | pc | percent
  deriving DecidableEq, Inhabited

structure Length where
  number : Binary64
  unit : LengthUnit
  deriving DecidableEq, Inhabited

/-- A length in user units. -/
def Length.ofNumber (x : Binary64) : Length := ⟨x, .number⟩

/-- A sign, taken if present: true for a minus. -/
def sign : TextScan Bool := do
  if ← accept '-' then return true
  let _ ← accept '+'
  return false

/-- The exponent of a number, unless its letter begins a unit. -/
def exponent : TextScan Int := do
  match (← Parser.input).rest with
  | 'e' :: 'm' :: _ | 'e' :: 'x' :: _ | 'E' :: 'm' :: _ | 'E' :: 'x' :: _ => return 0
  | 'e' :: _ | 'E' :: _ =>
    let _ ← Parser.next?
    let negative ← sign
    let digits ← Parser.takeWhile isDigit
    if digits.isEmpty then fault
    let n : Int := digitsToNat digits
    return if negative then -n else n
  | _ => return 0

/-- A number: sign, digits with at most one point, exponent. -/
def number : TextScan Binary64 := do
  skipBlanks
  let negative ← sign
  let whole ← Parser.takeWhile isDigit
  let fraction ← do
    if ← accept '.' then Parser.takeWhile isDigit else pure []
  if whole.isEmpty && fraction.isEmpty then fault
  let scale ← exponent
  let x := Binary64.ofDecimal negative (digitsToNat (whole ++ fraction)) (scale - fraction.length)
  if x.isInfinite then fault
  return x

/-- The separator of a list: blanks and at most one comma. -/
def separator : TextScan Unit := do
  skipBlanks
  let _ ← accept ','

/-- A number of a list, with the separator after it. -/
def listNumber : TextScan Binary64 := do
  let x ← number
  separator
  return x

/-- The units that are written with letters. -/
def unitNames : List (List Char × LengthUnit) :=
  [(['%'], .percent), (['e', 'm'], .em), (['e', 'x'], .ex), (['p', 'x'], .px), (['i', 'n'], .inch),
    (['c', 'm'], .cm), (['m', 'm'], .mm), (['p', 't'], .pt), (['p', 'c'], .pc)]

def lengthUnit : TextScan LengthUnit := do
  let rest := (← Parser.input).rest
  match unitNames.find? fun u => u.1.isPrefixOf rest with
  | some (name, unit) =>
    let _ ← acceptText name
    return unit
  | none => return .number

def length : TextScan Length := do
  let x ← number
  return ⟨x, ← lengthUnit⟩

/-- The items that a text begins with, up to the first that is malformed. -/
def leadingItems {α : Type} (item : TextScan α) (text : List Char) : List α :=
  let items : TextScan (List α) := Parser.iterate (fun reversed => do
    if ← atEnd then return none
    return (← Parser.attempt item).map (· :: reversed)) []
  match items.parse text with
  | .ok reversed => reversed.reverse
  | .error _ => []

/-- A length that makes up a whole text; blanks may stand before it. -/
def lengthOf? (text : List Char) : Option Length := whole? length text

/-- A number that makes up a whole text; blanks may stand around it. -/
def numberOf? (text : List Char) : Option Binary64 :=
  whole? (do
    let x ← number
    skipBlanks
    return x) text

/-- A list of lengths, up to the first that is malformed. -/
def lengthsOf (text : List Char) : List Length :=
  leadingItems (do
    let l ← length
    separator
    return l) text

/-- A list of points, up to the first that is malformed. -/
def pointsOf (text : List Char) : List (Binary64 × Binary64) :=
  leadingItems (do
    let x ← listNumber
    let y ← listNumber
    return (x, y)) text

/-- A view box: corner and size, which must be positive. What follows does not count. -/
def viewBoxOf? (text : List Char) : Option (Binary64 × Binary64 × Binary64 × Binary64) := do
  let (x, y, w, h) ← first? (do
    let x ← listNumber
    let y ← listNumber
    let w ← listNumber
    let h ← listNumber
    return (x, y, w, h)) text
  if Binary64.lt .zero w && Binary64.lt .zero h then some (x, y, w, h) else none

/-- An opacity: a number or a percentage, brought into the range from zero to one. -/
def opacityOf? (text : List Char) : Option Binary32 := do
  let l ← lengthOf? text
  let x := Binary32.ofBinary64 l.number
  match l.unit with
  | .number => some x.clampUnit
  | .percent => some (x / .ofNat 100).clampUnit
  | _ => none

end Svg

end VectorImage
