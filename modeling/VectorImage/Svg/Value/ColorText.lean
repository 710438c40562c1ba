import VectorImage.Number.Binary32
import VectorImage.Svg.Value.ColorName
import VectorImage.Svg.Value.Transform

/-!
Colors in SVG attributes: hexadecimal digits, names, and functions of channels or of hue,
saturation and lightness. Channels are rounded to bytes; what is out of range is brought into it.
-/

set_option autoImplicit false
set_option relaxedAutoImplicit false

namespace VectorImage

namespace Svg

open TextScan

/-- A number or a percentage, which counts as a fraction, with the separator after it. -/
def listFraction : TextScan Binary64 := do
  let x ← number
  let percent ← accept '%'
  separator
  return if percent then x / .ofNat 100 else x

/-- A whole number with the separator after it; it has to fit 32 bits. -/
def listInteger : TextScan Int := do
  skipBlanks
  let negative ← sign
  let digits ← Parser.takeWhile isDigit
  if digits.isEmpty then fault
  let n : Int := digitsToNat digits
  let n := if negative then -n else n
  if n < -(2 ^ 31 : Nat) || (2 ^ 31 : Nat) ≤ n then fault
  separator
  return n

/-- A fraction as a byte. -/
def fractionByte (x : Binary64) : UInt8 := (x * .ofNat 255).toByte

/-- The opacity that may stand last in a color function. -/
def alphaArgument : TextScan UInt8 := do
  skipBlanks
  if (← Parser.peek?) = some ')' then return 255 else return fractionByte (← listNumber)

/-- Red, green, blue: all numbers, or the first a percentage and the others fractions. -/
def channelArguments : TextScan Color := do
  let r ← number
  if ← accept '%' then
    separator
    let g ← listFraction
    let b ← listFraction
    return ⟨fractionByte (r / .ofNat 100), fractionByte g, fractionByte b, ← alphaArgument⟩
  else
    separator
    let g ← listNumber
    let b ← listNumber
    return ⟨r.toByte, g.toByte, b.toByte, ← alphaArgument⟩

/-- The strength of one channel, at a place on the circle of hues from zero to six. -/
def hueStrength (low high hue : Binary32) : Binary32 :=
  let six : Binary32 := .ofNat 6
  let hue := if hue.lt .zero then hue + six else hue
  let hue := if six.le hue then hue - six else hue
  if hue.lt .one then (high - low) * hue + low
  else if hue.lt (.ofNat 3) then high
  else if hue.lt (.ofNat 4) then (high - low) * (.ofNat 4 - hue) + low
  else low

/-- The color of a hue in degrees, a saturation and a lightness. -/
def hueColor (degrees : Nat) (saturation lightness : Binary32) (alpha : UInt8) : Color :=
  let hue := Binary32.ofNat degrees / .ofNat 60
  let high :=
    if lightness.le (.ofBinary64 .half) then lightness * (saturation + .one)
    else lightness + saturation - lightness * saturation
  let low := lightness * .ofNat 2 - high
  let channel (hue : Binary32) : UInt8 := (hueStrength low high hue * .ofNat 255).widen.toByte
  ⟨channel (hue + .ofNat 2), channel hue, channel (hue - .ofNat 2), alpha⟩

/-- Hue, saturation, lightness. -/
def hueArguments : TextScan Color := do
  let hue ← listInteger
  let saturation ← listFraction
  let lightness ← listFraction
  let unit (x : Binary64) : Binary32 := .ofBinary64 ((x.max .zero).min .one)
  return hueColor (hue % 360).toNat (unit saturation) (unit lightness) (← alphaArgument)

/-- The color of hexadecimal digits: one or two for each channel, with or without opacity. -/
def hexColor? (digits : List Nat) : Option Color :=
  let byte (hi lo : Nat) : UInt8 := UInt8.ofNat (16 * hi + lo)
  match digits with
  | [r, g, b] => some ⟨byte r r, byte g g, byte b b, 255⟩
  | [r, g, b, a] => some ⟨byte r r, byte g g, byte b b, byte a a⟩
  | [r, r', g, g', b, b'] => some ⟨byte r r', byte g g', byte b b', 255⟩
  | [r, r', g, g', b, b', a, a'] => some ⟨byte r r', byte g g', byte b b', byte a a'⟩
  | _ => none

/-- The arguments of a color function in their brackets. -/
def bracketed (arguments : TextScan Color) : TextScan Color := do
  expect '('
  let c ← arguments
  skipBlanks
  expect ')'
  return c

def color : TextScan Color := do
  skipBlanks
  if ← accept '#' then
    let digits ← Parser.takeWhile fun c => (hexDigit? c).isSome
    orFault (hexColor? (digits.filterMap hexDigit?))
  else
    let name := String.ofList ((← Parser.takeWhile isIdentChar).map Char.toLower)
    match name with
    | "rgb" | "rgba" => bracketed channelArguments
    | "hsl" | "hsla" => bracketed hueArguments
    | "transparent" => return ⟨0, 0, 0, 0⟩
    | _ => orFault (namedColor? name)

/-- A color that makes up a whole text; blanks may stand around it. -/
def colorOf? (text : List Char) : Option Color :=
  whole? (do
    let c ← color
    skipBlanks
    return c) text

end Svg

end VectorImage
