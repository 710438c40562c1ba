import VectorImage.Geometry.Affine
import VectorImage.Number.Real
import VectorImage.Svg.Value.Length

/-!
Transform lists. The maps of a list are multiplied from the left in full precision; the product
is rounded at the end. Angles are in degrees.
-/

set_option autoImplicit false
set_option relaxedAutoImplicit false

namespace VectorImage

namespace Svg

open TextScan

def rotation (angle : Binary64) : Affine :=
  let radians := angle * .degree
  let c := radians.cos
  let s := radians.sin
  ⟨c, s, -s, c, .zero, .zero⟩

def tangent (angle : Binary64) : Binary64 := (angle * .degree).tan

/-- The characters of names in attribute values. -/
def isIdentChar (c : Char) : Bool := c.isAlphanum || c = '-' || c = '_'

/-- The argument that may be left out before the closing bracket. -/
def optionalNumber (default : Binary64) : TextScan Binary64 := do
  skipBlanks
  if (← Parser.peek?) = some ')' then return default else listNumber

/-- The maps of a transform function, from its opening bracket on; a rotation about a point is
three. -/
def transformArguments (name : String) : TextScan (List Affine) := do
  match name with
  | "matrix" =>
    let a ← listNumber
    let b ← listNumber
    let c ← listNumber
    let d ← listNumber
    let e ← listNumber
    let f ← listNumber
    return [⟨a, b, c, d, e, f⟩]
  | "translate" =>
    let x ← listNumber
    let y ← optionalNumber .zero
    return [.translate x y]
  | "scale" =>
    let x ← listNumber
    let y ← optionalNumber x
    return [.scale x y]
  | "rotate" =>
    let angle ← listNumber
    skipBlanks
    if (← Parser.peek?) = some ')' then return [rotation angle]
    let x ← listNumber
    let y ← listNumber
    return [.translate x y, rotation angle, .translate (-x) (-y)]
  | "skewX" => return [⟨.one, .zero, tangent (← listNumber), .one, .zero, .zero⟩]
  | "skewY" => return [⟨.one, tangent (← listNumber), .zero, .one, .zero, .zero⟩]
  | _ => fault

/-- A transform function with the separator after it. -/
def transformFunction : TextScan (List Affine) := do
  skipBlanks
  let name ← Parser.takeWhile isIdentChar
  skipBlanks
  expect '('
  let maps ← transformArguments (.ofList name)
  skipBlanks
  expect ')'
  separator
  skipBlanks
  return maps

/-- The product of a transform list, if it is well-formed. A text of nothing but blanks is not. -/
def transformOf? (text : List Char) : Option Affine :=
  whole? (Parser.iterate (fun (m : Affine) => do
    if ← atEnd then return none
    return some ((← transformFunction).foldl (· * ·) m)) .identity) text

end Svg

end VectorImage
