import VectorImage.Svg.Value.ColorText
import VectorImage.Svg.Value.Transform
import VectorImage.Text.White

/-!
References and paints in SVG attributes. A paint is nothing, a color, the current color, or a
reference with an optional fallback. A reference names an element of the document after a hash
sign; it stands by itself or as the argument of a function, where it may be quoted. The parts of a
shape are painted in an order: its fill, its stroke and its markers; what is not named comes last, in
the standard order.
-/

set_option autoImplicit false
set_option relaxedAutoImplicit false

namespace VectorImage

namespace Svg

open TextScan

def isQuote (c : Char) : Bool := c = '\'' || c = '"'

/-- A reference to an element by its name. Without quotes the name ends at a space or at the
closing bracket, within them white space at its end is dropped; it holds no quotes of either
kind. -/
def link : TextScan String := do
  skipBlanks
  if !(← acceptText ['u', 'r', 'l', '(']) then fault
  skipBlanks
  let quote? := (← Parser.peek?).filter isQuote
  if quote?.isSome then
    let _ ← Parser.next?
    skipBlanks
  expect '#'
  let name ← Parser.takeWhile fun c =>
    match quote? with
    | some q => c != q
    | none => c != ' ' && c != ')'
  match quote? with
  | some q => expect q
  | none => pure ()
  skipBlanks
  expect ')'
  if name.any isQuote then fault
  return .ofList (if quote?.isSome then White.trimEnd name else name)

/-- A function reference that makes up a whole text; blanks may stand around it. -/
def linkOf? (text : List Char) : Option String :=
  whole? (do
    let name ← link
    skipBlanks
    return name) text

/-- A plain reference that makes up a whole text; blanks may stand around it. -/
def plainLinkOf? (text : List Char) : Option String :=
  whole? (do
    skipBlanks
    expect '#'
    let name ← Parser.takeWhile fun c => c != ' '
    skipBlanks
    return .ofList name) text

/-- A paint without reference. -/
inductive PlainPaint
  | none
  | currentColor
  | color (c : Color)
  deriving DecidableEq, Inhabited

inductive PaintValue
  | plain (p : PlainPaint)
  | link (name : String) (fallback : Option PlainPaint)
  deriving DecidableEq, Inhabited

def plainPaintOf? (text : List Char) : Option PlainPaint :=
  match String.ofList text with
  | "none" => some .none
  | "currentColor" => some .currentColor
  | _ => (colorOf? text).map .color

/-- A reference and what to use in its place. -/
def linkedPaint : TextScan PaintValue := do
  let name ← link
  skipBlanks
  if ← atEnd then return .link name none
  let rest ← Parser.takeWhile fun _ => true
  return .link name (some (← orFault (plainPaintOf? rest)))

/-- A paint. The paints of a surrounding marker, and inheritance where there is nothing to
inherit, are no paint. -/
def paintOf? (text : List Char) : Option PaintValue :=
  let text := White.trim text
  if ["inherit", "context-fill", "context-stroke"].contains (String.ofList text) then
    some (.plain .none)
  else if (first? link text).isSome then first? linkedPaint text
  else (plainPaintOf? text).map .plain

/-! The order in which the parts of a shape are painted. -/

inductive PaintPart
  | fill | stroke | markers
  deriving DecidableEq, Inhabited

/-- The standard order. -/
def PaintPart.standard : List PaintPart := [.fill, .stroke, .markers]

/-- What is named in an order: a part, or the standard order whatever else is named. -/
def paintPartNames : List (String × Option PaintPart) :=
  [("fill", some .fill), ("stroke", some .stroke), ("markers", some .markers), ("normal", none)]

/-- The parts that are named, three at most, last first, and whether the standard order is. -/
def paintParts : TextScan (List PaintPart × Bool) :=
  Parser.iterate (fun (s : List PaintPart × Bool) => do
    if s.2 || s.1.length = 3 || (← atEnd) then return none
    skipBlanks
    let name ← Parser.takeWhile isIdentChar
    skipBlanks
    match ← orFault (paintPartNames.lookup (.ofList name)) with
    | some part => return some (part :: s.1, false)
    | none => return some (s.1, true)) ([], false)

/-- An order of painting; one in which a part comes twice is the standard one. -/
def paintOrderOf? (text : List Char) : Option (List PaintPart) :=
  first? (do
    let (reversed, isStandard) ← paintParts
    if isStandard then return PaintPart.standard
    if !(← atEnd) then fault
    let named := reversed.reverse
    let order := named ++ PaintPart.standard.filter fun part => !named.contains part
    return if order.length = 3 then order else PaintPart.standard) text

end Svg

end VectorImage
