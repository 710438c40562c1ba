import VectorImage.Input.Parser
import VectorImage.Number.Decimal
import VectorImage.Path.Arc

/-!
The path syntax of SVG's `d` attribute. A path is a list of commands; a command letter may be
left out where a number repeats the previous command. Anything else that cannot start a command
ends the path without an error. An elliptical arc becomes cubic curves.
-/

set_option autoImplicit false
set_option relaxedAutoImplicit false

namespace VectorImage

namespace PathSyntax

abbrev Scan (α : Type) := Parser Char ParseError α

/-- Blanks of the path syntax. -/
def isBlank (c : Char) : Bool :=
  c = ' ' || c = '\t' || c = '\n' || c = '\x0c' || c = '\r'

def skipBlanks : Scan Unit := do
  let _ ← Parser.takeWhile isBlank

/-- Skip blanks and at most one comma. -/
def skipComma : Scan Unit := do
  skipBlanks
  if (← Parser.peek?) = some ',' then
    let _ ← Parser.next?

/-- The sign in front of a number or an exponent, taken if present: true for a minus. -/
def sign : Scan Bool := do
  match ← Parser.peek? with
  | some '-' =>
    let _ ← Parser.next?
    return true
  | some '+' =>
    let _ ← Parser.next?
    return false
  | _ => return false

/-- Digits, and after them a point with more digits. -/
def mantissa : Scan (List Char × List Char) := do
  let whole ← Parser.takeWhile isDigit
  if (← Parser.peek?) = some '.' then
    let _ ← Parser.next?
    let fraction ← Parser.takeWhile isDigit
    return (whole, fraction)
  return (whole, [])

/-- The exponent after its letter; the letter without a digit is malformed. -/
def exponent : Scan Int := do
  match ← Parser.peek? with
  | some 'e' | some 'E' =>
    let _ ← Parser.next?
    let negative ← sign
    let digits ← Parser.takeWhile isDigit
    if digits.isEmpty then Parser.fail .pathNumber
    let n : Int := digitsToNat digits
    return if negative then -n else n
  | _ => return 0

/-- A number: sign, digits with at most one point, exponent. -/
def number : Scan Binary64 := do
  skipBlanks
  if (← Parser.peek?) = none then Parser.fail .pathUnexpectedEnd
  let negative ← sign
  let (whole, fraction) ← mantissa
  let scale ← exponent
  if whole.isEmpty && fraction.isEmpty then Parser.fail .pathNumber
  return .ofDecimal negative (digitsToNat (whole ++ fraction)) (scale - fraction.length)

/-- A number followed by an optional comma. -/
def operand : Scan Binary64 := do
  let x ← number
  skipComma
  return x

/-- A flag of an arc: one digit, zero or one, and an optional comma before it. -/
def flag : Scan Bool := do
  skipComma
  skipBlanks
  match ← Parser.next? with
  | none => Parser.fail .pathUnexpectedEnd
  | some '0' => return false
  | some '1' => return true
  | some _ => Parser.fail .pathNumber

/-- What the commands so far have left: the path in reverse, the command that a bare number
repeats, the current point, the last control point, the start of the subpath, and whether a
closed subpath still owes its next command a move to that start. -/
structure State where
  reversed : List Segment
  repeated : Option Char
  current : Point
  control : Option Point
  start : Point
  owesMove : Bool

def State.initial : State := ⟨[], none, .origin, none, .origin, false⟩

namespace State

/-- Add segments that end at `p` and leave `control` for the curves that follow. -/
def append (s : State) (segments : List Segment) (control p : Point) (command : Char) : State :=
  { s with
    reversed := segments.reverse ++ s.reversed
    control := some control
    current := p
    repeated := some command }

/-- Add a segment that ends at `p` and leaves `control` for the curves that follow. -/
def push (s : State) (segment : Segment) (control p : Point) (command : Char) : State :=
  s.append [segment] control p command

/-- The first control point of a smooth curve: the last one mirrored at the current point. -/
def mirrored (s : State) : Point :=
  match s.control with
  | some c => s.current.reflect c
  | none => s.current

end State

/-- A point; a lower-case command counts it from the current point. -/
def point (s : State) (command : Char) : Scan Point := do
  let x ← operand
  let y ← operand
  return if command.isLower then s.current.add ⟨x, y⟩ else ⟨x, y⟩

/-- Draw one command. -/
def draw (s : State) (command : Char) : Scan State := do
  match command.toLower with
  | 'm' =>
    let p ← point s command
    let next := s.push (.moveTo p) p p (if command.isLower then 'l' else 'L')
    return { next with start := p, owesMove := false }
  | 'l' =>
    let p ← point s command
    return s.push (.lineTo p) p p command
  | 'h' =>
    let x ← operand
    let p : Point := ⟨if command.isLower then x + s.current.x else x, s.current.y⟩
    return s.push (.lineTo p) p p command
  | 'v' =>
    let y ← operand
    let p : Point := ⟨s.current.x, if command.isLower then y + s.current.y else y⟩
    return s.push (.lineTo p) p p command
  | 'q' =>
    let p₁ ← point s command
    let p ← point s command
    return s.push (.quadTo p₁ p) p₁ p command
  | 't' =>
    let p ← point s command
    return s.push (.quadTo s.mirrored p) s.mirrored p command
  | 'c' =>
    let p₁ ← point s command
    let p₂ ← point s command
    let p ← point s command
    return s.push (.cubicTo p₁ p₂ p) p₂ p command
  | 's' =>
    let p₂ ← point s command
    let p ← point s command
    return s.push (.cubicTo s.mirrored p₂ p) p₂ p command
  | 'a' =>
    let rx ← operand
    let ry ← operand
    let degrees ← number
    let large ← flag
    let sweep ← flag
    skipComma
    let p ← point s command
    let arc : ArcRequest := ⟨s.current, p, rx, ry, degrees * .degree, large, sweep⟩
    return s.append arc.segments p p command
  | 'z' =>
    return { s with reversed := .close :: s.reversed, current := s.start, owesMove := true }
  | _ => Parser.fail (.pathCommand command)

/-- The command that comes next, if the input still has one. -/
def command? (s : State) : Scan (Option Char) := do
  skipBlanks
  match ← Parser.peek? with
  | none => return none
  | some c =>
    if c.isAlpha then
      let _ ← Parser.next?
      return some c
    else if c = '-' || c = '.' || isDigit c then return s.repeated
    else return none

/-- Read and draw the next command. A path starts with a move. -/
def step (s : State) : Scan (Option State) := do
  match ← command? s with
  | none => return none
  | some c =>
    if c.toLower = 'm' then return some (← draw s c)
    if s.reversed.isEmpty then Parser.fail .pathUninitialized
    let s := if s.owesMove then
        { s with reversed := .moveTo s.start :: s.reversed, owesMove := false }
      else s
    return some (← draw s c)

end PathSyntax

/-- Read path syntax. -/
def Path.ofSyntax (text : String) : Except ParseError Path :=
  ((PathSyntax.step |> Parser.iterate) PathSyntax.State.initial).parse text.toList |>.map
    fun s => ⟨s.reversed.reverse⟩

end VectorImage
