import VectorImage.Path.Arc
import VectorImage.Svg.Value.Length

/-!
Path data in absolute segments. Data is read up to the first fault; what comes before it counts.
It starts with a move, and a number after a closing command is a fault.
-/

set_option autoImplicit false
set_option relaxedAutoImplicit false

namespace VectorImage

namespace Svg

open TextScan

/-- The state between commands: the current point, the start of the subpath, the last control
point of a quadratic or a cubic curve, if the last command drew one, and the command itself. -/
structure Pen where
  current : Point
  start : Point
  quadratic : Option Point
  cubic : Option Point
  command : Option Char

def Pen.initial : Pen := ⟨.origin, .origin, none, none, none⟩

namespace Pen

/-- Move the pen by a segment that leaves no control point. -/
def goTo (pen : Pen) (p : Point) : Pen :=
  { pen with current := p, quadratic := none, cubic := none }

/-- The given point, counted from the current point by a lower-case command. -/
def absolute (pen : Pen) (command : Char) (p : Point) : Point :=
  if command.isLower then ⟨p.x + pen.current.x, p.y + pen.current.y⟩ else p

/-- A control point mirrored at the current point, or the current point itself. -/
def mirrored (pen : Pen) : Option Point → Point
  | none => pen.current
  | some c =>
    let two : Binary64 := .ofNat 2
    ⟨pen.current.x * two - c.x, pen.current.y * two - c.y⟩

end Pen

def pathPoint (pen : Pen) (command : Char) : TextScan Point := do
  let x ← listNumber
  let y ← listNumber
  return pen.absolute command ⟨x, y⟩

/-- A flag of an arc: one digit, zero or one. Only a comma right after it belongs to it. -/
def arcFlag : TextScan Bool := do
  skipBlanks
  match ← Parser.next? with
  | some c =>
    if c != '0' && c != '1' then fault
    let _ ← accept ','
    skipBlanks
    return c = '1'
  | none => fault

/-- The segments of an arc, and the pen after it. -/
def arcSegments (pen : Pen) (command : Char) : TextScan (Pen × List Segment) := do
  let rx ← listNumber
  let ry ← listNumber
  let degrees ← listNumber
  let large ← arcFlag
  let sweep ← arcFlag
  let p ← pathPoint pen command
  let arc : ArcRequest := ⟨pen.current, p, rx, ry, degrees * .degree, large, sweep⟩
  return (pen.goTo p, arc.segments)

/-- The segment of a command other than an arc, and the pen after it. -/
def pathSegment (pen : Pen) (command : Char) : TextScan (Pen × Segment) := do
  match command.toLower with
  | 'm' =>
    let p ← pathPoint pen command
    return ({ pen.goTo p with start := p }, .moveTo p)
  | 'l' =>
    let p ← pathPoint pen command
    return (pen.goTo p, .lineTo p)
  | 'h' =>
    let x ← listNumber
    let p : Point := ⟨if command.isLower then x + pen.current.x else x, pen.current.y⟩
    return (pen.goTo p, .lineTo p)
  | 'v' =>
    let y ← listNumber
    let p : Point := ⟨pen.current.x, if command.isLower then y + pen.current.y else y⟩
    return (pen.goTo p, .lineTo p)
  | 'q' =>
    let p₁ ← pathPoint pen command
    let p ← pathPoint pen command
    return ({ pen.goTo p with quadratic := some p₁ }, .quadTo p₁ p)
  | 't' =>
    let p ← pathPoint pen command
    let p₁ := pen.mirrored pen.quadratic
    return ({ pen.goTo p with quadratic := some p₁ }, .quadTo p₁ p)
  | 'c' =>
    let p₁ ← pathPoint pen command
    let p₂ ← pathPoint pen command
    let p ← pathPoint pen command
    return ({ pen.goTo p with cubic := some p₂ }, .cubicTo p₁ p₂ p)
  | 's' =>
    let p₂ ← pathPoint pen command
    let p ← pathPoint pen command
    return ({ pen.goTo p with cubic := some p₂ }, .cubicTo (pen.mirrored pen.cubic) p₂ p)
  | 'z' => return (pen.goTo pen.start, .close)
  | _ => fault

/-- The command of the next segment: the one written, or the previous one again. The points
after a move are lines. -/
def pathCommand (pen : Pen) : TextScan Char := do
  match ← Parser.peek?, pen.command with
  | some c, previous =>
    if c.isAlpha then
      if previous.isNone && c.toLower != 'm' then fault
      let _ ← Parser.next?
      return c
    else if c = '-' || c = '+' || c = '.' || isDigit c then
      match previous with
      | some 'M' => return 'L'
      | some 'm' => return 'l'
      | some 'Z' | some 'z' | none => fault
      | some c => return c
    else fault
  | none, _ => fault

/-- Read what the next command draws. -/
def pathStep (pen : Pen) : TextScan (Pen × List Segment) := do
  let command ← pathCommand pen
  let (next, segments) ←
    if command.toLower = 'a' then arcSegments pen command
    else do
      let (next, segment) ← pathSegment pen command
      pure (next, [segment])
  return ({ next with command := some command }, segments)

/-- The segments of path data, in absolute coordinates. -/
def pathDataOf (text : List Char) : List Segment :=
  let segments : TextScan (Pen × List (List Segment)) := Parser.iterate (fun s => do
    skipBlanks
    if ← atEnd then return none
    return (← Parser.attempt (pathStep s.1)).map fun (pen, segments) => (pen, segments :: s.2))
    (Pen.initial, [])
  match segments.parse text with
  | .ok (_, reversed) => reversed.reverse.flatten
  | .error _ => []

end Svg

end VectorImage
