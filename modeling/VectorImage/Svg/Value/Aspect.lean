import VectorImage.Svg.Value.Transform

/-!
How a picture is fitted into a rectangle: stretched, or scaled alike in both directions so that
it just fits in or just covers, and aligned along the direction where room is left.
-/

set_option autoImplicit false
set_option relaxedAutoImplicit false

namespace VectorImage

namespace Svg

open TextScan

/-- Where the room goes along one axis: after the picture, on both sides, or before it. -/
inductive Alignment
  | low | middle | high
  deriving DecidableEq, Inhabited

/-- Alignments along both axes, none for stretching; and whether the rectangle is covered. -/
structure Aspect where
  align : Option (Alignment × Alignment)
  slice : Bool
  deriving DecidableEq, Inhabited

/-- Centred, and as large as fits in. -/
def Aspect.standard : Aspect := ⟨some (.middle, .middle), false⟩

def alignmentNames : List (String × Option (Alignment × Alignment)) :=
  [("none", none),
    ("xMinYMin", some (.low, .low)), ("xMidYMin", some (.middle, .low)),
    ("xMaxYMin", some (.high, .low)), ("xMinYMid", some (.low, .middle)),
    ("xMidYMid", some (.middle, .middle)), ("xMaxYMid", some (.high, .middle)),
    ("xMinYMax", some (.low, .high)), ("xMidYMax", some (.middle, .high)),
    ("xMaxYMax", some (.high, .high))]

/-- Read an alignment and how the rectangle is filled, after a word that has no effect. What
follows does not count. -/
def aspectOf? (text : List Char) : Option Aspect :=
  first? (do
    skipBlanks
    if ← acceptText ['d', 'e', 'f', 'e', 'r'] then
      expect ' '
      skipBlanks
    let name ← Parser.takeWhile isIdentChar
    let align ← orFault (alignmentNames.lookup (.ofList name))
    skipBlanks
    let mode ← Parser.takeWhile isIdentChar
    match String.ofList mode with
    | "" | "meet" => return ⟨align, false⟩
    | "slice" => return ⟨align, true⟩
    | _ => fault) text

/-- The start of a picture along one axis, given the room left. -/
def Alignment.place (a : Alignment) (start room : Binary32) : Binary32 :=
  match a with
  | .low => start
  | .middle => start + room / .ofNat 2
  | .high => start + room

/-- The size of a picture of size `w` by `h` in a rectangle. -/
def Aspect.fit (a : Aspect) (w h width height : Binary32) : Binary32 × Binary32 :=
  if a.align.isNone then (width, height)
  else
    let scaled := height * w / h
    let widthDecides := if a.slice then scaled.le width else width.le scaled
    if widthDecides then (width, width * h / w) else (scaled, height)

/-- The corner of a picture. -/
def Aspect.place (a : Aspect) (x y roomX roomY : Binary32) : Binary32 × Binary32 :=
  match a.align with
  | none => (x, y)
  | some (h, v) => (h.place x roomX, v.place y roomY)

end Svg

end VectorImage
