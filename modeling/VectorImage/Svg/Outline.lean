import VectorImage.Path.Arc
import VectorImage.Svg.Box
import VectorImage.Svg.Picture

/-!
Outlines drawn segment by segment. A move replaces a move before it; a segment after a closing
one starts with a move to where the subpath began; closing twice closes once. An outline of one
move is none, and neither is one whose extent is not finite. The box of an outline is that of the
curves, not that of their control points: along each axis a quadratic curve turns back once at most
and a cubic one twice, and only turns strictly between the ends count.
-/

set_option autoImplicit false
set_option relaxedAutoImplicit false

namespace VectorImage

namespace Svg

/-- A quotient strictly between zero and one. -/
def properFraction? (num den : Binary32) : Option Binary32 :=
  let flip := num.lt .zero
  let num := if flip then -num else num
  let den := if flip then -den else den
  if den.equals .zero || num.equals .zero || den.le num then none
  else
    let q := num / den
    if Binary32.zero.lt q && q.lt .one then some q else none

/-- The roots of `a t² + b t + c` strictly between zero and one. -/
def properRoots (a b c : Binary32) : List Binary32 :=
  if a.equals .zero then (properFraction? (-c) b).toList
  else
    let square := b.widen * b.widen - .ofNat 4 * a.widen * c.widen
    let root := Binary32.ofBinary64 square.sqrt
    if square.lt .zero || !root.isFinite then []
    else
      let q := (if b.lt .zero then -(b - root) else -(b + root)) / .ofNat 2
      (properFraction? q a).toList ++ (properFraction? c q).toList

/-- A number at three or four points. -/
abbrev Coordinate := Spot → Binary32

/-- Where a quadratic curve turns along an axis. -/
def quadTurns (p₀ p₁ p₂ : Spot) (along : Coordinate) : List Binary32 :=
  let a := along p₀
  let b := along p₁
  let c := along p₂
  (properFraction? (a - b) (a - b - b + c)).toList

/-- Where a cubic curve turns along an axis. -/
def cubicTurns (p₀ p₁ p₂ p₃ : Spot) (along : Coordinate) : List Binary32 :=
  let a := along p₀
  let b := along p₁
  let c := along p₂
  let d := along p₃
  properRoots (d - a + .ofNat 3 * (b - c)) (.ofNat 2 * (a - b - b + c)) (b - a)

/-- A coordinate of a quadratic curve. -/
def quadAt (p₀ p₁ p₂ : Spot) (t : Binary32) (along : Coordinate) : Binary32 :=
  let c := along p₀
  let b := let d := along p₁ - c; d + d
  let a := along p₂ - (along p₁ + along p₁) + c
  (a * t + b) * t + c

/-- A coordinate of a cubic curve. -/
def cubicAt (p₀ p₁ p₂ p₃ : Spot) (t : Binary32) (along : Coordinate) : Binary32 :=
  let three : Binary32 := .ofNat 3
  let d := along p₀
  let a := along p₃ + three * (along p₁ - along p₂) - d
  let b := three * (along p₂ - (along p₁ + along p₁) + d)
  let c := three * (along p₁ - d)
  ((a * t + b) * t + c) * t + d

/-- The points of a quadratic curve where it turns along either axis. -/
def quadTurningPoints (p₀ p₁ p₂ : Spot) : List Spot :=
  (quadTurns p₀ p₁ p₂ Spot.x ++ quadTurns p₀ p₁ p₂ Spot.y).map fun t =>
    ⟨quadAt p₀ p₁ p₂ t Spot.x, quadAt p₀ p₁ p₂ t Spot.y⟩

/-- The points of a cubic curve where it turns along either axis. -/
def cubicTurningPoints (p₀ p₁ p₂ p₃ : Spot) : List Spot :=
  (cubicTurns p₀ p₁ p₂ p₃ Spot.x ++ cubicTurns p₀ p₁ p₂ p₃ Spot.y).map fun t =>
    ⟨cubicAt p₀ p₁ p₂ p₃ t Spot.x, cubicAt p₀ p₁ p₂ p₃ t Spot.y⟩

end Svg

namespace Svg

/-- The segments drawn so far, last first, and the start of the subpath. -/
structure OutlineDraft where
  reversed : List (PathSegment Spot)
  start : Spot

namespace OutlineDraft

def empty : OutlineDraft := ⟨[], ⟨.zero, .zero⟩⟩

def moveTo (o : OutlineDraft) (p : Spot) : OutlineDraft :=
  match o.reversed with
  | .moveTo _ :: rest => ⟨.moveTo p :: rest, p⟩
  | reversed => ⟨.moveTo p :: reversed, p⟩

/-- Move to the start of the subpath if no subpath is open. -/
def reopen (o : OutlineDraft) : OutlineDraft :=
  match o.reversed with
  | [] | .close :: _ => o.moveTo o.start
  | _ => o

def push (o : OutlineDraft) (segment : PathSegment Spot) : OutlineDraft :=
  match segment with
  | .moveTo p => o.moveTo p
  | .close =>
    match o.reversed with
    | [] | .close :: _ => o
    | reversed => { o with reversed := .close :: reversed }
  | segment =>
    let o := o.reopen
    { o with reversed := segment :: o.reversed }

/-- The last point drawn. -/
def last (o : OutlineDraft) : Spot :=
  match o.reversed with
  | segment :: _ => segment.points.getLastD o.start
  | [] => o.start

/-- Draw a quarter of an ellipse with axes along those of the plane, clockwise. -/
def arcTo (rx ry : Binary32) (o : OutlineDraft) (p : Spot) : OutlineDraft :=
  let arc : ArcRequest := ⟨o.last.widen, p.widen, rx.widen, ry.widen, .zero, false, true⟩
  (arc.segments.map (PathSegment.map Spot.ofPoint)).foldl push o

/-- The outline drawn, if it is one. -/
def outline? (o : OutlineDraft) : Option Outline :=
  let o := o.reversed.reverse
  if 2 ≤ o.length && (Box.around? (o.flatMap PathSegment.points)).isSome then some o else none

end OutlineDraft

/-- The outline that segments draw, if it is one. -/
def outlineOf? (segments : List (PathSegment Spot)) : Option Outline :=
  (segments.foldl OutlineDraft.push .empty).outline?

/-- The outline of a rectangle, from its top-left corner on. -/
def rectangleOutline? (x y width height : Binary32) : Option Outline :=
  let right := x + width
  let bottom := y + height
  outlineOf? [.moveTo ⟨x, y⟩, .lineTo ⟨right, y⟩, .lineTo ⟨right, bottom⟩, .lineTo ⟨x, bottom⟩,
    .close]

/-- The outline through points, closed on demand; it takes two points. -/
def pointsOutline? (closed : Bool) (points : List Spot) : Option Outline :=
  match points with
  | p :: q :: rest =>
    outlineOf? (.moveTo p :: ((q :: rest).map .lineTo ++ if closed then [.close] else []))
  | _ => none

/-- The outline of a rectangle with rounded corners, from the start of its upper side on. -/
def roundedOutline? (x y width height rx ry : Binary32) : Option Outline :=
  let right := x + width
  let bottom := y + height
  let corner (o : OutlineDraft) (start stop : Spot) : OutlineDraft :=
    (o.push (.lineTo start)).arcTo rx ry stop
  let o := OutlineDraft.empty.moveTo ⟨x + rx, y⟩
  let o := corner o ⟨right - rx, y⟩ ⟨right, y + ry⟩
  let o := corner o ⟨right, bottom - ry⟩ ⟨right - rx, bottom⟩
  let o := corner o ⟨x + rx, bottom⟩ ⟨x, bottom - ry⟩
  let o := corner o ⟨x, y + ry⟩ ⟨x + rx, y⟩
  (o.push .close).outline?

/-- The outline of an ellipse, from its rightmost point on. -/
def ellipseOutline? (cx cy rx ry : Binary32) : Option Outline :=
  let o := OutlineDraft.empty.moveTo ⟨cx + rx, cy⟩
  let ends : List Spot := [⟨cx, cy + ry⟩, ⟨cx - rx, cy⟩, ⟨cx, cy - ry⟩, ⟨cx + rx, cy⟩]
  ((ends.foldl (OutlineDraft.arcTo rx ry) o).push .close).outline?

namespace Outline

/-- The ends of the segments and the turning points of the curves, given the start of the subpath
and the current point. -/
def extremes (start current : Spot) : Outline → List Spot
  | [] => []
  | .moveTo p :: rest => p :: extremes p p rest
  | .lineTo p :: rest => p :: extremes start p rest
  | .quadTo p₁ p :: rest => quadTurningPoints current p₁ p ++ p :: extremes start p rest
  | .cubicTo p₁ p₂ p :: rest =>
    cubicTurningPoints current p₁ p₂ p ++ p :: extremes start p rest
  | .close :: rest => extremes start start rest

/-- The box around an outline. -/
def box? (o : Outline) : Option Box :=
  Box.around? (extremes ⟨.zero, .zero⟩ ⟨.zero, .zero⟩ o)

/-- The outline and its control points extend in both directions. -/
def hasArea (o : Outline) : Bool :=
  match Box.around? (o.flatMap PathSegment.points) with
  | some b => b.hasArea
  | none => false

/-- The box around the image of an outline; if the map neither turns nor slants, around the image
of its box. -/
def cover? (o : Outline) (m : Placement) : Option Box :=
  if m.hasSkew then
    let image : Outline := o.map (PathSegment.map m.apply)
    (Box.around? (image.flatMap PathSegment.points)).bind fun _ => image.box?
  else o.box?.bind fun b => b.map? m

end Outline

end Svg

end VectorImage
