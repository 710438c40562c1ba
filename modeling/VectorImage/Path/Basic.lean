import VectorImage.Error
import VectorImage.Geometry.Affine
import VectorImage.Number.Binary32

/-!
Path geometry as a list of segments. The stored form splits it into verbs and a flat list of
coordinates; `Path.ofParts` puts it together again and refuses a coordinate count that does not
match, and `ofParts_parts` says that nothing is lost.
-/

set_option autoImplicit false
set_option relaxedAutoImplicit false

namespace VectorImage

/-- The kinds of segment. -/
inductive Verb
  | moveTo | lineTo | quadTo | cubicTo | close
  deriving DecidableEq, Inhabited

namespace Verb

/-- Number of coordinates a segment of this kind takes. -/
def coordCount : Verb → Nat
  | .moveTo => 2
  | .lineTo => 2
  | .quadTo => 4
  | .cubicTo => 6
  | .close => 0

def code : Verb → UInt8
  | .moveTo => 0
  | .lineTo => 1
  | .quadTo => 2
  | .cubicTo => 3
  | .close => 4

def ofCode (code : UInt8) : Except Error Verb :=
  match code.toNat with
  | 0 => .ok .moveTo
  | 1 => .ok .lineTo
  | 2 => .ok .quadTo
  | 3 => .ok .cubicTo
  | 4 => .ok .close
  | _ => .error (.format (.unknownVerb code))

theorem ofCode_code (v : Verb) : ofCode v.code = .ok v := by cases v <;> rfl

end Verb

/-- One step of a path through points of type `π`; curves list their control points before the
end point. -/
inductive PathSegment (π : Type)
  | moveTo (p : π)
  | lineTo (p : π)
  | quadTo (p₁ p : π)
  | cubicTo (p₁ p₂ p : π)
  | close
  deriving DecidableEq, Inhabited

namespace PathSegment

variable {π ρ : Type}

def verb : PathSegment π → Verb
  | .moveTo _ => .moveTo
  | .lineTo _ => .lineTo
  | .quadTo _ _ => .quadTo
  | .cubicTo _ _ _ => .cubicTo
  | .close => .close

def points : PathSegment π → List π
  | .moveTo p => [p]
  | .lineTo p => [p]
  | .quadTo p₁ p => [p₁, p]
  | .cubicTo p₁ p₂ p => [p₁, p₂, p]
  | .close => []

/-- Pass every point through `f`. -/
def map (f : π → ρ) : PathSegment π → PathSegment ρ
  | .moveTo p => .moveTo (f p)
  | .lineTo p => .lineTo (f p)
  | .quadTo p₁ p => .quadTo (f p₁) (f p)
  | .cubicTo p₁ p₂ p => .cubicTo (f p₁) (f p₂) (f p)
  | .close => .close

end PathSegment

/-- One step of a path in the plane. -/
abbrev Segment := PathSegment Point

def Segment.coords (s : Segment) : List Binary64 := s.points.flatMap fun p => [p.x, p.y]

/-- A path: its segments in order. -/
structure Path where
  segments : List Segment
  deriving DecidableEq, Inhabited

namespace Path

def empty : Path := ⟨[]⟩

def verbs (p : Path) : List Verb := p.segments.map PathSegment.verb

def coords (p : Path) : List Binary64 := p.segments.flatMap Segment.coords

/-- Every point of the path, control points included. -/
def points (p : Path) : List Point := p.segments.flatMap PathSegment.points

/-- The hull of all points, if the path has any. -/
def controlBounds (p : Path) : Option Rect := hull? p.points

def mapPoints (f : Point → Point) (p : Path) : Path := ⟨p.segments.map (PathSegment.map f)⟩

/-- Pass every coordinate through `f`. -/
def mapCoords (f : Binary64 → Binary64) (p : Path) : Path :=
  p.mapPoints fun q => ⟨f q.x, f q.y⟩

/-- Every coordinate rounded to a precision. -/
def round (width : FloatWidth) (p : Path) : Path := p.mapCoords width.round

/-- Segments that the verbs cut from the coordinates, while both last. -/
def segmentsOfParts : List Verb → List Binary64 → List Segment
  | .moveTo :: vs, x :: y :: cs => .moveTo ⟨x, y⟩ :: segmentsOfParts vs cs
  | .lineTo :: vs, x :: y :: cs => .lineTo ⟨x, y⟩ :: segmentsOfParts vs cs
  | .quadTo :: vs, x₁ :: y₁ :: x :: y :: cs =>
    .quadTo ⟨x₁, y₁⟩ ⟨x, y⟩ :: segmentsOfParts vs cs
  | .cubicTo :: vs, x₁ :: y₁ :: x₂ :: y₂ :: x :: y :: cs =>
    .cubicTo ⟨x₁, y₁⟩ ⟨x₂, y₂⟩ ⟨x, y⟩ :: segmentsOfParts vs cs
  | .close :: vs, cs => .close :: segmentsOfParts vs cs
  | _, _ => []

/-- Number of coordinates that a list of verbs takes. -/
def coordCount (verbs : List Verb) : Nat := (verbs.map Verb.coordCount).foldr (· + ·) 0

/-- Assemble a path from verbs and coordinates, which must match. -/
def ofParts (verbs : List Verb) (coords : List Binary64) : Except Error Path :=
  if coordCount verbs = coords.length then .ok ⟨segmentsOfParts verbs coords⟩
  else .error (.format (.pathCoordinates (coordCount verbs) coords.length))

theorem length_coords (p : Path) : p.coords.length = coordCount p.verbs := by
  obtain ⟨segments⟩ := p
  induction segments with
  | nil => rfl
  | cons s rest ih =>
    simp only [coords, verbs, coordCount, List.flatMap_cons, List.map_cons, List.foldr_cons,
      List.length_append] at ih ⊢
    rw [ih]
    cases s <;> rfl

theorem segmentsOfParts_parts (segments : List Segment) :
    segmentsOfParts (segments.map PathSegment.verb) (segments.flatMap Segment.coords) = segments := by
  induction segments with
  | nil => rfl
  | cons s rest ih =>
    cases s <;> simp [segmentsOfParts, PathSegment.verb, Segment.coords, PathSegment.points, ih]

theorem ofParts_parts (p : Path) : ofParts p.verbs p.coords = .ok p := by
  rw [ofParts, ← length_coords]
  simp only [if_true, verbs, coords, segmentsOfParts_parts]

end Path

end VectorImage
