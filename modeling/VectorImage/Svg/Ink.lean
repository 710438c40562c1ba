import VectorImage.Svg.Gradient

/-!
The inks that shapes are filled and stroked with. A paint is taken from the nearest element
around that has one; what else shapes a stroke is inherited one by one. Inside a clip a shape is
filled with black and has no stroke. A pattern counts if its tile has an area and holds something.
-/

set_option autoImplicit false
set_option relaxedAutoImplicit false

namespace VectorImage

namespace Svg

/-- An inherited attribute that has one of a few names. -/
def namedOr {α : Type} (s : Site) (key : String) (names : List (String × α)) (default : α) : α :=
  (((s.inherited? key).map String.ofList).bind fun name => names.lookup name).getD default

def ruleOf (s : Site) (key : String) : FillRule :=
  namedOr s key [("nonzero", .nonZero), ("evenodd", .evenOdd)] .nonZero

def capOf (s : Site) : LineCap :=
  namedOr s "stroke-linecap" [("butt", .butt), ("round", .round), ("square", .square)] .butt

def joinOf (s : Site) : LineJoin :=
  namedOr s "stroke-linejoin"
    [("miter", .miter), ("miter-clip", .miter), ("round", .round), ("bevel", .bevel)] .miter

/-- An inherited opacity. -/
def opacityAt (s : Site) (key : String) : Binary32 :=
  ((s.inherited? key).bind opacityOf?).getD .one

/-- The ink and opacity of a color. -/
def colorInk (c : Color) : Ink × Binary32 :=
  let (color, opacity) := splitColor c
  (.color color, opacity)

/-- What is painted: an element, its box, whether its outline and control points extend in both
directions, and what tells it from other uses of the element. -/
structure Surface where
  site : Site
  box : Box
  hasArea : Bool
  via : List Nat

/-- The ink and opacity of a paint without reference. The current color is that of the shape. -/
def Surface.plainInk? (surface : Surface) : PlainPaint → Option (Ink × Binary32)
  | .none => none
  | .currentColor =>
    some (colorInk (((surface.site.inherited? "color").bind colorOf?).getD (.rgb 0 0 0)))
  | .color c => some (colorInk c)

/-- What a pattern provides, given which elements hold something to draw: the first in its chain
that has elements in it must. -/
def Scene.pattern? (scene : Scene) (holds : Site → Bool) (s : Site) : Option PaintServer :=
  let provider (key : String) : Site := scene.provider ["pattern"] s key
  let inUserSpace := (provider "patternUnits").inUserSpace "patternUnits"
  let measure (key : String) : Binary32 := scene.measure ["pattern"] inUserSpace s key noLength
  let tile? := Box.ofCorner? (measure "x") (measure "y") (measure "width") (measure "height")
  let patterns := (scene.chain s).takeWhile fun t => t.name = "pattern"
  match patterns.find? fun t => !t.element.children.isEmpty with
  | some t => if tile?.isSome && s.isNamed && holds t then some (.pattern inUserSpace) else none
  | none => none

/-- What an element provides to paint with; elements of other kinds are none of these. -/
def Scene.server? (scene : Scene) (holds : Site → Bool) (s : Site) :
    Option (Option PaintServer) :=
  if gradientNames.contains s.name then some (scene.gradient? s)
  else if s.name = "pattern" then some (scene.pattern? holds s)
  else none

/-- The ink of a gradient on a surface. In units of the surface's box it is a gradient of its
own. -/
def Surface.ramp? (surface : Surface) (use : Nat) (inUserSpace : Bool) (r : Ramp) : Option Ink :=
  if inUserSpace then some (.ramp r)
  else if surface.box.hasArea then
    some (.ramp { r with
      identity := r.identity ++ use :: surface.site.number :: surface.via
      placement := .ofBox surface.box * r.placement })
  else none

/-- The ink and opacity that a paint stands for. A reference to an element that provides nothing,
or something in units of a box without area, gives way to the fallback; one to an element of
another kind does not. -/
def Scene.ink? (scene : Scene) (holds : Site → Bool) (surface : Surface) (use : Nat) :
    PaintValue → Option (Ink × Binary32)
  | .plain p => surface.plainInk? p
  | .link name fallback =>
    let other := fallback.bind surface.plainInk?
    match scene.find? name with
    | none => other
    | some target =>
      match scene.server? holds target with
      | none => none
      | some none => other
      | some (some (.flat color opacity)) => some (.color color, opacity)
      | some (some (.ramp inUserSpace r)) =>
        if !inUserSpace && !surface.hasArea then other
        else (surface.ramp? use inUserSpace r).map fun ink => (ink, .one)
      | some (some (.pattern inUserSpace)) =>
        if !inUserSpace && !surface.hasArea then other
        else if inUserSpace || surface.box.hasArea then some (.pattern, .one)
        else none

/-- The inherited paint of a shape; a malformed one is `malformed`. -/
def Scene.paint? (scene : Scene) (holds : Site → Bool) (surface : Surface) (use : Nat)
    (key : String) (malformed absent : PlainPaint) : Option (Ink × Binary32) :=
  match surface.site.inherited? key with
  | none => surface.plainInk? absent
  | some text => scene.ink? holds surface use ((paintOf? text).getD (.plain malformed))

def black : PlainPaint := .color (.rgb 0 0 0)

/-- The fill of a shape inside a clip. -/
def clipFill (s : Site) : InkFill := ⟨.color .black, .one, ruleOf s "clip-rule"⟩

/-- The fill of a shape. -/
def Scene.fill? (scene : Scene) (holds : Site → Bool) (surface : Surface) : Option InkFill := do
  let s := surface.site
  let (ink, opacity) ← scene.paint? holds surface 0 "fill" black black
  return ⟨ink, (opacity * opacityAt s "fill-opacity").clampUnit, ruleOf s "fill-rule"⟩

/-- The dashes of a stroke: an even number of lengths, none of them negative, not all zero. -/
def Scene.dashes? (scene : Scene) (s : Site) : Option (List Binary32) := do
  let h ← s.holder? "stroke-dasharray"
  let lengths := lengthsOf (← h.own? "stroke-dasharray")
  let full := scene.canvas.extent "stroke-dasharray"
  let dashes := lengths.map fun l => l.resolve h.fontSize full
  if dashes.any Binary32.isNegative then none
  else if (dashes.foldl (· + ·) Binary32.zero).near .zero 4 then none
  else if dashes.length % 2 = 0 then some dashes
  else some (dashes ++ dashes)

/-- The stroke of a shape; its width must be positive. -/
def Scene.stroke? (scene : Scene) (holds : Site → Bool) (surface : Surface) :
    Option InkStroke := do
  let s := surface.site
  let (ink, opacity) ← scene.paint? holds surface 1 "stroke" .none .none
  let width := s.measureInherited scene.canvas "stroke-width" .one
  if !width.isPositive then none
  let limit :=
    (((s.inherited? "stroke-miterlimit").bind numberOf?).map Binary32.ofBinary64).getD (.ofNat 4)
  return {
    ink := ink
    opacity := (opacity * opacityAt s "stroke-opacity").clampUnit
    width := width
    cap := capOf s
    join := joinOf s
    miterLimit := if limit.lt .one then .one else limit
    dashes := scene.dashes? s
    dashOffset := s.measureInherited scene.canvas "stroke-dashoffset" .zero
  }

end Svg

end VectorImage
