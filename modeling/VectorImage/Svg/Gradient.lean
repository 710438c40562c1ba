import VectorImage.Svg.Scene
import VectorImage.Svg.Picture

/-!
Gradients. Their stops are spread so that no two neighbours have the same offset. One with a
single stop, or with a circle of no size, is a flat color; one without stops is nothing. Stops
and attributes may be taken from a gradient that is referred to, coordinates only from one of the
same kind.
-/

set_option autoImplicit false
set_option relaxedAutoImplicit false

namespace VectorImage

namespace Svg

/-- What an element provides to paint with; gradients and patterns count in user units or in units
of the shape's box. -/
inductive PaintServer
  | ramp (inUserSpace : Bool) (r : Ramp)
  | flat (color : Rgb) (opacity : Binary32)
  | pattern (inUserSpace : Bool)
  deriving Inhabited

/-- A color and its opacity. -/
def splitColor (c : Color) : Rgb × Binary32 := (⟨c.r, c.g, c.b⟩, .ofNat c.a.toNat / .ofNat 255)

/-- Offsets that count as one. -/
def sameOffset (a b : Binary32) : Bool := a.near b 4

/-- The color of a stop. -/
def stopColor (s : Site) : Color :=
  let color? : Option Color :=
    match s.own? "stop-color" with
    | none => none
    | some text =>
      if text = "currentColor".toList then (s.inherited? "color").bind colorOf? else colorOf? text
  color?.getD (.rgb 0 0 0)

/-- The offset of a stop as a number: its own, or that of the stop before. -/
def stopOffset (previous : Binary64) (s : Site) : Binary64 :=
  match s.length? "offset" with
  | some ⟨x, .number⟩ => x
  | some ⟨x, .percent⟩ => x / .ofNat 100
  | _ => previous

def stopOf (offset : Binary64) (s : Site) : Stop :=
  let (color, alpha) := splitColor (stopColor s)
  let opacity := ((s.own? "stop-opacity").bind opacityOf?).getD .one
  ⟨((Binary32.ofBinary64 offset).min .one).clampUnit, color, (alpha * opacity).clampUnit⟩

/-- The stops as they are written. -/
def writtenStops (previous : Binary64) : List Site → List Stop
  | [] => []
  | s :: rest =>
    if s.name = "stop" then
      let offset := stopOffset previous s
      stopOf offset s :: writtenStops offset rest
    else writtenStops previous rest

/-- Of three or more neighbours at one offset, keep the first and the last. -/
def dropMiddleStops : List Stop → List Stop
  | a :: b :: c :: rest =>
    if sameOffset a.offset b.offset && sameOffset b.offset c.offset then
      dropMiddleStops (a :: c :: rest)
    else a :: dropMiddleStops (b :: c :: rest)
  | stops => stops
termination_by stops => stops.length

/-- Of two neighbours at the start, move the second away from it. -/
def raiseStops : List Stop → List Stop
  | a :: b :: rest =>
    if sameOffset a.offset .zero && sameOffset b.offset .zero then
      a :: raiseStops ({ b with offset := (a.offset + .epsilon).clampUnit } :: rest)
    else a :: raiseStops (b :: rest)
  | stops => stops
termination_by stops => stops.length

/-- Move a stop that is not before the next one down a little, and the next one to where it
was. -/
def separateStops : List Stop → List Stop
  | a :: b :: rest =>
    if b.offset.lt a.offset || sameOffset a.offset b.offset then
      { a with offset := (a.offset - .epsilon).clampUnit } ::
        separateStops ({ b with offset := a.offset } :: rest)
    else a :: separateStops (b :: rest)
  | stops => stops
termination_by stops => stops.length

/-- The stops of a gradient. -/
def stopsOf (s : Site) : List Stop :=
  separateStops (raiseStops (dropMiddleStops (writtenStops .zero s.children)))

def spreadOf (s : Site) : SpreadMethod :=
  match (s.own? "spreadMethod").map String.ofList with
  | some "reflect" => .reflect
  | some "repeat" => .repeated
  | _ => .pad

/-- A percentage as a length. -/
def percent (n : Nat) : Length := ⟨.ofNat n, .percent⟩

/-- No length. -/
def noLength : Length := .ofNumber .zero

def gradientNames : List String := ["linearGradient", "radialGradient"]

/-- The line of a linear gradient. -/
def Scene.linearShape (scene : Scene) (inUserSpace : Bool) (s : Site) : RampShape :=
  let measure := scene.measure ["linearGradient"] inUserSpace s
  .linear ⟨measure "x1" noLength, measure "y1" noLength⟩
    ⟨measure "x2" (percent 100), measure "y2" noLength⟩

/-- The circle of a radial gradient, whose radius must be positive; the focal point is its center
unless given. -/
def Scene.radialShape? (scene : Scene) (inUserSpace : Bool) (s : Site) : Option RampShape :=
  let measure := scene.measure ["radialGradient"] inUserSpace s
  let r := measure "r" (percent 50)
  let cx := measure "cx" (percent 50)
  let cy := measure "cy" (percent 50)
  let fx := measure "fx" (.ofNumber cx.widen)
  let fy := measure "fy" (.ofNumber cy.widen)
  if r.isPositive then some (.radial ⟨cx, cy⟩ r ⟨fx, fy⟩) else none

/-- The stops of the first gradient in the chain that has some. -/
def Scene.stops (scene : Scene) (s : Site) : List Stop :=
  let gradients := (scene.chain s).takeWhile fun t => gradientNames.contains t.name
  match gradients.find? fun t => t.children.any fun c => c.name == "stop" with
  | some t => stopsOf t
  | none => []

/-- What a gradient provides; one without a shape takes its last color. -/
def Scene.gradient? (scene : Scene) (s : Site) : Option PaintServer :=
  let provider (key : String) : Site := scene.provider gradientNames s key
  match scene.stops s with
  | [] => none
  | [stop] => some (.flat stop.color stop.opacity)
  | stops =>
    let inUserSpace := (provider "gradientUnits").inUserSpace "gradientUnits"
    let shape? :=
      if s.name = "linearGradient" then some (scene.linearShape inUserSpace s)
      else scene.radialShape? inUserSpace s
    match shape? with
    | none => stops.getLast?.map fun stop => .flat stop.color stop.opacity
    | some shape =>
      if s.isNamed then
        let placement :=
          (provider "gradientTransform").placement scene.canvas "gradientTransform"
        some (.ramp inUserSpace
          ⟨[s.number], shape, stops, spreadOf (provider "spreadMethod"), placement⟩)
      else none

end Svg

end VectorImage
