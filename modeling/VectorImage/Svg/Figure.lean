import VectorImage.Svg.Gradient
import VectorImage.Svg.Outline
import VectorImage.Svg.Value.PathData

/-!
The outlines of the elements that draw: rectangles, circles, ellipses, lines, runs of lines and
paths.
-/

set_option autoImplicit false
set_option relaxedAutoImplicit false

namespace VectorImage

namespace Svg

/-- The radii of an ellipse or of rounded corners, none unless one of them is given; a negative
one counts as not given, and one stands for both. -/
def Scene.radii (scene : Scene) (s : Site) : Binary32 × Binary32 :=
  let radius? (key : String) : Option Binary32 :=
    ((s.length? key).filter fun l => !l.number.isNegative).map fun l =>
      l.resolve s.fontSize (scene.canvas.extent key)
  let rx? := radius? "rx"
  let ry? := radius? "ry"
  ((rx?.or ry?).getD .zero, (ry?.or rx?).getD .zero)

/-- The outline of a rectangle, with rounded corners if it has radii. -/
def Scene.rectangle? (scene : Scene) (s : Site) : Option Outline :=
  let side (key : String) : Binary32 := s.measure scene.canvas key noLength
  let x := side "x"
  let y := side "y"
  let width := side "width"
  let height := side "height"
  let (rx, ry) := scene.radii s
  let atMost (limit r : Binary32) : Binary32 := if limit.lt r then limit else r
  let rx := atMost (width / .ofNat 2) rx
  let ry := atMost (height / .ofNat 2) ry
  if !width.isPositive || !height.isPositive then none
  else if rx.near .zero 4 && ry.near .zero 4 then rectangleOutline? x y width height
  else roundedOutline? x y width height rx ry

/-- The outline of an ellipse with positive radii. -/
def Scene.ellipse? (scene : Scene) (s : Site) (radii : Binary32 × Binary32) : Option Outline :=
  if radii.1.isPositive && radii.2.isPositive then
    ellipseOutline? (s.measure scene.canvas "cx" noLength) (s.measure scene.canvas "cy" noLength)
      radii.1 radii.2
  else none

/-- The names of elements that have an outline. -/
def figureNames : List String :=
  ["rect", "circle", "ellipse", "line", "polyline", "polygon", "path"]

/-- The outline of an element. -/
def Scene.outline? (scene : Scene) (s : Site) : Option Outline :=
  let side (key : String) : Binary32 := s.measure scene.canvas key noLength
  let points (closed : Bool) : Option Outline :=
    (s.own? "points").bind fun text =>
      pointsOutline? closed ((pointsOf text).map fun p => .ofPoint ⟨p.1, p.2⟩)
  match s.name with
  | "rect" => scene.rectangle? s
  | "circle" => scene.ellipse? s (side "r", side "r")
  | "ellipse" => scene.ellipse? s (scene.radii s)
  | "line" => pointsOutline? false [⟨side "x1", side "y1"⟩, ⟨side "x2", side "y2"⟩]
  | "polyline" => points false
  | "polygon" => points true
  | "path" => (s.own? "d").bind fun text =>
    outlineOf? ((pathDataOf text).map (PathSegment.map Spot.ofPoint))
  | _ => none

end Svg

end VectorImage
