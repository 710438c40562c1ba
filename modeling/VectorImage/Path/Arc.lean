import VectorImage.Number.Real
import VectorImage.Path.Basic

/-!
Elliptical arcs between two points as cubic curves. Of the four arcs of an ellipse two are long
and two run one way round; radii that are too small to reach are scaled up. The order of
operations is part of the definitions, since each is rounded.
-/

set_option autoImplicit false
set_option relaxedAutoImplicit false

namespace VectorImage

/-- An arc by its ends, the radii of its ellipse and the angle of their axes. -/
structure ArcRequest where
  start : Point
  stop : Point
  rx : Binary64
  ry : Binary64
  rotation : Binary64
  large : Bool
  sweep : Bool

/-- An arc by its center and the angles it runs through. -/
structure Arc where
  center : Point
  rx : Binary64
  ry : Binary64
  startAngle : Binary64
  sweepAngle : Binary64
  rotation : Binary64

namespace ArcRequest

/-- An arc that degenerates to a line: a radius of at most `1e-5`, or the end at the start. -/
def isStraight (a : ArcRequest) : Bool :=
  let limit : Binary64 := .ofRatio false 1 100000
  a.rx.abs.le limit || a.ry.abs.le limit ||
    (a.start.x.equals a.stop.x && a.start.y.equals a.stop.y)

/-- The arc of an ellipse whose axes are turned by the rotation. In its own coordinates the ends
are opposite each other, and the center is where their perpendicular meets the axes. -/
def arc? (a : ArcRequest) : Option Arc :=
  if a.isStraight then none
  else
    let turn := Binary64.ofNat 2 * .pi
    let rotation := a.rotation.remainder turn
    let sin := rotation.sin
    let cos := rotation.cos
    let hdx := (a.start.x - a.stop.x) * .half
    let hdy := (a.start.y - a.stop.y) * .half
    let hsx := (a.start.x + a.stop.x) * .half
    let hsy := (a.start.y + a.stop.y) * .half
    let px := cos * hdx + sin * hdy
    let py := -sin * hdx + cos * hdy
    let rx := a.rx.abs
    let ry := a.ry.abs
    let reach := px * px / (rx * rx) + py * py / (ry * ry)
    let scale := if Binary64.one.lt reach then reach.sqrt else .one
    let rx := if Binary64.one.lt reach then rx * scale else rx
    let ry := if Binary64.one.lt reach then ry * scale else ry
    let rxry := rx * ry
    let rxpy := rx * py
    let rypx := ry * px
    let sum := rxpy * rxpy + rypx * rypx
    let size := ((rxry * rxry - sum) / sum).abs.sqrt
    let offset := if a.large == a.sweep then -size else size
    let cx := offset * rxpy / ry
    let cy := -offset * rypx / rx
    let startAngle := Binary64.angle ((px - cx) / rx) ((py - cy) / ry)
    let stopAngle := Binary64.angle ((-px - cx) / rx) ((-py - cy) / ry)
    let swept := (stopAngle - startAngle).remainder turn
    let swept :=
      if a.sweep && swept.lt .zero then swept + turn
      else if !a.sweep && Binary64.zero.lt swept then swept - turn
      else swept
    some {
      center := ⟨cos * cx - sin * cy + hsx, sin * cx + cos * cy + hsy⟩
      rx := rx
      ry := ry
      startAngle := startAngle
      sweepAngle := swept
      rotation := a.rotation
    }

end ArcRequest

namespace Arc

/-- The point at an angle, seen from the center. -/
def sample (a : Arc) (angle : Binary64) : Point :=
  let u := a.rx * angle.cos
  let v := a.ry * angle.sin
  let sin := a.rotation.sin
  let cos := a.rotation.cos
  ⟨u * cos - v * sin, u * sin + v * cos⟩

/-- How many curves follow the arc within a tenth of a unit. -/
def curveCount (a : Arc) : Binary64 :=
  let scaled := a.rx.max a.ry / .ofRatio false 1 10
  let perTurn := (.ofRatio false 11163 10000 * scaled).pow (.one / .ofNat 6)
  let perTurn := perTurn.max (.ofRatio false 3999999 1000000)
  (perTurn * a.sweepAngle.abs * (.one / (.ofNat 2 * .pi))).ceiling

/-- The curves of an arc, given their number, the angle of each and the length of their control
arms, from an angle on. -/
def curvesFrom (a : Arc) (step arm : Binary64) : (count : Nat) → (angle : Binary64) →
    (p₀ : Point) → List Segment
  | 0, _, _ => []
  | count + 1, angle, p₀ =>
    let quarter := Binary64.pi * .half
    let next := angle + step
    let d₁ := a.sample (angle + quarter)
    let p := a.sample next
    let d₂ := a.sample (next + quarter)
    let p₁ : Point := ⟨p₀.x + arm * d₁.x, p₀.y + arm * d₁.y⟩
    let p₂ : Point := ⟨p.x - arm * d₂.x, p.y - arm * d₂.y⟩
    .cubicTo (a.center.add p₁) (a.center.add p₂) (a.center.add p) ::
      curvesFrom a step arm count next p

/-- The curves that follow the arc. -/
def curves (a : Arc) : List Segment :=
  let count := a.curveCount
  let step := a.sweepAngle / count
  let length := Binary64.ofNat 4 / .ofNat 3 * (.ofRatio false 1 4 * step).abs.tan
  let arm := if a.sweepAngle.isNegative then -length else length
  a.curvesFrom step arm (count.toInt?.getD 0).toNat a.startAngle (a.sample a.startAngle)

end Arc

/-- The segments that lead along an arc; a degenerate one is a line. -/
def ArcRequest.segments (a : ArcRequest) : List Segment :=
  match a.arc? with
  | some arc => arc.curves
  | none => [.lineTo a.stop]

end VectorImage
