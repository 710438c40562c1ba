import VectorImage.Geometry.Affine
import VectorImage.Svg.Box

/-!
Affine maps of 32-bit coefficients. Products are rounded once each, and maps that only scale and
move are multiplied without the other terms.
-/

set_option autoImplicit false
set_option relaxedAutoImplicit false

namespace VectorImage

namespace Svg

/-- An affine map of 32-bit coefficients, in the order of `Affine`. -/
structure Placement where
  a : Binary32
  b : Binary32
  c : Binary32
  d : Binary32
  e : Binary32
  f : Binary32
  deriving DecidableEq, Inhabited

namespace Placement

def identity : Placement := ⟨.one, .zero, .zero, .one, .zero, .zero⟩

def translate (x y : Binary32) : Placement := ⟨.one, .zero, .zero, .one, x, y⟩

/-- The map that takes the unit square to a box. -/
def ofBox (b : Box) : Placement := ⟨b.width, .zero, .zero, b.height, b.left, b.top⟩

def toList (p : Placement) : List Binary32 := [p.a, p.b, p.c, p.d, p.e, p.f]

/-- The map changes nothing; the sign of a zero does not count. -/
def isIdentity (p : Placement) : Bool :=
  (p.toList.zip identity.toList).all fun q => q.1.equals q.2

/-- The map turns or slants. -/
def hasSkew (p : Placement) : Bool := !(p.b.equals .zero && p.c.equals .zero)

def widen (p : Placement) : Affine :=
  ⟨p.a.widen, p.b.widen, p.c.widen, p.d.widen, p.e.widen, p.f.widen⟩

def ofAffine (m : Affine) : Placement :=
  ⟨.ofBinary64 m.a, .ofBinary64 m.b, .ofBinary64 m.c, .ofBinary64 m.d, .ofBinary64 m.e,
    .ofBinary64 m.f⟩

/-- The map that applies `n` first and `m` after it. The sums of products are taken in full and
rounded once. -/
def mul (m n : Placement) : Placement :=
  let p (a b c d : Binary32) : Binary32 := .ofBinary64 (a.widen * b.widen + c.widen * d.widen)
  if m.isIdentity then n
  else if n.isIdentity then m
  else if !m.hasSkew && !n.hasSkew then
    ⟨m.a * n.a, .zero, .zero, m.d * n.d, m.a * n.e + m.e, m.d * n.f + m.f⟩
  else
    ⟨p m.a n.a m.c n.b, p m.b n.a m.d n.b, p m.a n.c m.c n.d, p m.b n.c m.d n.d,
      p m.a n.e m.c n.f + m.e, p m.b n.e m.d n.f + m.f⟩

instance : Mul Placement := ⟨mul⟩

/-- The map seen from another origin. -/
def about (m : Placement) (x y : Binary32) : Placement :=
  translate x y * m * translate (-x) (-y)

def apply (m : Placement) (s : Spot) : Spot :=
  ⟨m.a * s.x + m.c * s.y + m.e, m.b * s.x + m.d * s.y + m.f⟩

/-- The map is finite and keeps an extent in both directions. -/
def isUsable (p : Placement) : Bool :=
  p.toList.all Binary32.isFinite && Binary32.epsilon.lt (p.a * p.a + p.c * p.c).sqrt &&
    Binary32.epsilon.lt (p.b * p.b + p.d * p.d).sqrt

/-- The map as a transform, unless it changes nothing. -/
def toTransform (p : Placement) : Option Affine := if p.isIdentity then none else some p.widen

end Placement

/-- The box around the image of a box. -/
def Box.map? (b : Box) (m : Placement) : Option Box :=
  if m.isIdentity then some b else Box.around? (b.corners.map m.apply)

end Svg

end VectorImage
