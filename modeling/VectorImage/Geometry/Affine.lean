import VectorImage.Geometry.Rect

/-!
Affine maps of the plane by six coefficients: `x' = a x + c y + e` and `y' = b x + d y + f`. The
order of the sums is part of the definition, since sums are rounded.
-/

set_option autoImplicit false
set_option relaxedAutoImplicit false

namespace VectorImage

structure Affine where
  a : Binary64
  b : Binary64
  c : Binary64
  d : Binary64
  e : Binary64
  f : Binary64
  deriving DecidableEq, Inhabited

namespace Affine

def identity : Affine := ⟨.one, .zero, .zero, .one, .zero, .zero⟩

def translate (x y : Binary64) : Affine := ⟨.one, .zero, .zero, .one, x, y⟩

def scale (x y : Binary64) : Affine := ⟨x, .zero, .zero, y, .zero, .zero⟩

/-- The map that applies `n` first and `m` after it. -/
def mul (m n : Affine) : Affine where
  a := m.a * n.a + m.c * n.b
  b := m.b * n.a + m.d * n.b
  c := m.a * n.c + m.c * n.d
  d := m.b * n.c + m.d * n.d
  e := m.a * n.e + m.c * n.f + m.e
  f := m.b * n.e + m.d * n.f + m.f

instance : Mul Affine := ⟨mul⟩

/-- The map `m` after the local map, where there is one. -/
def after (m : Affine) : Option Affine → Affine
  | none => m
  | some t => m * t

def apply (m : Affine) (p : Point) : Point :=
  ⟨m.a * p.x + m.c * p.y + m.e, m.b * p.x + m.d * p.y + m.f⟩

/-- The hull of the images of the four corners. -/
def mapRect (m : Affine) (r : Rect) : Rect :=
  let p00 := m.apply ⟨r.x0, r.y0⟩
  let p01 := m.apply ⟨r.x0, r.y1⟩
  let p10 := m.apply ⟨r.x1, r.y0⟩
  let p11 := m.apply ⟨r.x1, r.y1⟩
  (Rect.ofPoints p00 p01).union (Rect.ofPoints p10 p11)

/-- The coefficients in the order they are stored. -/
def toList (m : Affine) : List Binary64 := [m.a, m.b, m.c, m.d, m.e, m.f]

/-- Pass every coefficient through `g`. -/
def map (g : Binary64 → Binary64) (m : Affine) : Affine :=
  ⟨g m.a, g m.b, g m.c, g m.d, g m.e, g m.f⟩

/-- No coefficient of `m` and `n` differs by more than `tolerance`. -/
def near (m n : Affine) (tolerance : Binary64) : Bool :=
  (m.toList.zip n.toList).all fun p => (p.1 - p.2).abs.le tolerance

end Affine

end VectorImage
