import VectorImage.Number.Binary64

/-!
Functions of real numbers that the machine's library provides, and the exact remainder of a
division. Angles are in radians.
-/

set_option autoImplicit false
set_option relaxedAutoImplicit false

namespace VectorImage

namespace Binary64

/-- A function of one number that the machine's library provides. -/
def applyReal (f : Float → Float) (x : Binary64) : Binary64 := ⟨(f (Float.ofBits x.bits)).toBits⟩

def sin (x : Binary64) : Binary64 := applyReal Float.sin x

def cos (x : Binary64) : Binary64 := applyReal Float.cos x

def tan (x : Binary64) : Binary64 := applyReal Float.tan x

/-- The least whole number that is not below. -/
def ceiling (x : Binary64) : Binary64 := applyReal Float.ceil x

def pow (x y : Binary64) : Binary64 :=
  applyReal (fun a => Float.pow a (Float.ofBits y.bits)) x

/-- The angle of the direction to the point `(x, y)`. -/
def angle (x y : Binary64) : Binary64 :=
  applyReal (fun a => Float.atan2 (Float.ofBits y.bits) a) x

/-- Half a turn. -/
def pi : Binary64 := ⟨0x400921fb54442d18⟩

/-- One degree. -/
def degree : Binary64 := ⟨0x3f91df46a2529d39⟩

/-- The value of a finite magnitude pattern in units of the least positive number. -/
def units (magnitude : Nat) : Nat :=
  let field := magnitude / 2 ^ 52
  let fraction := magnitude % 2 ^ 52
  if field = 0 then fraction else (2 ^ 52 + fraction) * 2 ^ (field - 1)

/-- What is left of a number by whole multiples of another, with the sign of the first; of what
is not finite nothing is. -/
def remainder (x y : Binary64) : Binary64 :=
  if infinityMagnitude ≤ x.magnitude then indefinite
  else ofRatio x.isNegative (units x.magnitude % units y.magnitude) (2 ^ 1074)

example : remainder (.ofNat 7) (.ofNat 4) = .ofNat 3 := by decide +kernel

end Binary64

end VectorImage
