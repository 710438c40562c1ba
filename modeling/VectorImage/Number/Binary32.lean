import VectorImage.Number.Binary64

/-!
Numbers of 32 bits and their conversion to and from 64 bits. Widening is exact; narrowing rounds
to nearest, ties to even, overflows to infinity and keeps the high payload bits of a
not-a-number pattern. `Binary64.round32` is the way there and back. Arithmetic is done in 64 bits
and narrowed: for one operation the second rounding is innocuous, since 64-bit significands have
more than twice the digits of 32-bit ones and two to spare.
-/

set_option autoImplicit false
set_option relaxedAutoImplicit false

namespace VectorImage

/-- A 32-bit binary number, given by its bit pattern. -/
structure Binary32 where
  bits : UInt32
  deriving DecidableEq, Hashable, Inhabited

namespace Binary32

/-- The pattern without its sign bit. -/
def magnitude (x : Binary32) : Nat := x.bits.toNat % 2 ^ 31

def isNegative (x : Binary32) : Bool := decide (2 ^ 31 ≤ x.bits.toNat)

/-- The pattern of the positive infinity; larger magnitudes are not numbers. -/
def infinityMagnitude : Nat := 0x7f800000

/-- The number with the given sign and magnitude pattern. -/
def ofMagnitude (negative : Bool) (magnitude : Nat) : Binary32 :=
  ⟨UInt32.ofNat (if negative then 2 ^ 31 + magnitude else magnitude)⟩

/-- The 64-bit magnitude pattern of the value that a 32-bit magnitude pattern denotes. A
subnormal value becomes normal: its leading digit is the `k`-th. -/
def widenMagnitude (m : Nat) : Nat :=
  if infinityMagnitude < m then
    -- not a number: the payload moves to the high end and is quieted
    Binary64.infinityMagnitude + 2 ^ 51 + (m % 2 ^ 22) * 2 ^ 29
  else if m = infinityMagnitude then Binary64.infinityMagnitude
  else if 2 ^ 23 ≤ m then m * 2 ^ 29 + 896 * 2 ^ 52
  else if m = 0 then 0
  else
    let k := m.log2
    (k + 874) * 2 ^ 52 + (m - 2 ^ k) * 2 ^ (52 - k)

/-- The 64-bit number of the same value; a not-a-number pattern is quieted. -/
def widen (x : Binary32) : Binary64 :=
  Binary64.ofMagnitude x.isNegative (widenMagnitude x.magnitude)

/-- The magnitude pattern nearest to the value of a 64-bit magnitude pattern. Below the normal
range the significand is rounded at the least exponent. -/
def narrowMagnitude (m : Nat) : Nat :=
  if Binary64.infinityMagnitude < m then
    -- not a number: the high payload bits stay and are quieted
    infinityMagnitude + 2 ^ 22 + (m % 2 ^ 51) / 2 ^ 29
  else if m = Binary64.infinityMagnitude then infinityMagnitude
  else
    let field := m / 2 ^ 52
    let pattern :=
      if 897 ≤ field then roundDiv (m - 896 * 2 ^ 52) (2 ^ 29)
      else if field = 0 then 0
      else roundDiv (2 ^ 52 + m % 2 ^ 52) (2 ^ (926 - field))
    if infinityMagnitude ≤ pattern then infinityMagnitude else pattern

/-- The 32-bit number nearest to a 64-bit number. -/
def ofBinary64 (x : Binary64) : Binary32 := ofMagnitude x.isNegative (narrowMagnitude x.magnitude)

def zero : Binary32 := ⟨0⟩

def one : Binary32 := ⟨0x3f800000⟩

/-- The distance from one to the next number above it. -/
def epsilon : Binary32 := ⟨0x34000000⟩

def ofNat (n : Nat) : Binary32 := ofBinary64 (.ofNat n)

/-- Apply an operation of 64-bit numbers and narrow the result. -/
def lift (f : Binary64 → Binary64 → Binary64) (a b : Binary32) : Binary32 :=
  ofBinary64 (f a.widen b.widen)

instance : Add Binary32 := ⟨lift Binary64.add⟩
instance : Sub Binary32 := ⟨lift Binary64.sub⟩
instance : Mul Binary32 := ⟨lift Binary64.mul⟩
instance : Div Binary32 := ⟨lift Binary64.div⟩

/-- Flip the sign bit. -/
instance : Neg Binary32 := ⟨fun a => ⟨a.bits ^^^ 0x80000000⟩⟩

/-- The square root. -/
def sqrt (a : Binary32) : Binary32 := ofBinary64 a.widen.sqrt

def lt (a b : Binary32) : Bool := a.widen.lt b.widen

def le (a b : Binary32) : Bool := a.widen.le b.widen

/-- Numerical equality, which identifies the two zeros. -/
def equals (a b : Binary32) : Bool := a.widen.equals b.widen

def min (a b : Binary32) : Binary32 := lift Binary64.min a b

def max (a b : Binary32) : Binary32 := lift Binary64.max a b

/-- Neither infinite nor not a number. -/
def isFinite (x : Binary32) : Bool := decide (x.magnitude < infinityMagnitude)

/-- Finite and above zero. -/
def isPositive (x : Binary32) : Bool := x.isFinite && zero.lt x

/-- The two patterns are equal as numbers or at most `steps` numbers of one sign apart. -/
def near (a b : Binary32) (steps : Nat) : Bool :=
  a.equals b ||
    (a.isNegative == b.isNegative &&
      decide ((a.magnitude : Int) - b.magnitude ≤ steps ∧ (b.magnitude : Int) - a.magnitude ≤ steps))

/-- The number brought into the range from zero to one; what is not finite becomes zero, and so
does the negative zero. -/
def clampUnit (x : Binary32) : Binary32 :=
  if !x.isFinite then zero else if x.le zero then zero else if one.lt x then one else x

end Binary32

/-- The value nearest to `x` among those of 32 bits. -/
def Binary64.round32 (x : Binary64) : Binary64 := (Binary32.ofBinary64 x).widen

/-- Stored precision of coordinates. -/
inductive FloatWidth
  | binary32 | binary64
  deriving DecidableEq, Inhabited

/-- Round to the precision a width stores. -/
def FloatWidth.round : FloatWidth → Binary64 → Binary64
  | .binary32, x => x.round32
  | .binary64, x => x

end VectorImage
