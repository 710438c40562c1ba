import VectorImage.Number.Rounding

/-!
Numbers of 64 bits in the binary interchange format, carried as their bit patterns, so that the
two zeros and the payloads of the not-a-number patterns are told apart wherever bits matter: in
keys, in stored bytes, in sharing. The order is read off the patterns. Arithmetic rounds to
nearest; an operand that is not a number is handed on, quieted.
-/

set_option autoImplicit false
set_option relaxedAutoImplicit false

namespace VectorImage

/-- A 64-bit binary number, given by its bit pattern. Equality is equality of bits. -/
structure Binary64 where
  bits : UInt64
  deriving DecidableEq, Hashable, Inhabited

namespace Binary64

/-- The pattern without its sign bit. -/
def magnitude (x : Binary64) : Nat := x.bits.toNat % 2 ^ 63

/-- The sign bit is set. -/
def isNegative (x : Binary64) : Bool := decide (2 ^ 63 ≤ x.bits.toNat)

/-- The pattern of the positive infinity; larger magnitudes are not numbers. -/
def infinityMagnitude : Nat := 0x7ff0000000000000

def isNaN (x : Binary64) : Bool := decide (infinityMagnitude < x.magnitude)

def isInfinite (x : Binary64) : Bool := decide (x.magnitude = infinityMagnitude)

/-- The number with the given sign and magnitude pattern. -/
def ofMagnitude (negative : Bool) (magnitude : Nat) : Binary64 :=
  ⟨UInt64.ofNat (if negative then 2 ^ 63 + magnitude else magnitude)⟩

def zero : Binary64 := ⟨0⟩

def one : Binary64 := ⟨0x3ff0000000000000⟩

def infinity : Binary64 := ⟨0x7ff0000000000000⟩

/-- The pattern that stands for "not a number" in written input. -/
def nan : Binary64 := ⟨0x7ff8000000000000⟩

/-- The pattern an invalid operation on numbers gives. -/
def indefinite : Binary64 := ⟨0xfff8000000000000⟩

/-- A not-a-number pattern with its quiet bit set. -/
def quiet (x : Binary64) : Binary64 := ⟨x.bits ||| 0x0008000000000000⟩

/-- Patterns of numbers are ordered by this key, which identifies the two zeros. -/
def order (x : Binary64) : Int :=
  if x.isNegative then -(x.magnitude : Int) else x.magnitude

/-- The order of numbers; nothing compares to a pattern that is not a number. -/
def le (a b : Binary64) : Bool := !a.isNaN && !b.isNaN && decide (a.order ≤ b.order)

def lt (a b : Binary64) : Bool := !a.isNaN && !b.isNaN && decide (a.order < b.order)

/-- Numerical equality, which identifies the two zeros. -/
def equals (a b : Binary64) : Bool := !a.isNaN && !b.isNaN && decide (a.order = b.order)

/-- The lesser operand; an operand that is not a number gives way to the other. -/
def min (a b : Binary64) : Binary64 :=
  if a.isNaN then b else if b.isNaN then a else if b.order < a.order then b else a

/-- The greater operand; an operand that is not a number gives way to the other. -/
def max (a b : Binary64) : Binary64 :=
  if a.isNaN then b else if b.isNaN then a else if a.order < b.order then b else a

/-- The result of an operation whose operands are numbers. -/
private def ofResult (r : Float) : Binary64 :=
  let x : Binary64 := ⟨r.toBits⟩
  if x.isNaN then indefinite else x

/-- Apply a rounded operation; the first operand that is not a number is the result, quieted. -/
private def arithmetic (f : Float → Float → Float) (a b : Binary64) : Binary64 :=
  if a.isNaN then a.quiet
  else if b.isNaN then b.quiet
  else ofResult (f (Float.ofBits a.bits) (Float.ofBits b.bits))

def add (a b : Binary64) : Binary64 := arithmetic Float.add a b

def sub (a b : Binary64) : Binary64 := arithmetic Float.sub a b

def mul (a b : Binary64) : Binary64 := arithmetic Float.mul a b

def div (a b : Binary64) : Binary64 := arithmetic Float.div a b

/-- The square root. -/
def sqrt (a : Binary64) : Binary64 :=
  if a.isNaN then a.quiet else ofResult (Float.sqrt (Float.ofBits a.bits))

/-- Flip the sign bit. -/
def neg (a : Binary64) : Binary64 := ⟨a.bits ^^^ 0x8000000000000000⟩

/-- Clear the sign bit. -/
def abs (a : Binary64) : Binary64 := ⟨a.bits &&& 0x7fffffffffffffff⟩

instance : Add Binary64 := ⟨add⟩
instance : Sub Binary64 := ⟨sub⟩
instance : Mul Binary64 := ⟨mul⟩
instance : Div Binary64 := ⟨div⟩
instance : Neg Binary64 := ⟨neg⟩

/-- The number nearest to `num / den`, ties to even, with the given sign. The significand is
rounded at the exponent that leaves it 53 digits, or at the least exponent. -/
def ofRatio (negative : Bool) (num den : Nat) : Binary64 :=
  if num = 0 then ofMagnitude negative 0
  else
    let scaled (e : Int) : Nat × Nat := (num * 2 ^ (-e).toNat, den * 2 ^ e.toNat)
    let guess : Int := (num.log2 : Int) - den.log2 - 52
    let exponent : Int :=
      if (scaled guess).1 / (scaled guess).2 < 2 ^ 52 then guess - 1 else guess
    let exponent : Int := if exponent < -1074 then -1074 else exponent
    let significand := roundDiv (scaled exponent).1 (scaled exponent).2
    let pattern := (exponent + 1074).toNat * 2 ^ 52 + significand
    ofMagnitude negative (if infinityMagnitude ≤ pattern then infinityMagnitude else pattern)

/-- The number nearest to a natural. -/
def ofNat (n : Nat) : Binary64 := ofRatio false n 1

/-- The number nearest to an integer. -/
def ofInt (n : Int) : Binary64 := ofRatio (decide (n < 0)) n.natAbs 1

/-- Replace the negative zero by the positive one. -/
def unsignZero (x : Binary64) : Binary64 := if x.magnitude = 0 then zero else x

/-- The value as an integer, if it is one of magnitude at most `2 ^ 53` and not the negative
zero. -/
def toInt? (x : Binary64) : Option Int :=
  let field := x.magnitude / 2 ^ 52
  let fraction := x.magnitude % 2 ^ 52
  let signed (n : Nat) : Int := if x.isNegative then -(n : Int) else n
  if x.magnitude = 0 then (if x.isNegative then none else some 0)
  else if field = 0 then none
  else
    let significand := 2 ^ 52 + fraction
    if field ≤ 1075 then
      let unit := 2 ^ (1075 - field)
      if field < 1023 then none
      else if significand % unit = 0 then some (signed (significand / unit)) else none
    else if field = 1076 && fraction = 0 then some (signed (2 * significand))
    else none

/-- One half. -/
def half : Binary64 := ⟨0x3fe0000000000000⟩

/-- The whole number from 0 to 255 that is nearest, halves going up: it counts the midpoints of
neighbours that do not lie above `x`. -/
def toByte (x : Binary64) : UInt8 :=
  UInt8.ofNat ((List.range 255).countP fun n => (ofNat n + half).le x)

theorem ext_bits {a b : Binary64} (h : a.bits = b.bits) : a = b := by
  cases a; cases b; simpa using h

theorem le_refl {a : Binary64} (h : a.isNaN = false) : a.le a = true := by
  simp [le, h]

theorem le_trans {a b c : Binary64} (hab : a.le b = true) (hbc : b.le c = true) :
    a.le c = true := by
  simp only [le, Bool.and_eq_true, decide_eq_true_eq] at *
  exact ⟨⟨hab.1.1, hbc.1.2⟩, Int.le_trans hab.2 hbc.2⟩

theorem min_of_isNaN_left {a b : Binary64} (h : a.isNaN = true) : min a b = b := by
  simp [min, h]

theorem max_of_isNaN_left {a b : Binary64} (h : a.isNaN = true) : max a b = b := by
  simp [max, h]

end Binary64

end VectorImage
