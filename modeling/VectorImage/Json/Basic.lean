import VectorImage.Number.Decimal

/-!
JSON values as they are written: a number keeps its digits, and a string in which an escape
stands for no character has no text.

What a number stands for: as a count it must be a natural of 64 bits, written without a
point or an exponent. As a 64-bit binary number it is read in one scaling step: as many leading
digits as fit 64 bits make a significand, the digits left out only count, and the significand is
multiplied or divided by a power of ten. A number beyond the finite range is refused.
-/

set_option autoImplicit false
set_option relaxedAutoImplicit false

namespace VectorImage

/-- A written number: sign, digits, the digits after a point and the exponent, where given. -/
structure Numeral where
  negative : Bool
  whole : List Char
  fraction : Option (List Char)
  exponent : Option (Bool × List Char)
  deriving DecidableEq, Inhabited

inductive Json
  | null
  | bool (b : Bool)
  | number (n : Numeral)
  | string (text : Option String)
  | array (items : List Json)
  | object (fields : List (Option String × Json))
  deriving Inhabited

namespace Numeral

/-- Append digits to a significand for as long as it fits 64 bits; also the number of digits
left out. -/
def significandFrom (s : Nat) : List Char → Nat × Nat
  | [] => (s, 0)
  | c :: cs =>
    let next := 10 * s + (digit? c).getD 0
    if next < 2 ^ 64 then significandFrom next cs else (s, cs.length + 1)

/-- The significand and its power of ten, the exponent's included. -/
def scaled (n : Numeral) : Nat × Int :=
  let (s, dropped) := significandFrom 0 n.whole
  let fraction := n.fraction.getD []
  let (s, unread) := significandFrom s fraction
  let exponent : Int := match n.exponent with
    | none => 0
    | some (negative, ds) => if negative then -(digitsToNat ds : Int) else digitsToNat ds
  (s, (dropped : Int) - ((fraction.length : Int) - unread) + exponent)

/-- The largest power of ten that is scaled by in one step. -/
def maxPower : Nat := 308

def powerOfTen (k : Nat) : Binary64 := .ofDecimal false 1 k

/-- Divide by powers of ten until nothing is left of `x` or of the exponent. -/
def scaleDown (x : Binary64) (k : Nat) : Binary64 :=
  if _h : k ≤ maxPower then x / powerOfTen k
  else if x.equals .zero then x
  else scaleDown (x / powerOfTen maxPower) (k - maxPower)
termination_by k
decreasing_by simp only [maxPower] at *; omega

/-- The significand times a power of ten, unless it leaves the finite range. -/
def scale? (s : Nat) (exponent : Int) : Option Binary64 :=
  let x := Binary64.ofNat s
  if exponent < 0 then some (scaleDown x exponent.natAbs)
  else if s = 0 then some .zero
  else if exponent.natAbs ≤ maxPower then
    let y := x * powerOfTen exponent.natAbs
    if y.isInfinite then none else some y
  else none

/-- The number as a 64-bit binary number. -/
def toBinary64? (n : Numeral) : Option Binary64 :=
  let (s, exponent) := n.scaled
  (scale? s exponent).map fun x => if n.negative then -x else x

/-- The number as a natural of 64 bits. -/
def toUInt64? (n : Numeral) : Option UInt64 :=
  if n.negative || n.fraction.isSome || n.exponent.isSome then none
  else
    let v := digitsToNat n.whole
    if v < 2 ^ 64 then some (UInt64.ofNat v) else none

end Numeral

end VectorImage
