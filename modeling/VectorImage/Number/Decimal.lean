import VectorImage.Number.Binary64

/-!
Decimal numerals: a natural number of digits scaled by a power of ten, read as the nearest
binary number. Scales far outside the format's range are decided by the digit count, so that a
numeral with a huge exponent costs nothing.
-/

set_option autoImplicit false
set_option relaxedAutoImplicit false

namespace VectorImage

/-- The value of a decimal digit. -/
def digit? (c : Char) : Option Nat :=
  if '0' ≤ c ∧ c ≤ '9' then some (c.toNat - '0'.toNat) else none

def isDigit (c : Char) : Bool := (digit? c).isSome

/-- The value of a hexadecimal digit. -/
def hexDigit? (c : Char) : Option Nat :=
  if isDigit c then digit? c
  else if 'a' ≤ c ∧ c ≤ 'f' then some (c.toNat - 'a'.toNat + 10)
  else if 'A' ≤ c ∧ c ≤ 'F' then some (c.toNat - 'A'.toNat + 10)
  else none

/-- The natural written by a list of decimal digits. -/
def digitsToNat (cs : List Char) : Nat :=
  cs.foldl (fun n c => 10 * n + (digit? c).getD 0) 0

/-- The number nearest to `digits * 10 ^ exponent`, ties to even, with the given sign. A scale
above 400 overflows whatever the digits; one so low that `2 ^ (log2 digits + 1) * 8 ^ exponent`
is below `2 ^ -1100` leaves nothing. -/
def Binary64.ofDecimal (negative : Bool) (digits : Nat) (exponent : Int) : Binary64 :=
  if digits = 0 then ofMagnitude negative 0
  else if 400 < exponent then ofMagnitude negative infinityMagnitude
  else if (digits.log2 : Int) + 1 + 3 * exponent < -1100 then ofMagnitude negative 0
  else if 0 ≤ exponent then ofRatio negative (digits * 10 ^ exponent.toNat) 1
  else ofRatio negative digits (10 ^ (-exponent).toNat)

end VectorImage
