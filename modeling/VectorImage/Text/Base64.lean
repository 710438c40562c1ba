/-!
Base64 text as bytes. Blanks are passed over; the padding may be left out, but where there is
some it must fill the last group of four; bits beyond the last whole byte are dropped.
-/

set_option autoImplicit false
set_option relaxedAutoImplicit false

namespace VectorImage

namespace Base64

/-- The value of a base64 digit. -/
def digit? (c : Char) : Option Nat :=
  if 'A' ≤ c ∧ c ≤ 'Z' then some (c.toNat - 'A'.toNat)
  else if 'a' ≤ c ∧ c ≤ 'z' then some (c.toNat - 'a'.toNat + 26)
  else if '0' ≤ c ∧ c ≤ '9' then some (c.toNat - '0'.toNat + 52)
  else if c = '+' then some 62
  else if c = '/' then some 63
  else none

/-- Blanks that may stand anywhere. -/
def isBlank (c : Char) : Bool :=
  c = ' ' || c = '\t' || c = '\n' || c = '\x0c' || c = '\r'

/-- The bytes of digits in groups of four; the last group has two or three, or is complete. -/
def groups : List Nat → Option (List UInt8)
  | [] => some []
  | [_] => none
  | [a, b] => some [UInt8.ofNat (a * 4 + b / 16)]
  | [a, b, c] => some [UInt8.ofNat (a * 4 + b / 16), UInt8.ofNat (b * 16 + c / 4)]
  | a :: b :: c :: d :: rest =>
    (groups rest).map fun bytes =>
      UInt8.ofNat (a * 4 + b / 16) :: UInt8.ofNat (b * 16 + c / 4) ::
        UInt8.ofNat (c * 64 + d) :: bytes

/-- The bytes that a text encodes. -/
def decode? (text : List Char) : Option (List UInt8) := do
  let text := text.filter fun c => !isBlank c
  let digits := text.takeWhile (· != '=')
  let padding := text.drop digits.length
  if !padding.all (· == '=') then none
  if !padding.isEmpty && (padding.length > 2 || (digits.length + padding.length) % 4 != 0) then none
  groups (← digits.mapM digit?)

end Base64

end VectorImage
