/-!
White space in the sense of Unicode, and texts without it at their ends.
-/

set_option autoImplicit false
set_option relaxedAutoImplicit false

namespace VectorImage

namespace White

/-- The white space characters, as closed ranges of code points. -/
def ranges : List (Nat × Nat) :=
  [(0x9, 0xd), (0x20, 0x20), (0x85, 0x85), (0xa0, 0xa0), (0x1680, 0x1680), (0x2000, 0x200a),
    (0x2028, 0x2029), (0x202f, 0x202f), (0x205f, 0x205f), (0x3000, 0x3000)]

def isWhite (c : Char) : Bool := ranges.any fun r => r.1 ≤ c.toNat && c.toNat ≤ r.2

def trimEnd (text : List Char) : List Char := (text.reverse.dropWhile isWhite).reverse

/-- The text without white space at either end. -/
def trim (text : List Char) : List Char := trimEnd (text.dropWhile isWhite)

example (c : Char) (h : c = ' ' ∨ c = '\t' ∨ c = '\n' ∨ c = '\r') : isWhite c = true := by
  rcases h with rfl | rfl | rfl | rfl <;> decide

end White

end VectorImage
