import VectorImage.Error
import VectorImage.Number.Rounding

/-!
Tables addressed by 32-bit indices. A look-up beyond the end names the table and the index; a
table holds at most `2 ^ 32` entries.
-/

set_option autoImplicit false
set_option relaxedAutoImplicit false

namespace VectorImage

/-- The entry an index stands for. -/
def lookup {α : Type} (table : Array α) (kind : TableKind) (index : UInt32) : Except Error α :=
  match table[index.toNat]? with
  | some v => .ok v
  | none => .error (.structural (.missing kind index))

/-- An index is in range when it is below the table's length. -/
def checkIndex (kind : TableKind) (index : UInt32) (length : Nat) : Except Error Unit :=
  if index.toNat < length then .ok () else .error (.structural (.missing kind index))

/-- The index of the next entry of a table of `n` entries. -/
def nextIndex (n : Nat) : Except Error UInt32 :=
  if n < 2 ^ 32 then .ok (UInt32.ofNat n) else .error (.other .indexOverflow)

theorem lookup_eq_ok_iff {α : Type} {table : Array α} {kind : TableKind} {index : UInt32} {v : α} :
    lookup table kind index = .ok v ↔ table[index.toNat]? = some v := by
  unfold lookup
  cases table[index.toNat]? with
  | none => simp
  | some w => simp

theorem nextIndex_eq_ok {n : Nat} (h : n < 2 ^ 32) : nextIndex n = .ok (UInt32.ofNat n) := by
  rw [nextIndex, if_pos h]

end VectorImage
