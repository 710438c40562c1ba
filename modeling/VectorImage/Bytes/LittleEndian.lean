import VectorImage.Number.Rounding

/-!
Naturals as bytes, least significant first: as a fixed number of bytes, or in base 128, where every
byte but the last has its high bit set. What was written is read back, in base 128 whatever follows
it.
-/

set_option autoImplicit false
set_option relaxedAutoImplicit false

namespace VectorImage

namespace LittleEndian

/-- The low `k` bytes of a natural. -/
def write : (k n : Nat) → List UInt8
  | 0, _ => []
  | k + 1, n => UInt8.ofNat n :: write k (n / 256)

/-- The natural that a list of bytes writes. -/
def read : List UInt8 → Nat
  | [] => 0
  | b :: rest => b.toNat + 256 * read rest

theorem length_write (k n : Nat) : (write k n).length = k := by
  induction k generalizing n with
  | zero => rfl
  | succ k ih => simp [write, ih]

theorem read_write {k n : Nat} (h : n < 256 ^ k) : read (write k n) = n := by
  induction k generalizing n with
  | zero =>
    simp only [Nat.pow_zero, Nat.lt_one_iff] at h
    rw [h]
    rfl
  | succ k ih =>
    have hq : n / 256 < 256 ^ k := by
      rw [Nat.pow_succ] at h
      exact Nat.div_lt_of_lt_mul (by omega)
    simp only [write, read, ih hq, UInt8.toNat_ofNat']
    omega

end LittleEndian

namespace Varint

def write (n : Nat) : List UInt8 :=
  if n < 128 then [UInt8.ofNat n] else UInt8.ofNat (n % 128 + 128) :: write (n / 128)
termination_by n

/-- The natural written at the front of a list of bytes, and the bytes after it. -/
def decode : List UInt8 → Option (Nat × List UInt8)
  | [] => none
  | b :: rest =>
    if b.toNat < 128 then some (b.toNat, rest)
    else (decode rest).map fun p => (b.toNat - 128 + 128 * p.1, p.2)

theorem decode_write (n : Nat) (rest : List UInt8) : decode (write n ++ rest) = some (n, rest) := by
  induction n using Nat.strongRecOn with
  | ind n ih =>
    rw [write]
    split
    · next h =>
      have : n % 256 = n := Nat.mod_eq_of_lt (by omega)
      simp [decode, UInt8.toNat_ofNat', this, h]
    · next h =>
      have hb : (UInt8.ofNat (n % 128 + 128)).toNat = n % 128 + 128 := by
        rw [UInt8.toNat_ofNat']
        omega
      simp only [List.cons_append, decode, hb, ih (n / 128) (by omega), Option.map_some]
      have : ¬ n % 128 + 128 < 128 := by omega
      simp only [this, if_false]
      congr 2
      omega

end Varint

end VectorImage
