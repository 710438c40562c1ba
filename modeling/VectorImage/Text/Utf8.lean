import VectorImage.Error

/-!
UTF-8: the bytes of a text, and the text of bytes. Decoding refuses the first byte that no
character can continue with, and says where the valid part ends and how long the bad part is; a
character cut off by the end has no length.
-/

set_option autoImplicit false
set_option relaxedAutoImplicit false

namespace VectorImage

namespace Utf8

/-- The bytes of one character. -/
def encodeChar (c : Char) : List UInt8 :=
  let n := c.toNat
  if n < 0x80 then [UInt8.ofNat n]
  else if n < 0x800 then [UInt8.ofNat (0xc0 + n / 64), UInt8.ofNat (0x80 + n % 64)]
  else if n < 0x10000 then
    [UInt8.ofNat (0xe0 + n / 4096), UInt8.ofNat (0x80 + n / 64 % 64), UInt8.ofNat (0x80 + n % 64)]
  else
    [UInt8.ofNat (0xf0 + n / 262144), UInt8.ofNat (0x80 + n / 4096 % 64),
      UInt8.ofNat (0x80 + n / 64 % 64), UInt8.ofNat (0x80 + n % 64)]

def encodeList (cs : List Char) : List UInt8 := cs.flatMap encodeChar

def encode (s : String) : List UInt8 := encodeList s.toList

/-- What the first byte of a character of several bytes announces: the value of its own bits,
and for each byte to follow the least and greatest it may be. -/
def lead (b : Nat) : Option (Nat × List (Nat × Nat)) :=
  let tail := (0x80, 0xbf)
  if 0xc2 ≤ b ∧ b ≤ 0xdf then some (b - 0xc0, [tail])
  else if b = 0xe0 then some (0, [(0xa0, 0xbf), tail])
  else if 0xe1 ≤ b ∧ b ≤ 0xec then some (b - 0xe0, [tail, tail])
  else if b = 0xed then some (b - 0xe0, [(0x80, 0x9f), tail])
  else if b = 0xee ∨ b = 0xef then some (b - 0xe0, [tail, tail])
  else if b = 0xf0 then some (0, [(0x90, 0xbf), tail, tail])
  else if 0xf1 ≤ b ∧ b ≤ 0xf3 then some (b - 0xf0, [tail, tail, tail])
  else if b = 0xf4 then some (b - 0xf0, [(0x80, 0x8f), tail, tail])
  else none

/-- Follow the announced bytes; `read` counts those of the character so far. A failure carries
the length of the bad part. -/
def follow : List (Nat × Nat) → (value read : Nat) → List UInt8 →
    Except (Option Nat) (Nat × Nat × List UInt8)
  | [], value, read, rest => .ok (value, read, rest)
  | _ :: _, _, _, [] => .error none
  | (low, high) :: ranges, value, read, b :: rest =>
    if low ≤ b.toNat ∧ b.toNat ≤ high then follow ranges (value * 64 + b.toNat % 64) (read + 1) rest
    else .error (some read)

theorem length_follow {ranges : List (Nat × Nat)} {value read : Nat} {bytes rest : List UInt8}
    {v r : Nat} (h : follow ranges value read bytes = .ok (v, r, rest)) :
    rest.length ≤ bytes.length := by
  induction ranges generalizing value read bytes with
  | nil =>
    simp only [follow, Except.ok.injEq, Prod.mk.injEq] at h
    exact Nat.le_of_eq (congrArg List.length h.2.2.symm)
  | cons range ranges ih =>
    cases bytes with
    | nil => simp [follow] at h
    | cons b bytes =>
      simp only [follow] at h
      split at h
      · exact Nat.le_succ_of_le (ih h)
      · cases h

/-- Decode the bytes from `offset` on. -/
def decodeFrom (offset : Nat) (bytes : List UInt8) : Except Utf8Fault (List Char) :=
  match bytes with
  | [] => .ok []
  | b :: rest =>
    if b.toNat < 0x80 then (decodeFrom (offset + 1) rest).map (Char.ofNat b.toNat :: ·)
    else
      match lead b.toNat with
      | none => .error ⟨offset, some 1⟩
      | some (value, ranges) =>
        match _h : follow ranges value 1 rest with
        | .error length => .error ⟨offset, length⟩
        | .ok (value, read, rest') =>
          (decodeFrom (offset + read) rest').map (Char.ofNat value :: ·)
termination_by bytes.length
decreasing_by
  · simp
  · have := length_follow _h
    simp only [List.length_cons]
    omega

/-- The characters that the bytes write. -/
def decodeList (bytes : List UInt8) : Except Utf8Fault (List Char) := decodeFrom 0 bytes

/-- The text that the bytes write. -/
def decode (bytes : List UInt8) : Except Utf8Fault String := (decodeList bytes).map String.ofList

end Utf8

end VectorImage
