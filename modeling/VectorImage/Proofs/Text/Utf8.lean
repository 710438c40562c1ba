import VectorImage.Text.Utf8

/-!
Texts are read back from their bytes. A character is decoded by the announcement in its first
byte and the six bits that every further byte adds; reading what was written gives the same
characters, so that texts with the same bytes are the same.
-/

set_option autoImplicit false
set_option relaxedAutoImplicit false

namespace VectorImage

namespace Utf8

private theorem toNat_ofNat {n : Nat} (h : n < 256) : (UInt8.ofNat n).toNat = n := by
  rw [UInt8.toNat_ofNat']
  exact Nat.mod_eq_of_lt h

/-- A continuation byte within its range adds six bits. -/
private theorem follow_cons {low high value read n : Nat} {ranges : List (Nat × Nat)}
    {rest : List UInt8} (hn : n < 256) (hlow : low ≤ n) (hhigh : n ≤ high) :
    follow ((low, high) :: ranges) value read (UInt8.ofNat n :: rest) =
      follow ranges (value * 64 + n % 64) (read + 1) rest := by
  rw [follow, toNat_ofNat hn, if_pos ⟨hlow, hhigh⟩]

/-- A character of several bytes, given what its first byte announces. -/
private theorem decodeFrom_lead {offset : Nat} {b : UInt8} {rest rest' : List UInt8}
    {n read : Nat} (value : Nat) (ranges : List (Nat × Nat)) (hb : ¬ b.toNat < 0x80)
    (hlead : lead b.toNat = some (value, ranges))
    (hfollow : follow ranges value 1 rest = .ok (n, read, rest')) :
    decodeFrom offset (b :: rest) =
      (decodeFrom (offset + read) rest').map (Char.ofNat n :: ·) := by
  rw [decodeFrom]
  simp only [hb, if_false, hlead]
  split
  · next h =>
    rw [hfollow] at h
    cases h
  · next h =>
    rw [hfollow] at h
    cases h
    rfl

private theorem decodeFrom_two {offset n : Nat} {rest : List UInt8} (hlow : 0x80 ≤ n)
    (hhigh : n < 0x800) :
    decodeFrom offset (UInt8.ofNat (0xc0 + n / 64) :: UInt8.ofNat (0x80 + n % 64) :: rest) =
      (decodeFrom (offset + 2) rest).map (Char.ofNat n :: ·) := by
  have hfirst : (UInt8.ofNat (0xc0 + n / 64)).toNat = 0xc0 + n / 64 := toNat_ofNat (by omega)
  refine decodeFrom_lead (n / 64) [(0x80, 0xbf)] (by omega) ?_ ?_
  · rw [hfirst, lead, if_pos (by omega)]
    simp only [Nat.add_sub_cancel_left]
  · rw [follow_cons (by omega) (by omega) (by omega), follow]
    congr 2
    omega

/-- What the first of three bytes announces, for a character that is no half of a pair. -/
private theorem lead_three {n : Nat} (hlow : 0x800 ≤ n) (hhigh : n < 0x10000)
    (hpair : n < 0xd800 ∨ 0xdfff < n) :
    ∃ low high, lead (0xe0 + n / 4096) = some (n / 4096, [(low, high), (0x80, 0xbf)]) ∧
      low ≤ 0x80 + n / 64 % 64 ∧ 0x80 + n / 64 % 64 ≤ high := by
  unfold lead
  rw [if_neg (by omega)]
  by_cases hzero : n / 4096 = 0
  · exact ⟨0xa0, 0xbf, by simp [hzero], by omega, by omega⟩
  · rw [if_neg (by omega)]
    by_cases hmiddle : n / 4096 ≤ 12
    · exact ⟨0x80, 0xbf, by rw [if_pos (by omega)]; simp, by omega, by omega⟩
    · rw [if_neg (by omega)]
      by_cases hsurrogate : n / 4096 = 13
      · exact ⟨0x80, 0x9f, by rw [if_pos (by omega)]; simp [hsurrogate], by omega, by omega⟩
      · rw [if_neg (by omega), if_pos (by omega)]
        exact ⟨0x80, 0xbf, by simp, by omega, by omega⟩

private theorem decodeFrom_three {offset n : Nat} {rest : List UInt8} (hlow : 0x800 ≤ n)
    (hhigh : n < 0x10000) (hpair : n < 0xd800 ∨ 0xdfff < n) :
    decodeFrom offset (UInt8.ofNat (0xe0 + n / 4096) :: UInt8.ofNat (0x80 + n / 64 % 64) ::
        UInt8.ofNat (0x80 + n % 64) :: rest) =
      (decodeFrom (offset + 3) rest).map (Char.ofNat n :: ·) := by
  have hfirst : (UInt8.ofNat (0xe0 + n / 4096)).toNat = 0xe0 + n / 4096 := toNat_ofNat (by omega)
  obtain ⟨low, high, hlead, hl, hh⟩ := lead_three hlow hhigh hpair
  refine decodeFrom_lead (n / 4096) [(low, high), (0x80, 0xbf)] (by omega)
    (by rw [hfirst, hlead]) ?_
  rw [follow_cons (by omega) hl hh, follow_cons (by omega) (by omega) (by omega), follow]
  congr 2
  omega

private theorem lead_four {n : Nat} (hlow : 0x10000 ≤ n) (hhigh : n < 0x110000) :
    ∃ low high, lead (0xf0 + n / 262144) =
        some (n / 262144, [(low, high), (0x80, 0xbf), (0x80, 0xbf)]) ∧
      low ≤ 0x80 + n / 4096 % 64 ∧ 0x80 + n / 4096 % 64 ≤ high := by
  unfold lead
  rw [if_neg (by omega), if_neg (by omega), if_neg (by omega), if_neg (by omega),
    if_neg (by omega)]
  by_cases hzero : n / 262144 = 0
  · exact ⟨0x90, 0xbf, by simp [hzero], by omega, by omega⟩
  · rw [if_neg (by omega)]
    by_cases hmiddle : n / 262144 ≤ 3
    · exact ⟨0x80, 0xbf, by rw [if_pos (by omega)]; simp, by omega, by omega⟩
    · rw [if_neg (by omega), if_pos (by omega)]
      exact ⟨0x80, 0x8f, by simp, by omega, by omega⟩

private theorem decodeFrom_four {offset n : Nat} {rest : List UInt8} (hlow : 0x10000 ≤ n)
    (hhigh : n < 0x110000) :
    decodeFrom offset (UInt8.ofNat (0xf0 + n / 262144) :: UInt8.ofNat (0x80 + n / 4096 % 64) ::
        UInt8.ofNat (0x80 + n / 64 % 64) :: UInt8.ofNat (0x80 + n % 64) :: rest) =
      (decodeFrom (offset + 4) rest).map (Char.ofNat n :: ·) := by
  have hfirst : (UInt8.ofNat (0xf0 + n / 262144)).toNat = 0xf0 + n / 262144 :=
    toNat_ofNat (by omega)
  obtain ⟨low, high, hlead, hl, hh⟩ := lead_four hlow hhigh
  refine decodeFrom_lead (n / 262144) [(low, high), (0x80, 0xbf), (0x80, 0xbf)] (by omega) (by rw [hfirst, hlead]) ?_
  rw [follow_cons (by omega) hl hh, follow_cons (by omega) (by omega) (by omega),
    follow_cons (by omega) (by omega) (by omega), follow]
  congr 2
  omega

theorem decodeFrom_encodeChar (offset : Nat) (c : Char) (rest : List UInt8) :
    decodeFrom offset (encodeChar c ++ rest) =
      (decodeFrom (offset + (encodeChar c).length) rest).map (c :: ·) := by
  have hvalid : c.toNat < 0xd800 ∨ 0xdfff < c.toNat ∧ c.toNat < 0x110000 := c.valid
  have hc : Char.ofNat c.toNat = c := Char.ofNat_toNat c
  unfold encodeChar
  dsimp only
  split
  · next h =>
    have hb : (UInt8.ofNat c.toNat).toNat = c.toNat := toNat_ofNat (by omega)
    rw [List.cons_append, List.nil_append, decodeFrom, hb, if_pos h, hc]
    rfl
  · split
    · rw [List.cons_append, List.cons_append, List.nil_append,
        decodeFrom_two (by omega) (by omega), hc]
      rfl
    · split
      · rw [List.cons_append, List.cons_append, List.cons_append, List.nil_append,
          decodeFrom_three (by omega) (by omega) (by omega), hc]
        rfl
      · rw [List.cons_append, List.cons_append, List.cons_append, List.cons_append,
          List.nil_append, decodeFrom_four (by omega) (by omega), hc]
        rfl

theorem decodeFrom_encodeList (offset : Nat) (cs : List Char) :
    decodeFrom offset (encodeList cs) = .ok cs := by
  induction cs generalizing offset with
  | nil =>
    rw [encodeList, List.flatMap_nil, decodeFrom]
  | cons c cs ih =>
    rw [encodeList, List.flatMap_cons, decodeFrom_encodeChar, ← encodeList, ih]
    rfl

/-- A text is read back from its bytes. -/
theorem decode_encode (s : String) : decode (encode s) = .ok s := by
  rw [decode, decodeList, encode, decodeFrom_encodeList]
  exact congrArg Except.ok String.ofList_toList

theorem encode_injective {s t : String} (h : encode s = encode t) : s = t := by
  have hs := decode_encode s
  rw [h, decode_encode t] at hs
  exact (Except.ok.inj hs).symm

end Utf8

end VectorImage
