import Mathlib.Data.Nat.Digits.Defs
import VectorImage.Compact.Encoding
import VectorImage.Proofs.Input.Reading

/-!
Numbers in base 128. The reader takes the bytes up to the first whose high bit is clear, five at
most, and reads the number they spell where 32 bits hold it; the writer spells every number so.
-/

set_option autoImplicit false
set_option relaxedAutoImplicit false

namespace VectorImage

namespace Compact

/-- The high bit is clear: the number ends here. -/
def isLast (b : UInt8) : Bool := b &&& 0x80 = 0

/-- The number that the low seven bits of bytes spell, least significant byte first. -/
def base128 (bytes : Bytes) : Nat := Nat.ofDigits 128 (bytes.map fun b => (b &&& 0x7f).toNat)

@[simp]
theorem base128_nil : base128 [] = 0 := rfl

@[simp]
theorem base128_cons (b : UInt8) (bytes : Bytes) :
    base128 (b :: bytes) = (b &&& 0x7f).toNat + 128 * base128 bytes := by
  simp [base128, Nat.ofDigits_cons]

/-! Masks and shifts as arithmetic. -/

theorem toNat_and_low (b : UInt8) : (b &&& 0x7f).toNat = b.toNat % 128 := by
  rw [UInt8.toNat_and]
  exact Nat.and_two_pow_sub_one_eq_mod b.toNat 7

theorem isLast_iff (b : UInt8) : isLast b = true ↔ b.toNat < 128 := by
  have hall : ∀ i : Fin 256, isLast (UInt8.ofFin i) = true ↔ i.val < 128 := by decide +kernel
  exact hall b.toFin

private theorem toNat_low_bits (b : UInt8) :
    (b.toUInt32 &&& 0x7f).toNat = (b &&& 0x7f).toNat := by
  rw [UInt32.toNat_and, UInt8.toNat_and, UInt8.toNat_toUInt32]
  rfl

/-- Bits put where the value has none yet. -/
private theorem toNat_or_shift {value bits shift : UInt32} (hshift : shift.toNat < 32)
    (hvalue : value.toNat < 2 ^ shift.toNat) (hfit : 2 ^ shift.toNat * bits.toNat < 2 ^ 32) :
    (value ||| bits <<< shift).toNat = value.toNat + 2 ^ shift.toNat * bits.toNat := by
  rw [UInt32.toNat_or, UInt32.toNat_shiftLeft, Nat.mod_eq_of_lt hshift, Nat.shiftLeft_eq,
    Nat.mul_comm bits.toNat, Nat.mod_eq_of_lt hfit, Nat.or_comm,
    ← Nat.two_pow_add_eq_or_of_lt hvalue, Nat.add_comm]

private theorem toNat_add_seven {shift : UInt32} (h : shift.toNat ≤ 28) :
    (shift + 7).toNat = shift.toNat + 7 := by
  rw [UInt32.toNat_add, show (7 : UInt32).toNat = 7 from rfl]
  omega

/-- Only the fifth group of seven bits can reach past 32 bits. -/
private theorem placed_lt {bits shift : UInt32} (hshift : shift.toNat = 28 ∨ shift.toNat ≤ 21)
    (hsmall : bits.toNat < 128) (hover : ¬(shift = 28 ∧ 0x0f < bits)) :
    2 ^ shift.toNat * bits.toNat < 2 ^ 32 := by
  rcases hshift with hfifth | hearly
  · have hbits : bits.toNat ≤ 15 :=
      Nat.not_lt.mp fun h => hover ⟨UInt32.toNat_inj.mp hfifth, UInt32.lt_iff_toNat_lt.mpr h⟩
    rw [hfifth]
    omega
  · calc 2 ^ shift.toNat * bits.toNat ≤ 2 ^ 21 * bits.toNat :=
          Nat.mul_le_mul_right _ (Nat.pow_le_pow_right (by decide) hearly)
      _ < 2 ^ 32 := by omega

/-! A group of seven bits takes its place above the value: what the groups left may still add. -/

section Placed

variable {value place bits : Nat} (b : UInt8) (rest : Bytes) (k : Nat)

private theorem placed_more (hvalue : value < place) (hbits : bits < 128) :
    value + place * bits < place * 128 := by
  have hgroup : place * (bits + 1) ≤ place * 128 := Nat.mul_le_mul_left place hbits
  rw [Nat.mul_succ] at hgroup
  omega

private theorem base128_placed :
    value + place * base128 ((b :: rest).take (k + 1 + 1)) =
      value + place * (b &&& 0x7f).toNat + place * 128 * base128 (rest.take (k + 1)) := by
  rw [List.take_succ_cons, base128_cons, Nat.mul_add, Nat.mul_assoc, Nat.add_assoc]

/-- A fifth group above fifteen is too large, whatever else there is. -/
private theorem le_of_fifth (hlarge : 15 < (b &&& 0x7f).toNat) :
    2 ^ 32 ≤ value + 2 ^ 28 * base128 ((b :: rest).take (k + 1)) := by
  rw [List.take_succ_cons, base128_cons]
  omega

end Placed

/-! The reader. -/

theorem readByte_cons (offset : Nat) (b : UInt8) (rest : Bytes) :
    readByte.run ⟨offset, b :: rest⟩ = .ok (b, ⟨offset + 1, rest⟩) := by
  have hword : LittleEndian.read [b] = b.toNat := by simp [LittleEndian.read]
  show Except.ok (UInt8.ofNat (LittleEndian.read [b]), _) = _
  rw [hword, UInt8.ofNat_toNat]

theorem readByte_nil (offset : Nat) :
    readByte.run ⟨offset, []⟩ = .error (truncated 1 ⟨offset, []⟩) := rfl

private theorem readDigits_nil (groups : Nat) (shift value : UInt32) (offset : Nat) :
    (readDigits (groups + 1) shift value).run ⟨offset, []⟩ =
      .error (truncated 1 ⟨offset, []⟩) := by
  rw [readDigits, Parser.run_bind, readByte_nil]

private theorem readDigits_cons (groups : Nat) (shift value : UInt32) (offset : Nat) (b : UInt8)
    (rest : Bytes) :
    (readDigits (groups + 1) shift value).run ⟨offset, b :: rest⟩ =
      if shift = 28 ∧ 0x0f < b.toUInt32 &&& 0x7f then .error (.format .varintOverflow)
      else if isLast b then
        .ok (value ||| (b.toUInt32 &&& 0x7f) <<< shift, ⟨offset + 1, rest⟩)
      else
        (readDigits groups (shift + 7) (value ||| (b.toUInt32 &&& 0x7f) <<< shift)).run
          ⟨offset + 1, rest⟩ := by
  rw [readDigits, Parser.run_bind, readByte_cons]
  by_cases hover : shift = 28 ∧ 0x0f < b.toUInt32 &&& 0x7f
  · simp only [if_pos hover]
    rfl
  · by_cases hlast : b &&& 0x80 = 0
    · simp [if_neg hover, isLast, hlast, Parser.run_pure]
    · simp [if_neg hover, isLast, hlast]

/-- With `groups` left, the reader succeeds when the number ends within them and fits. -/
private theorem readDigits_eq_ok {groups : Nat} {shift value v : UInt32} {offset : Nat}
    {bytes : Bytes} {j : Input UInt8} (hgroups : groups ≤ 5)
    (hshift : shift.toNat = 7 * (5 - groups)) (hvalue : value.toNat < 2 ^ shift.toNat) :
    (readDigits groups shift value).run ⟨offset, bytes⟩ = .ok (v, j) ↔
      ∃ k < groups, bytes.findIdx? isLast = some k ∧
        v.toNat = value.toNat + 2 ^ shift.toNat * base128 (bytes.take (k + 1)) ∧
        value.toNat + 2 ^ shift.toNat * base128 (bytes.take (k + 1)) < 2 ^ 32 ∧
        j = ⟨offset + (k + 1), bytes.drop (k + 1)⟩ := by
  induction groups generalizing shift value offset bytes with
  | zero =>
    refine iff_of_false (fun h => nomatch h) ?_
    rintro ⟨k, hk, -⟩
    exact absurd hk (Nat.not_lt_zero k)
  | succ groups ih =>
    cases bytes with
    | nil =>
      rw [readDigits_nil]
      refine iff_of_false (fun h => nomatch h) ?_
      rintro ⟨k, -, hfirst, -⟩
      cases hfirst
    | cons b rest =>
      rw [readDigits_cons]
      generalize hbits : b.toUInt32 &&& 0x7f = bits
      have hlow : (b &&& 0x7f).toNat = bits.toNat := by rw [← hbits, toNat_low_bits]
      have hsmall : bits.toNat < 128 := by
        rw [← hlow, toNat_and_low]
        exact Nat.mod_lt _ (by decide)
      split
      · next hover =>
        obtain ⟨rfl, hlarge⟩ := hover
        have hlarge : 15 < (b &&& 0x7f).toNat := hlow ▸ UInt32.lt_iff_toNat_lt.mp hlarge
        refine iff_of_false (fun h => nomatch h) ?_
        rintro ⟨k, -, -, -, hfit, -⟩
        exact absurd hfit (Nat.not_lt.mpr (le_of_fifth b rest k hlarge))
      · next hover =>
        have hsum := toNat_or_shift (by omega) hvalue (placed_lt (by omega) hsmall hover)
        split
        · next hlast =>
          have hspelled : base128 ((b :: rest).take (0 + 1)) = bits.toNat := by simp [hlow]
          rw [List.findIdx?_cons, if_pos hlast]
          constructor
          · intro h
            cases h
            refine ⟨0, Nat.succ_pos groups, rfl, ?_, ?_, rfl⟩
            · rw [hsum, hspelled]
            · rw [hspelled, ← hsum]
              exact UInt32.toNat_lt _
          · rintro ⟨k, -, hfirst, hv, -, rfl⟩
            cases hfirst
            rw [hspelled, ← hsum] at hv
            rw [UInt32.toNat_inj.mp hv]
            rfl
        · next hlast =>
          have hnext : (shift + 7).toNat = shift.toNat + 7 := toNat_add_seven (by omega)
          have hpow : 2 ^ (shift + 7).toNat = 2 ^ shift.toNat * 128 := by
            rw [hnext, Nat.pow_add]
          have hbound : (value ||| bits <<< shift).toNat < 2 ^ (shift + 7).toNat := by
            rw [hsum, hpow]
            exact placed_more hvalue hsmall
          have hspelled (k : Nat) : (value ||| bits <<< shift).toNat +
              2 ^ (shift + 7).toNat * base128 (rest.take (k + 1)) =
              value.toNat + 2 ^ shift.toNat * base128 ((b :: rest).take (k + 1 + 1)) := by
            rw [base128_placed, hlow, hsum, hpow]
          have hleft (k : Nat) : (⟨offset + 1 + (k + 1), rest.drop (k + 1)⟩ : Input UInt8) =
              ⟨offset + (k + 1 + 1), (b :: rest).drop (k + 1 + 1)⟩ := by
            rw [List.drop_succ_cons, show offset + 1 + (k + 1) = offset + (k + 1 + 1) by omega]
          rw [ih (by omega) (by omega) hbound, List.findIdx?_cons, if_neg hlast]
          constructor
          · rintro ⟨k, hk, hfirst, hv, hfit, rfl⟩
            rw [hspelled] at hv hfit
            exact ⟨k + 1, Nat.succ_lt_succ hk, congrArg _ hfirst, hv, hfit, hleft k⟩
          · rintro ⟨_, hk, hfirst, hv, hfit, rfl⟩
            obtain ⟨k, hrest, rfl⟩ := Option.map_eq_some_iff.mp hfirst
            rw [← hspelled] at hv hfit
            exact ⟨k, Nat.lt_of_succ_lt_succ hk, hrest, hv, hfit, (hleft k).symm⟩

theorem readVarint_eq_ok {offset : Nat} {bytes : Bytes} {v : UInt32} {j : Input UInt8} :
    readVarint.run ⟨offset, bytes⟩ = .ok (v, j) ↔
      ∃ k < 5, bytes.findIdx? isLast = some k ∧ v.toNat = base128 (bytes.take (k + 1)) ∧
        base128 (bytes.take (k + 1)) < 2 ^ 32 ∧ j = ⟨offset + (k + 1), bytes.drop (k + 1)⟩ := by
  have h := @readDigits_eq_ok 5 0 0 v offset bytes j (Nat.le_refl 5) rfl (by decide)
  simpa only [readVarint, UInt32.toNat_zero, Nat.pow_zero, Nat.zero_add, Nat.one_mul] using h

/-! The writer. -/

private theorem toNat_shiftRight_seven (n : UInt32) : (n >>> 7).toNat = n.toNat / 128 := by
  simp [UInt32.toNat_shiftRight, Nat.shiftRight_eq_div_pow]

/-- The low seven bits with the high bit set: one byte of several. -/
private theorem more_byte (b : UInt8) :
    isLast (b &&& 0x7f ||| 0x80) = false ∧ (b &&& 0x7f ||| 0x80) &&& 0x7f = b &&& 0x7f := by
  have hall : ∀ i : Fin 256, isLast (UInt8.ofFin i &&& 0x7f ||| 0x80) = false ∧
      (UInt8.ofFin i &&& 0x7f ||| 0x80) &&& 0x7f = UInt8.ofFin i &&& 0x7f := by decide +kernel
  exact hall b.toFin

/-- What is written ends at its first byte with a clear high bit and spells the number, in a byte
for every seven bits. -/
theorem writeVarint_spells {n : UInt32} {groups : Nat} (hfit : n.toNat < 128 ^ (groups + 1)) :
    ∃ k ≤ groups, (writeVarint n).length = k + 1 ∧ base128 (writeVarint n) = n.toNat ∧
      ∀ rest, (writeVarint n ++ rest).findIdx? isLast = some k := by
  induction n using writeVarint.induct generalizing groups with
  | case1 n hn =>
    have hlt : n.toNat < 128 := UInt32.lt_iff_toNat_lt.mp hn
    have hbyte : n.toUInt8.toNat = n.toNat := by
      rw [UInt32.toNat_toUInt8]
      omega
    have hlast : isLast n.toUInt8 = true := (isLast_iff _).mpr (by omega)
    rw [writeVarint, if_pos hn]
    refine ⟨0, Nat.zero_le groups, rfl, ?_, fun rest => ?_⟩
    · rw [base128_cons, base128_nil, toNat_and_low, hbyte, Nat.mod_eq_of_lt hlt]
      rfl
    · rw [List.cons_append, List.findIdx?_cons, if_pos hlast]
  | case2 n hn ih =>
    have hge : 128 ≤ n.toNat := Nat.not_lt.mp fun h => hn (UInt32.lt_iff_toNat_lt.mpr h)
    obtain ⟨hmore, hlow⟩ := more_byte n.toUInt8
    cases groups with
    | zero => omega
    | succ groups =>
      have hrest : (n >>> 7).toNat < 128 ^ (groups + 1) := by
        rw [toNat_shiftRight_seven]
        rw [Nat.pow_succ] at hfit
        omega
      obtain ⟨k, hk, hlength, hvalue, hfirst⟩ := ih hrest
      rw [writeVarint, if_neg hn]
      refine ⟨k + 1, Nat.succ_le_succ hk, congrArg (· + 1) hlength, ?_, fun rest => ?_⟩
      · rw [base128_cons, hlow, hvalue, toNat_and_low, UInt32.toNat_toUInt8,
          toNat_shiftRight_seven]
        omega
      · rw [List.cons_append, List.findIdx?_cons, hmore, hfirst rest]
        rfl

theorem writeVarint_ne_nil (n : UInt32) : writeVarint n ≠ [] := by
  rw [writeVarint]
  split <;> exact List.cons_ne_nil _ _

theorem readVarint_reads (n : UInt32) : readVarint.Reads (writeVarint n) n := by
  intro offset rest
  have hfit : n.toNat < 128 ^ (4 + 1) := Nat.lt_trans n.toNat_lt (by decide)
  obtain ⟨k, hk, hlength, hvalue, hfirst⟩ := writeVarint_spells hfit
  have htaken : (writeVarint n ++ rest).take (k + 1) = writeVarint n := List.take_left' hlength
  refine readVarint_eq_ok.mpr ⟨k, by omega, hfirst rest, ?_, ?_, ?_⟩
  · rw [htaken, hvalue]
  · rw [htaken, hvalue]
    exact n.toNat_lt
  · rw [List.drop_left' hlength, hlength]

/-- An optional index below the last word. -/
theorem readOptIndex_reads {i : Option UInt32} (h : ∀ k, i = some k → k.toNat + 1 < 2 ^ 32) :
    readOptIndex.Reads (writeOptIndex i) i := by
  cases i with
  | none => exact (readVarint_reads 0).bind_nil (.pure _)
  | some k =>
    refine (readVarint_reads (k + 1)).bind_nil ?_
    have hk := h k rfl
    have hne : k + 1 ≠ 0 := by
      intro hzero
      have hnat := congrArg UInt32.toNat hzero
      rw [UInt32.toNat_add] at hnat
      simp only [UInt32.toNat_one, UInt32.toNat_zero] at hnat
      omega
    rw [if_neg hne, UInt32.add_sub_cancel]
    exact .pure _

/-- Numbers are read exactly. What was written is read back, whatever follows it. Any bytes are
read exactly when one of the first five has its high bit clear and those up to the first such spell
a number of 32 bits, which is the result; the rest is left. An optional index is read back when it
is below the last word. -/
theorem varints_read_exactly :
    (∀ v : UInt32, readVarint.Reads (writeVarint v) v) ∧
      (∀ (offset : Nat) (bytes : Bytes) (v : UInt32) (j : Input UInt8),
        readVarint.run ⟨offset, bytes⟩ = .ok (v, j) ↔
          ∃ k < 5, bytes.findIdx? isLast = some k ∧ base128 (bytes.take (k + 1)) < 2 ^ 32 ∧
            v = UInt32.ofNat (base128 (bytes.take (k + 1))) ∧
            j = ⟨offset + (k + 1), bytes.drop (k + 1)⟩) ∧
      ∀ i : Option UInt32, (∀ k, i = some k → k.toNat < 2 ^ 32 - 1) →
        readOptIndex.Reads (writeOptIndex i) i := by
  refine ⟨readVarint_reads, fun offset bytes v j => ?_, fun i hi => ?_⟩
  · rw [readVarint_eq_ok]
    refine exists_congr fun k => and_congr_right fun _ => and_congr_right fun _ => ?_
    constructor
    · rintro ⟨hv, hfit, hj⟩
      exact ⟨hfit, by rw [← hv, UInt32.ofNat_toNat], hj⟩
    · rintro ⟨hfit, rfl, hj⟩
      exact ⟨UInt32.toNat_ofNat_of_lt' hfit, hfit, hj⟩
  · refine readOptIndex_reads fun k hk => ?_
    have hlt := hi k hk
    omega

/-- Five bytes of ones spell the last word, and the index below it is read back. -/
theorem varints_read_exactly_last :
    readVarint.run ⟨3, [0xff, 0xff, 0xff, 0xff, 0x0f, 7]⟩ = .ok (0xffffffff, ⟨8, [7]⟩) ∧
      readOptIndex.Reads (writeOptIndex (some 0xfffffffe)) (some 0xfffffffe) := by
  obtain ⟨-, hread, hindex⟩ := varints_read_exactly
  refine ⟨(hread 3 _ _ _).mpr ⟨4, by decide, by decide, by decide, by decide, rfl⟩, ?_⟩
  refine hindex _ fun k hk => ?_
  cases hk
  decide

end Compact

end VectorImage
