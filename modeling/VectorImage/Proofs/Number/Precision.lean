import VectorImage.Number.Binary32

/-!
What a stored precision keeps. Widening a 32-bit number and narrowing it again gives a number of
the same wide value, so rounding to a precision twice is rounding once; values that come from
32 bits, not-a-number patterns included, are the fixed points.
-/

set_option autoImplicit false
set_option relaxedAutoImplicit false

namespace VectorImage

namespace Binary64

theorem toNat_ofMagnitude {negative : Bool} {m : Nat} (h : m < 2 ^ 63) :
    (ofMagnitude negative m).bits.toNat = if negative then 2 ^ 63 + m else m := by
  cases negative with
  | false =>
    simp only [ofMagnitude, UInt64.toNat_ofNat']
    exact Nat.mod_eq_of_lt (by simp only [Bool.false_eq_true, if_false]; omega)
  | true =>
    simp only [ofMagnitude, UInt64.toNat_ofNat', if_true]
    omega

theorem magnitude_ofMagnitude {negative : Bool} {m : Nat} (h : m < 2 ^ 63) :
    (ofMagnitude negative m).magnitude = m := by
  rw [magnitude, toNat_ofMagnitude h]
  split <;> omega

theorem isNegative_ofMagnitude {negative : Bool} {m : Nat} (h : m < 2 ^ 63) :
    (ofMagnitude negative m).isNegative = negative := by
  rw [isNegative, toNat_ofMagnitude h]
  cases negative with
  | false => simpa using h
  | true => simp

end Binary64

namespace Binary32

theorem toNat_ofMagnitude {negative : Bool} {m : Nat} (h : m < 2 ^ 31) :
    (ofMagnitude negative m).bits.toNat = if negative then 2 ^ 31 + m else m := by
  cases negative with
  | false =>
    simp only [ofMagnitude, UInt32.toNat_ofNat']
    exact Nat.mod_eq_of_lt (by simp only [Bool.false_eq_true, if_false]; omega)
  | true =>
    simp only [ofMagnitude, UInt32.toNat_ofNat', if_true]
    omega

theorem magnitude_ofMagnitude {negative : Bool} {m : Nat} (h : m < 2 ^ 31) :
    (ofMagnitude negative m).magnitude = m := by
  rw [magnitude, toNat_ofMagnitude h]
  split <;> omega

theorem isNegative_ofMagnitude {negative : Bool} {m : Nat} (h : m < 2 ^ 31) :
    (ofMagnitude negative m).isNegative = negative := by
  rw [isNegative, toNat_ofMagnitude h]
  cases negative with
  | false => simpa using h
  | true => simp

/-- The leading digit of a subnormal pattern and what stands below it. -/
private theorem subnormal_split {m : Nat} (h₀ : m ≠ 0) (h : m < 2 ^ 23) :
    m.log2 ≤ 22 ∧ 2 ^ m.log2 ≤ m ∧ m - 2 ^ m.log2 < 2 ^ m.log2 := by
  have hle : 2 ^ m.log2 ≤ m := Nat.log2_self_le h₀
  have hlt : m < 2 ^ (m.log2 + 1) := Nat.lt_log2_self
  have hk : m.log2 < 23 := (Nat.log2_lt h₀).mpr h
  rw [Nat.pow_succ] at hlt
  exact ⟨by omega, hle, by omega⟩

/-- The digits below the leading one, moved up to 52 places. -/
private theorem shifted_lt {m : Nat} (h₀ : m ≠ 0) (h : m < 2 ^ 23) :
    (m - 2 ^ m.log2) * 2 ^ (52 - m.log2) < 2 ^ 52 := by
  obtain ⟨hk, -, hlt⟩ := subnormal_split h₀ h
  have hpow : 2 ^ m.log2 * 2 ^ (52 - m.log2) = 2 ^ 52 := by
    rw [← Nat.pow_add]
    congr 1
    omega
  rw [← hpow]
  exact Nat.mul_lt_mul_of_pos_right hlt (Nat.two_pow_pos _)

private theorem shifted_add {m : Nat} (h₀ : m ≠ 0) (h : m < 2 ^ 23) :
    2 ^ 52 + (m - 2 ^ m.log2) * 2 ^ (52 - m.log2) = m * 2 ^ (52 - m.log2) := by
  obtain ⟨hk, hle, -⟩ := subnormal_split h₀ h
  have hpow : 2 ^ m.log2 * 2 ^ (52 - m.log2) = 2 ^ 52 := by
    rw [← Nat.pow_add]
    congr 1
    omega
  rw [← hpow, ← Nat.add_mul]
  congr 1
  omega

theorem widenMagnitude_lt {m : Nat} (h : m < 2 ^ 31) : widenMagnitude m < 2 ^ 63 := by
  unfold widenMagnitude infinityMagnitude Binary64.infinityMagnitude
  split
  · omega
  · split
    · omega
    · split
      · omega
      · split
        · omega
        · next hsub h₀ =>
          have hlt := shifted_lt h₀ (by omega)
          have hk := (subnormal_split h₀ (by omega)).1
          dsimp only
          omega

private theorem capped_lt (pattern : Nat) :
    (if infinityMagnitude ≤ pattern then infinityMagnitude else pattern) < 2 ^ 31 := by
  unfold infinityMagnitude
  split <;> omega

theorem narrowMagnitude_lt (m : Nat) : narrowMagnitude m < 2 ^ 31 := by
  unfold narrowMagnitude
  split
  · unfold infinityMagnitude
    omega
  · split
    · decide
    · exact capped_lt _

private theorem narrow_widen_nan {m : Nat} (h : infinityMagnitude < m) :
    narrowMagnitude (widenMagnitude m) = infinityMagnitude + 2 ^ 22 + m % 2 ^ 22 := by
  rw [widenMagnitude, if_pos h, narrowMagnitude]
  unfold Binary64.infinityMagnitude
  rw [if_pos (by omega)]
  omega

private theorem narrow_widen_normal {m : Nat} (h : 2 ^ 23 ≤ m) (hm : m < infinityMagnitude) :
    narrowMagnitude (widenMagnitude m) = m := by
  have hw : widenMagnitude m = m * 2 ^ 29 + 896 * 2 ^ 52 := by
    rw [widenMagnitude, if_neg (by omega), if_neg (by omega), if_pos h]
  have hr : roundDiv (m * 2 ^ 29 + 896 * 2 ^ 52 - 896 * 2 ^ 52) (2 ^ 29) = m := by
    rw [Nat.add_sub_cancel]
    exact roundDiv_mul_right m (2 ^ 29) (by decide)
  unfold infinityMagnitude at hm
  rw [hw, narrowMagnitude]
  unfold Binary64.infinityMagnitude
  rw [if_neg (by omega), if_neg (by omega)]
  dsimp only
  rw [if_pos (by omega : 897 ≤ (m * 2 ^ 29 + 896 * 2 ^ 52) / 2 ^ 52), hr]
  unfold infinityMagnitude
  rw [if_neg (by omega)]

private theorem narrow_widen_subnormal {m : Nat} (h₀ : m ≠ 0) (h : m < 2 ^ 23) :
    narrowMagnitude (widenMagnitude m) = m := by
  have hlt := shifted_lt h₀ h
  have hadd := shifted_add h₀ h
  have hk := (subnormal_split h₀ h).1
  have hw : widenMagnitude m =
      (m.log2 + 874) * 2 ^ 52 + (m - 2 ^ m.log2) * 2 ^ (52 - m.log2) := by
    unfold widenMagnitude infinityMagnitude
    rw [if_neg (by omega), if_neg (by omega), if_neg (by omega), if_neg h₀]
  rw [hw]
  generalize (m - 2 ^ m.log2) * 2 ^ (52 - m.log2) = low at hlt hadd
  have hfield : ((m.log2 + 874) * 2 ^ 52 + low) / 2 ^ 52 = m.log2 + 874 := by omega
  have hfraction : ((m.log2 + 874) * 2 ^ 52 + low) % 2 ^ 52 = low := by omega
  have hplace : 926 - (m.log2 + 874) = 52 - m.log2 := by omega
  unfold narrowMagnitude Binary64.infinityMagnitude infinityMagnitude
  rw [if_neg (by omega), if_neg (by omega)]
  dsimp only
  rw [hfield, hfraction, if_neg (by omega : ¬ 897 ≤ m.log2 + 874),
    if_neg (by omega : ¬ m.log2 + 874 = 0), hplace, hadd,
    roundDiv_mul_right m _ (Nat.two_pow_pos _), if_neg (by omega)]

/-- Narrowing what was widened loses at most that a not-a-number pattern was not quiet, and
widening makes that good. -/
theorem widenMagnitude_narrow_widen {m : Nat} (h : m < 2 ^ 31) :
    widenMagnitude (narrowMagnitude (widenMagnitude m)) = widenMagnitude m := by
  by_cases hnan : infinityMagnitude < m
  · rw [narrow_widen_nan hnan]
    have hquiet : infinityMagnitude < infinityMagnitude + 2 ^ 22 + m % 2 ^ 22 := by omega
    rw [widenMagnitude, if_pos hquiet, widenMagnitude, if_pos hnan]
    unfold infinityMagnitude
    omega
  · by_cases hinf : m = infinityMagnitude
    · subst hinf
      decide
    · by_cases hnormal : 2 ^ 23 ≤ m
      · rw [narrow_widen_normal hnormal (by omega)]
      · by_cases hzero : m = 0
        · subst hzero
          decide
        · rw [narrow_widen_subnormal hzero (by omega)]

theorem magnitude_lt (x : Binary32) : x.magnitude < 2 ^ 31 := by
  rw [magnitude]
  exact Nat.mod_lt _ (by decide)

/-- A value that comes from 32 bits is kept by rounding to 32 bits. -/
theorem round32_widen (x : Binary32) : x.widen.round32 = x.widen := by
  have hw : widenMagnitude x.magnitude < 2 ^ 63 := widenMagnitude_lt x.magnitude_lt
  have hn := narrowMagnitude_lt (widenMagnitude x.magnitude)
  rw [Binary64.round32, ofBinary64]
  simp only [widen, Binary64.magnitude_ofMagnitude hw, Binary64.isNegative_ofMagnitude hw,
    magnitude_ofMagnitude hn, isNegative_ofMagnitude hn,
    widenMagnitude_narrow_widen x.magnitude_lt]

end Binary32

namespace FloatWidth

/-- The values that a precision stores unchanged. -/
def Keeps (width : FloatWidth) (x : Binary64) : Prop := width.round x = x

theorem keeps_binary64 (x : Binary64) : FloatWidth.binary64.Keeps x := rfl

theorem keeps_widen (x : Binary32) : FloatWidth.binary32.Keeps x.widen := Binary32.round32_widen x

/-- Rounding twice is rounding once. -/
theorem keeps_round (width : FloatWidth) (x : Binary64) : width.Keeps (width.round x) := by
  cases width with
  | binary32 => exact keeps_widen (Binary32.ofBinary64 x)
  | binary64 => rfl

end FloatWidth

end VectorImage
