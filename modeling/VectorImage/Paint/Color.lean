/-!
Straight-alpha colors of four bytes and their packing into one word.
-/

set_option autoImplicit false
set_option relaxedAutoImplicit false

namespace VectorImage

structure Color where
  r : UInt8
  g : UInt8
  b : UInt8
  a : UInt8
  deriving DecidableEq, Inhabited

namespace Color

/-- The opaque color of three channels. -/
def rgb (r g b : UInt8) : Color := ⟨r, g, b, 255⟩

/-- The word with alpha in its highest byte, then red, green and blue. -/
def toArgb (c : Color) : UInt32 :=
  UInt32.ofNat (((c.a.toNat * 256 + c.r.toNat) * 256 + c.g.toNat) * 256 + c.b.toNat)

def ofArgb (v : UInt32) : Color where
  a := UInt8.ofNat (v.toNat / 0x1000000)
  r := UInt8.ofNat (v.toNat / 0x10000)
  g := UInt8.ofNat (v.toNat / 0x100)
  b := UInt8.ofNat v.toNat

theorem ofArgb_toArgb (c : Color) : ofArgb c.toArgb = c := by
  obtain ⟨r, g, b, a⟩ := c
  have hr := r.toNat_lt
  have hg := g.toNat_lt
  have hb := b.toNat_lt
  have ha := a.toNat_lt
  simp only [ofArgb, toArgb, UInt32.toNat_ofNat', Color.mk.injEq]
  refine ⟨?_, ?_, ?_, ?_⟩ <;> apply UInt8.toNat_inj.mp <;>
    rw [UInt8.toNat_ofNat'] <;> omega

end Color

end VectorImage
