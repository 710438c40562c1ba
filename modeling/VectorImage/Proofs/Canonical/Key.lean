import VectorImage.Canonical.Key
import VectorImage.Proofs.Text.Utf8

/-!
Keys tell values apart. What a key writes is told from whatever follows it, part by part, so two
values with one key are one value.
-/

set_option autoImplicit false
set_option relaxedAutoImplicit false

namespace VectorImage

namespace Key

/-- What `write` writes can be told from the bytes that follow it. -/
def Delimits {α : Type} (write : α → Key) : Prop :=
  ∀ ⦃a b : α⦄ ⦃x y : Key⦄, write a ++ x = write b ++ y → a = b ∧ x = y

theorem Delimits.injective {α : Type} {write : α → Key} (h : Delimits write) {a b : α}
    (he : write a = write b) : a = b :=
  (h (x := []) (y := []) (congrArg (· ++ []) he)).1

/-- A key that a reader takes off the front of its input is told from what follows. -/
theorem Delimits.of_read {α : Type} {write : α → Key} (read : Key → Option (α × Key))
    (h : ∀ a x, read (write a ++ x) = some (a, x)) : Delimits write := by
  intro a b x y he
  have hread := h a x
  rw [he, h b y] at hread
  simp only [Option.some.injEq, Prod.mk.injEq] at hread
  exact ⟨hread.1.symm, hread.2.symm⟩

/-- Keys of one length are told from what follows when they differ. -/
theorem Delimits.of_length {α : Type} {write : α → Key} (n : Nat)
    (hlength : ∀ a, (write a).length = n) (h : ∀ a b, write a = write b → a = b) :
    Delimits write := by
  intro a b x y he
  obtain ⟨hwrite, hrest⟩ := List.append_inj he (by rw [hlength, hlength])
  exact ⟨h a b hwrite, hrest⟩

theorem delimits_word {α : Type} (k : Nat) {f : α → Nat} (hf : ∀ a, f a < 256 ^ k)
    (hinj : ∀ a b, f a = f b → a = b) : Delimits fun a => LittleEndian.write k (f a) := by
  refine .of_length k (fun a => LittleEndian.length_write k (f a)) ?_
  intro a b he
  have hread := congrArg LittleEndian.read he
  rw [LittleEndian.read_write (hf a), LittleEndian.read_write (hf b)] at hread
  exact hinj a b hread

theorem delimits_u32 : Delimits u32 :=
  delimits_word 4 (fun n => n.toNat_lt) fun _ _ h => UInt32.toNat_inj.mp h

theorem delimits_float : Delimits float :=
  delimits_word 8 (fun x => x.bits.toNat_lt) fun _ _ h =>
    Binary64.ext_bits (UInt64.toNat_inj.mp h)

theorem delimits_wide : Delimits wide :=
  delimits_word 8 (fun n => Nat.lt_trans n.toNat_lt (by decide)) fun _ _ h => UInt32.toNat_inj.mp h

/-- The first word is a length below the greatest word, or says that the length follows. -/
theorem delimits_nat : Delimits nat := by
  refine .of_read (fun key =>
    let word := LittleEndian.read (key.take 8)
    if word < 2 ^ 64 - 1 then some (word, key.drop 8) else Varint.decode (key.drop 8)) ?_
  intro n x
  have hword {m : Nat} (hm : m < 256 ^ 8) (rest : Key) :
      LittleEndian.read ((LittleEndian.write 8 m ++ rest).take 8) = m ∧
        (LittleEndian.write 8 m ++ rest).drop 8 = rest := by
    have hlength := LittleEndian.length_write 8 m
    rw [List.take_left' hlength, List.drop_left' hlength]
    exact ⟨LittleEndian.read_write hm, rfl⟩
  unfold nat
  split
  · next hn =>
    obtain ⟨hread, hrest⟩ := hword (m := n) (by omega) x
    simp only [hread, hrest, if_pos hn]
  · next hn =>
    rw [List.append_assoc]
    obtain ⟨hread, hrest⟩ := hword (m := 2 ^ 64 - 1) (by decide) (Varint.write n ++ x)
    simp only [hread, hrest, if_neg (Nat.lt_irrefl _), Varint.decode_write]

/-- One byte that stands for the value. -/
theorem delimits_code {α : Type} {code : α → UInt8} (h : ∀ a b, code a = code b → a = b) :
    Delimits fun a => [code a] := by
  refine .of_length 1 (fun _ => rfl) ?_
  intro a b he
  exact h a b (List.cons.inj he).1

theorem delimits_bool : Delimits bool :=
  delimits_code fun a b h => by cases a <;> cases b <;> simp_all

theorem delimits_option {α : Type} {write : α → Key} (h : Delimits write) :
    Delimits (option write) := by
  intro a b x y he
  cases a with
  | none =>
    cases b with
    | none => exact ⟨rfl, List.append_cancel_left he⟩
    | some b => simp [option] at he
  | some a =>
    cases b with
    | none => simp [option] at he
    | some b =>
      obtain ⟨hab, hxy⟩ := h (List.cons.inj he).2
      exact ⟨congrArg some hab, hxy⟩

private theorem flatMap_append_inj {α : Type} {write : α → Key} (h : Delimits write)
    {as bs : List α} {x y : Key} (hlength : as.length = bs.length)
    (he : as.flatMap write ++ x = bs.flatMap write ++ y) : as = bs ∧ x = y := by
  induction as generalizing bs with
  | nil =>
    cases bs with
    | nil => exact ⟨rfl, he⟩
    | cons b bs => simp at hlength
  | cons a as ih =>
    cases bs with
    | nil => simp at hlength
    | cons b bs =>
      simp only [List.flatMap_cons, List.append_assoc] at he
      obtain ⟨rfl, hrest⟩ := h he
      obtain ⟨rfl, hxy⟩ := ih (Nat.succ.inj hlength) hrest
      exact ⟨rfl, hxy⟩

theorem delimits_list {α : Type} {write : α → Key} (h : Delimits write) :
    Delimits (list write) := by
  intro as bs x y he
  simp only [list, List.append_assoc] at he
  obtain ⟨hlength, hrest⟩ := delimits_nat he
  exact flatMap_append_inj h hlength hrest

theorem delimits_bytes : Delimits bytes := by
  intro a b x y he
  simp only [bytes, List.append_assoc] at he
  obtain ⟨hlength, hrest⟩ := delimits_nat he
  exact List.append_inj hrest hlength

theorem delimits_floats : Delimits floats := delimits_list delimits_float

theorem delimits_string : Delimits string := by
  intro s t x y he
  obtain ⟨hbytes, hrest⟩ := delimits_bytes he
  exact ⟨Utf8.encode_injective hbytes, hrest⟩

theorem delimits_affine : Delimits affine := by
  intro m n x y he
  simp only [affine, Affine.toList, List.flatMap_cons, List.flatMap_nil, List.append_nil,
    List.append_assoc] at he
  obtain ⟨ha, he⟩ := delimits_float he
  obtain ⟨hb, he⟩ := delimits_float he
  obtain ⟨hc, he⟩ := delimits_float he
  obtain ⟨hd, he⟩ := delimits_float he
  obtain ⟨hx, he⟩ := delimits_float he
  obtain ⟨hy, hrest⟩ := delimits_float he
  obtain ⟨a, b, c, d, e, f⟩ := m
  obtain ⟨a', b', c', d', e', f'⟩ := n
  simp only at ha hb hc hd hx hy
  subst ha hb hc hd hx hy
  exact ⟨rfl, hrest⟩

theorem delimits_raster : Delimits raster := by
  intro r s x y he
  simp only [raster, List.append_assoc] at he
  obtain ⟨hwidth, he⟩ := delimits_u32 he
  obtain ⟨hheight, he⟩ := delimits_u32 he
  obtain ⟨hbytes, hrest⟩ := delimits_bytes he
  obtain ⟨width, height, bytes⟩ := r
  obtain ⟨width', height', bytes'⟩ := s
  simp only at hwidth hheight hbytes
  subst hwidth hheight hbytes
  exact ⟨rfl, hrest⟩

theorem verb_code_injective (v w : Verb) (h : v.code = w.code) : v = w := by
  have hv := Verb.ofCode_code v
  rw [h, Verb.ofCode_code w] at hv
  exact (Except.ok.inj hv).symm

/-- A path is its verbs and its coordinates. -/
theorem path_ext {p q : Path} (hverbs : p.verbs = q.verbs) (hcoords : p.coords = q.coords) :
    p = q := by
  have hp := Path.ofParts_parts p
  rw [hverbs, hcoords, Path.ofParts_parts q] at hp
  exact (Except.ok.inj hp).symm

theorem delimits_path : Delimits path := by
  intro p q x y he
  simp only [path, List.append_assoc] at he
  obtain ⟨hverbs, he⟩ := delimits_list (delimits_code verb_code_injective) he
  obtain ⟨hcoords, he⟩ := delimits_floats he
  exact ⟨path_ext hverbs hcoords, he⟩

theorem delimits_poly : Delimits poly := by
  intro g h x y he
  simp only [poly, List.append_assoc] at he
  obtain ⟨hclosed, he⟩ := delimits_bool he
  obtain ⟨hfloats, he⟩ := delimits_floats he
  have hg := PolyGeom.ofFloats_toFloats g
  rw [hclosed, hfloats, PolyGeom.ofFloats_toFloats h] at hg
  exact ⟨(Except.ok.inj hg).symm, he⟩

theorem toArgb_injective {c d : Color} (h : c.toArgb = d.toArgb) : c = d := by
  rw [← Color.ofArgb_toArgb c, h, Color.ofArgb_toArgb]

theorem delimits_color : Delimits fun c : Color => u32 c.toArgb := by
  intro c d x y he
  obtain ⟨h, he⟩ := delimits_u32 he
  exact ⟨toArgb_injective h, he⟩

theorem delimits_source : Delimits source := by
  intro s t x y he
  cases s with
  | solid c =>
    cases t with
    | solid d =>
      obtain ⟨h, hrest⟩ := delimits_color (List.cons.inj he).2
      exact ⟨congrArg PaintSource.solid h, hrest⟩
    | gradient j => simp [source] at he
  | gradient i =>
    cases t with
    | solid d => simp [source] at he
    | gradient j =>
      obtain ⟨h, hrest⟩ := delimits_u32 (List.cons.inj he).2
      exact ⟨congrArg PaintSource.gradient h, hrest⟩

theorem delimits_rule : Delimits fun r : FillRule => [r.code] :=
  delimits_code fun a b h => by
    cases a <;> cases b <;> first | rfl | exact absurd h (by decide)

theorem delimits_cap : Delimits fun c : LineCap => [c.code] :=
  delimits_code fun a b h => by
    cases a <;> cases b <;> first | rfl | exact absurd h (by decide)

theorem delimits_join : Delimits fun j : LineJoin => [j.code] :=
  delimits_code fun a b h => by
    cases a <;> cases b <;> first | rfl | exact absurd h (by decide)

theorem delimits_spread : Delimits fun s : SpreadMethod => [s.code] :=
  delimits_code fun a b h => by
    cases a <;> cases b <;> first | rfl | exact absurd h (by decide)

theorem delimits_anchor : Delimits fun a : TextAnchor => [a.code] :=
  delimits_code fun a b h => by
    cases a <;> cases b <;> first | rfl | exact absurd h (by decide)

theorem delimits_fill : Delimits fill := by
  intro f g x y he
  simp only [fill, List.append_assoc] at he
  obtain ⟨hsource, he⟩ := delimits_source he
  obtain ⟨hrule, hrest⟩ := delimits_rule he
  obtain ⟨source, rule⟩ := f
  obtain ⟨source', rule'⟩ := g
  simp only at hsource hrule
  subst hsource hrule
  exact ⟨rfl, hrest⟩

theorem delimits_stroke : Delimits stroke := by
  intro s t x y he
  have hcodes (u : Stroke) : [u.cap.code, u.join.code] = [u.cap.code] ++ [u.join.code] := rfl
  simp only [stroke, hcodes, List.append_assoc] at he
  obtain ⟨hsource, he⟩ := delimits_source he
  obtain ⟨hwidth, he⟩ := delimits_float he
  obtain ⟨hcap, he⟩ := delimits_cap he
  obtain ⟨hjoin, he⟩ := delimits_join he
  obtain ⟨hmiter, he⟩ := delimits_float he
  obtain ⟨hdash, he⟩ := delimits_option delimits_u32 he
  obtain ⟨hoffset, hrest⟩ := delimits_float he
  obtain ⟨source, width, cap, join, miter, dash, offset⟩ := s
  obtain ⟨source', width', cap', join', miter', dash', offset'⟩ := t
  simp only at hsource hwidth hcap hjoin hmiter hdash hoffset
  subst hsource hwidth hcap hjoin hmiter hdash hoffset
  exact ⟨rfl, hrest⟩

theorem delimits_paint : Delimits paint := by
  intro p q x y he
  simp only [paint, List.append_assoc] at he
  obtain ⟨hfill, he⟩ := delimits_option delimits_fill he
  obtain ⟨hstroke, hrest⟩ := delimits_option delimits_stroke he
  obtain ⟨fill, stroke⟩ := p
  obtain ⟨fill', stroke'⟩ := q
  simp only at hfill hstroke
  subst hfill hstroke
  exact ⟨rfl, hrest⟩

theorem delimits_kind :
    Delimits fun k : GradientKind => [k.code] ++ floats k.toFloats := by
  intro k l x y he
  simp only [List.cons_append, List.nil_append, List.cons.injEq] at he
  obtain ⟨hcode, he⟩ := he
  obtain ⟨hfloats, he⟩ := delimits_floats he
  have hk := GradientKind.ofFloats_toFloats k
  rw [hcode, hfloats, GradientKind.ofFloats_toFloats l] at hk
  exact ⟨(Except.ok.inj hk).symm, he⟩

theorem delimits_gradient : Delimits gradient := by
  intro g h x y he
  simp only [gradient, List.append_assoc] at he
  obtain ⟨hkind, he⟩ := delimits_kind (by simpa only [List.append_assoc] using he)
  obtain ⟨hoffsets, he⟩ := delimits_u32 he
  obtain ⟨hcolors, he⟩ := delimits_list delimits_color he
  obtain ⟨hspread, he⟩ := delimits_spread he
  obtain ⟨htransform, hrest⟩ := delimits_option delimits_affine he
  obtain ⟨kind, offsets, colors, spread, transform⟩ := g
  obtain ⟨kind', offsets', colors', spread', transform'⟩ := h
  simp only at hkind hoffsets hcolors hspread htransform
  subst hkind hoffsets hcolors hspread htransform
  exact ⟨rfl, hrest⟩

end Key

/-- Values that are told apart by their keys. -/
class LawfulKeyed (α : Type) [Keyed α] : Prop where
  eq_of_key : ∀ {a b : α}, Keyed.key a = Keyed.key b → a = b

theorem Keyed.key_eq_iff {α : Type} [Keyed α] [LawfulKeyed α] {a b : α} :
    key a = key b ↔ a = b :=
  ⟨LawfulKeyed.eq_of_key, congrArg key⟩

instance : LawfulKeyed Raster := ⟨Key.delimits_raster.injective⟩
instance : LawfulKeyed String := ⟨Key.delimits_string.injective⟩
instance : LawfulKeyed (List Binary64) := ⟨Key.delimits_floats.injective⟩
instance : LawfulKeyed Affine := ⟨Key.delimits_affine.injective⟩
instance : LawfulKeyed Path := ⟨Key.delimits_path.injective⟩
instance : LawfulKeyed PolyGeom := ⟨Key.delimits_poly.injective⟩
instance : LawfulKeyed Paint := ⟨Key.delimits_paint.injective⟩
instance : LawfulKeyed Gradient := ⟨Key.delimits_gradient.injective⟩

end VectorImage
