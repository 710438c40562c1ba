import VectorImage.Proofs.Call.Renaming
import VectorImage.Proofs.Number.Precision

/-!
Calls whose numbers are rounded to a width. Every number is, those of the document excepted.
Rounding touches neither indices nor names, so it changes nothing that the nesting check sees.
-/

set_option autoImplicit false
set_option relaxedAutoImplicit false

namespace VectorImage

variable (width : FloatWidth)

def Point.round (p : Point) : Point := ⟨width.round p.x, width.round p.y⟩

def Rect.round (r : Rect) : Rect :=
  ⟨width.round r.x0, width.round r.y0, width.round r.x1, width.round r.y1⟩

def Affine.round (m : Affine) : Affine := m.map width.round

def RectGeom.round (g : RectGeom) : RectGeom :=
  ⟨g.rect.round width, width.round g.rx, width.round g.ry⟩

def EllipseGeom.round (g : EllipseGeom) : EllipseGeom :=
  ⟨g.center.round width, width.round g.rx, width.round g.ry⟩

def PolyGeom.round (g : PolyGeom) : PolyGeom := ⟨g.points.map (Point.round width), g.closed⟩

def Geometry.round : Geometry → Geometry
  | .path p => .path (p.round width)
  | .rect g => .rect (g.round width)
  | .ellipse g => .ellipse (g.round width)
  | .poly g => .poly (g.round width)

def Stroke.round (s : Stroke) : Stroke :=
  { s with
    width := width.round s.width
    miterLimit := width.round s.miterLimit
    dashOffset := width.round s.dashOffset }

def Paint.round (p : Paint) : Paint := { p with stroke := p.stroke.map (Stroke.round width) }

def Gradient.round (g : Gradient) : Gradient :=
  { g with
    kind := g.kind.map width.round
    transform := g.transform.map (Affine.round width) }

def Shape.round (s : Shape) : Shape :=
  ⟨s.geometry.round width, s.paint.round width, s.transform.map (Affine.round width)⟩

def ImageLeaf.round (leaf : ImageLeaf) : ImageLeaf :=
  ⟨leaf.image, leaf.dest.round width, leaf.transform.map (Affine.round width)⟩

def TextLeaf.round (leaf : TextLeaf) : TextLeaf :=
  { leaf with
    size := width.round leaf.size
    origin := leaf.origin.round width
    paint := leaf.paint.round width
    transform := leaf.transform.map (Affine.round width) }

def GroupAttrs.round (attrs : GroupAttrs) : GroupAttrs :=
  { attrs with transform := attrs.transform.map (Affine.round width) }

def ClipPath.round (c : ClipPath) : ClipPath :=
  ⟨c.path.round width, c.rule, c.transform.map (Affine.round width)⟩

def UseRef.round (u : UseRef) : UseRef := ⟨u.target, u.transform.map (Affine.round width)⟩

def Tables.round (t : Tables) : Tables :=
  { t with floatLists := t.floatLists.map fun xs => xs.map width.round }

/-- A call with every number rounded but those of the document. -/
def Call.round : Call → Call
  | .init t => .init (t.round width)
  | .document d => .document d
  | .gradient g => .gradient (g.round width)
  | .beginGroup attrs => .beginGroup (attrs.round width)
  | .endGroup => .endGroup
  | .clip c => .clip (c.round width)
  | .beginMask => .beginMask
  | .maskContent => .maskContent
  | .endMask => .endMask
  | .shape s => .shape (s.round width)
  | .image leaf => .image (leaf.round width)
  | .text leaf => .text (leaf.round width)
  | .use u => .use (u.round width)

variable {width}

/-! The numbers of a rounded outline are the rounded numbers. -/

theorem RectGeom.toFloats_round (g : RectGeom) :
    (g.round width).toFloats = g.toFloats.map width.round := rfl

theorem EllipseGeom.toFloats_round (g : EllipseGeom) :
    (g.round width).toFloats = g.toFloats.map width.round := rfl

theorem PolyGeom.toFloats_round (g : PolyGeom) :
    (g.round width).toFloats = g.toFloats.map width.round := by
  obtain ⟨points, closed⟩ := g
  induction points with
  | nil => rfl
  | cons p rest ih =>
    simp only [round, toFloats, List.map_cons, List.flatMap_cons, List.map_append] at ih ⊢
    rw [ih]
    rfl

/-- The coefficients of a rounded map are kept. -/
theorem Affine.keeps_round (m : Affine) : ∀ x ∈ (m.round width).toList, width.Keeps x := by
  intro x hx
  obtain ⟨y, -, rfl⟩ := List.mem_map.mp (show x ∈ m.toList.map width.round from hx)
  exact width.keeps_round y

theorem Path.coords_round (p : Path) : (p.round width).coords = p.coords.map width.round := by
  obtain ⟨segments⟩ := p
  simp only [round, mapCoords, mapPoints, coords, List.flatMap_map, List.map_flatMap]
  exact congrArg segments.flatMap (funext fun s => by cases s <;> rfl)

theorem Path.verbs_round (p : Path) : (p.round width).verbs = p.verbs := by
  obtain ⟨segments⟩ := p
  simp only [round, mapCoords, mapPoints, verbs, List.map_map]
  exact congrArg segments.map (funext fun s => by cases s <;> rfl)

/-- The coordinates of a rounded path are kept. -/
theorem Path.keeps_round (p : Path) : ∀ x ∈ (p.round width).coords, width.Keeps x := by
  intro x hx
  rw [p.coords_round] at hx
  obtain ⟨y, -, rfl⟩ := List.mem_map.mp hx
  exact width.keeps_round y

/-! What is made of numbers that the width keeps is rounded already. -/

theorem map_round_of_kept {xs : List Binary64} (h : ∀ x ∈ xs, width.Keeps x) :
    xs.map width.round = xs := (List.map_congr_left h).trans (List.map_id xs)

theorem Affine.round_of_kept (m : Affine) (h : ∀ x ∈ m.toList, width.Keeps x) :
    m.round width = m := by
  have hlist : (m.round width).toList = m.toList := map_round_of_kept h
  obtain ⟨a, b, c, d, e, f⟩ := m
  simp only [toList, List.cons.injEq, and_true] at hlist
  obtain ⟨ha, hb, hc, hd, he, hf⟩ := hlist
  simp only [round, map] at ha hb hc hd he hf ⊢
  rw [ha, hb, hc, hd, he, hf]

theorem Path.round_of_kept (p : Path) (h : ∀ x ∈ p.coords, width.Keeps x) : p.round width = p := by
  have hparts := (p.round width).ofParts_parts
  rw [p.coords_round, p.verbs_round, map_round_of_kept h, p.ofParts_parts] at hparts
  exact (Except.ok.inj hparts).symm

theorem GradientKind.map_of_kept (k : GradientKind) (h : k.toFloats.map width.round = k.toFloats) :
    k.map width.round = k := by
  have hcode : (k.map width.round).code = k.code := by cases k <;> rfl
  have hkind := (k.map width.round).ofFloats_toFloats
  rw [k.toFloats_map, hcode, h, k.ofFloats_toFloats] at hkind
  exact (Except.ok.inj hkind).symm

/-- Rounding a gradient once is enough. -/
theorem Gradient.round_round (g : Gradient) : (g.round width).round width = g.round width := by
  have hkept : ∀ x ∈ (g.kind.map width.round).toFloats, width.Keeps x := by
    rw [GradientKind.toFloats_map]
    intro x hx
    obtain ⟨y, -, rfl⟩ := List.mem_map.mp hx
    exact width.keeps_round y
  have hkind := (g.kind.map width.round).map_of_kept (map_round_of_kept hkept)
  have htransform : (g.transform.map (Affine.round width)).map (Affine.round width) =
      g.transform.map (Affine.round width) := by
    cases g.transform with
    | none => rfl
    | some m => exact congrArg some (Affine.round_of_kept _ m.keeps_round)
  show { g with kind := _, transform := _ } = { g with kind := _, transform := _ }
  rw [show ((g.round width).kind.map width.round) = g.kind.map width.round from hkind,
    show (g.round width).transform.map (Affine.round width) = _ from htransform]

theorem Rect.round_of_kept (r : Rect) (h : r.toList.map width.round = r.toList) :
    r.round width = r := by
  obtain ⟨x0, y0, x1, y1⟩ := r
  simp only [toList, List.map_cons, List.map_nil, List.cons.injEq, and_true] at h
  obtain ⟨hx0, hy0, hx1, hy1⟩ := h
  simp only [round, hx0, hy0, hx1, hy1]

theorem RectGeom.round_of_kept (g : RectGeom) (h : g.toFloats.map width.round = g.toFloats) :
    g.round width = g := by
  have hgeom := (g.round width).ofFloats_toFloats
  rw [g.toFloats_round, h, g.ofFloats_toFloats] at hgeom
  exact (Except.ok.inj hgeom).symm

theorem EllipseGeom.round_of_kept (g : EllipseGeom)
    (h : g.toFloats.map width.round = g.toFloats) : g.round width = g := by
  have hgeom := (g.round width).ofFloats_toFloats
  rw [g.toFloats_round, h, g.ofFloats_toFloats] at hgeom
  exact (Except.ok.inj hgeom).symm

theorem PolyGeom.round_of_kept (g : PolyGeom) (h : g.toFloats.map width.round = g.toFloats) :
    g.round width = g := by
  have hgeom := (g.round width).ofFloats_toFloats
  rw [g.toFloats_round, h, show (g.round width).closed = g.closed from rfl,
    g.ofFloats_toFloats] at hgeom
  exact (Except.ok.inj hgeom).symm

/-! Rounding and renaming of gradients. -/

theorem Paint.gradientIds_round (p : Paint) : (p.round width).gradientIds = p.gradientIds := by
  obtain ⟨fill, stroke⟩ := p
  cases stroke <;> rfl

theorem Paint.dash_round (p : Paint) :
    (p.round width).stroke.bind Stroke.dash = p.stroke.bind Stroke.dash := by
  obtain ⟨fill, stroke⟩ := p
  cases stroke <;> rfl

/-- Paints that differ by a renaming still do when they are rounded. -/
theorem Paint.Renames.round {ρ : Renaming} {p q : Paint} (h : p.Renames ρ q) :
    (p.round width).Renames ρ (q.round width) := by
  obtain ⟨fill, stroke⟩ := p
  obtain ⟨fill', stroke'⟩ := q
  obtain ⟨hfill, hstroke⟩ := h
  refine ⟨hfill, ?_⟩
  cases hstroke with
  | none => exact .none
  | some hs =>
    exact .some ⟨hs.source, congrArg width.round hs.width, hs.cap, hs.join,
      congrArg width.round hs.miterLimit, hs.dash, congrArg width.round hs.dashOffset⟩

theorem Call.isGradient_round (width : FloatWidth) (call : Call) : (call.round width).isGradient = call.isGradient := by
  cases call <;> rfl

/-- Calls renamed first in their gradients and, once rounded, in the rest. -/
theorem Call.Renames.after {ρ : Renaming} {f : GradientId → Except Error GradientId}
    {call renamed call' : Call} (hmap : call.mapGradients f = .ok renamed)
    (hρ : ρ.gradients = Eq) (h : (renamed.round width).Renames ρ call') :
    (call.round width).Renames (ρ.withGradients f) call' := by
  cases call with
  | shape s =>
    obtain ⟨q, hq, rfl⟩ := map_eq_ok.mp hmap
    cases h with
    | shape hgeometry hpaint htransform =>
      exact .shape hgeometry ((Paint.mapGradients_renames hq).round.after hρ hpaint) htransform
  | text leaf =>
    obtain ⟨q, hq, rfl⟩ := map_eq_ok.mp hmap
    cases h with
    | text hleaf =>
      exact .text ⟨hleaf.text, hleaf.family, hleaf.size, hleaf.origin, hleaf.anchor,
        (Paint.mapGradients_renames hq).round.after hρ hleaf.paint, hleaf.transform⟩
  | init tables | document d =>
    cases hmap
    cases h
  | gradient g =>
    cases hmap
    cases h with
    | gradient hg => exact .gradient ⟨hg.kind, hg.offsets, hg.colors, hg.spread, hg.transform⟩
  | beginGroup attrs =>
    cases hmap
    cases h with
    | beginGroup htransform halpha hexport => exact .beginGroup htransform halpha hexport
  | endGroup =>
    cases hmap
    cases h
    exact .endGroup
  | clip c =>
    cases hmap
    cases h
    exact .clip _
  | beginMask =>
    cases hmap
    cases h
    exact .beginMask
  | maskContent =>
    cases hmap
    cases h
    exact .maskContent
  | endMask =>
    cases hmap
    cases h
    exact .endMask
  | image leaf =>
    cases hmap
    cases h with
    | image himage hdest htransform => exact .image himage hdest htransform
  | use u =>
    cases hmap
    cases h with
    | use htarget htransform => exact .use htarget htransform

/-- Rounding changes nothing that the check sees. -/
theorem Nesting.Accepted.round {gradients : Nat} {n m : Nesting} {call : Call}
    (h : Accepted gradients n call m) : Accepted gradients n (call.round width) m := by
  have hwithin {p : Paint} {floatLists : Nat} (hp : p.Within gradients floatLists) :
      (p.round width).Within gradients floatLists := by
    refine ⟨fun id hid => hp.gradients id ?_, fun id hid => hp.dash id ?_⟩
    · rwa [Paint.gradientIds_round] at hid
    · rwa [Paint.dash_round] at hid
  cases h with
  | init tables hphase =>
    have hinit : Accepted gradients n (.init (tables.round width)) _ :=
      .init (tables.round width) hphase
    rw [show (tables.round width).floatLists.length = tables.floatLists.length from
      List.length_map _] at hinit
    exact hinit
  | document d hphase => exact .document d hphase
  | gradient g hphase hoffsets => exact .gradient _ hphase hoffsets
  | beginGroup attrs hphase hfree => exact .beginGroup (attrs.round width) hphase hfree
  | endGroup exportId rest hscopes => exact .endGroup exportId rest hscopes
  | clip c hphase => exact .clip _ hphase
  | beginMask hphase => exact .beginMask hphase
  | maskContent rest hscopes => exact .maskContent rest hscopes
  | endMask rest hscopes => exact .endMask rest hscopes
  | shape s hphase hpaint => exact .shape _ hphase (hwithin hpaint)
  | image leaf hphase himage => exact .image _ hphase himage
  | text leaf hphase hpaint htext hfamily => exact .text _ hphase (hwithin hpaint) htext hfamily
  | use ref hphase htarget => exact .use (ref.round width) hphase htarget

end VectorImage
