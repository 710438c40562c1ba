import VectorImage.Drawing.Painter
import VectorImage.Proofs.Call.Renaming

/-!
The steps of a painter as data: what a walk over an image does, every index resolved. A leaf
whose indices are in range has a step, and leaves that differ by a renaming have the same one.
-/

set_option autoImplicit false
set_option relaxedAutoImplicit false

namespace VectorImage

/-- A step of a painter. -/
inductive PaintStep
  | beginGroup (transform : Option Affine) (alpha : UInt8)
  | endGroup
  | beginUse (transform : Option Affine)
  | endUse
  | clip (clip : ClipPath)
  | beginMask
  | maskContent
  | endMask
  | shape (geometry : Geometry) (style : Style) (transform : Option Affine)
  | image (image : Raster) (dest : Rect) (transform : Option Affine)
  | text (run : ResolvedText) (style : Style) (transform : Option Affine)
  deriving DecidableEq

namespace Painter

def step (p : Painter) : PaintStep → Painter
  | .beginGroup transform alpha => p.beginGroup transform alpha
  | .endGroup => p.endGroup
  | .beginUse transform => p.beginUse transform
  | .endUse => p.endUse
  | .clip c => p.clip c.path c.rule c.transform
  | .beginMask => p.beginMask
  | .maskContent => p.maskContent
  | .endMask => p.endMask
  | .shape geometry style transform => p.emit (.shape geometry style (p.absolute transform))
  | .image image dest transform => p.emit (.image image dest (p.absolute transform))
  | .text run style transform => p.emit (.text run style (p.absolute transform))

def follow (p : Painter) (steps : List PaintStep) : Painter := steps.foldl step p

@[simp]
theorem follow_nil (p : Painter) : p.follow [] = p := rfl

@[simp]
theorem follow_cons (p : Painter) (step : PaintStep) (rest : List PaintStep) :
    p.follow (step :: rest) = (p.step step).follow rest := rfl

@[simp]
theorem follow_append (p : Painter) (first rest : List PaintStep) :
    p.follow (first ++ rest) = (p.follow first).follow rest := List.foldl_append

end Painter

namespace Resources

variable (r : Resources)

def shapeStep (s : Shape) : Except Error PaintStep := do
  let style ← r.resolvePaint s.paint
  return .shape s.geometry style s.transform

def imageStep (leaf : ImageLeaf) : Except Error PaintStep := do
  let image ← r.image leaf.image
  return .image image leaf.dest leaf.transform

def textStep (leaf : TextLeaf) : Except Error PaintStep := do
  let run ← r.resolveText leaf
  let style ← r.resolvePaint leaf.paint
  return .text run style leaf.transform

variable {r}

theorem shapeStep_eq_ok {s : Shape} {step : PaintStep} : r.shapeStep s = .ok step ↔
    ∃ style, r.resolvePaint s.paint = .ok style ∧ step = .shape s.geometry style s.transform :=
  bind_pure_eq_ok

theorem imageStep_eq_ok {leaf : ImageLeaf} {step : PaintStep} : r.imageStep leaf = .ok step ↔
    ∃ image, r.image leaf.image = .ok image ∧ step = .image image leaf.dest leaf.transform :=
  bind_pure_eq_ok

theorem textStep_eq_ok {leaf : TextLeaf} {step : PaintStep} : r.textStep leaf = .ok step ↔
    ∃ run style, r.resolveText leaf = .ok run ∧ r.resolvePaint leaf.paint = .ok style ∧
      step = .text run style leaf.transform := by
  constructor
  · intro h
    obtain ⟨run, hrun, h⟩ := bind_eq_ok.mp h
    obtain ⟨style, hstyle, rfl⟩ := bind_pure_eq_ok.mp h
    exact ⟨run, style, hrun, hstyle, rfl⟩
  · rintro ⟨run, style, hrun, hstyle, rfl⟩
    exact bind_eq_ok.mpr ⟨run, hrun, bind_pure_eq_ok.mpr ⟨style, hstyle, rfl⟩⟩

theorem shape_of_step {s : Shape} {step : PaintStep} (h : r.shapeStep s = .ok step) (p : Painter) :
    p.shape r s = .ok (p.step step) := by
  obtain ⟨style, hstyle, rfl⟩ := shapeStep_eq_ok.mp h
  exact bind_eq_ok.mpr ⟨style, hstyle, rfl⟩

theorem image_of_step {leaf : ImageLeaf} {step : PaintStep} (h : r.imageStep leaf = .ok step)
    (p : Painter) : p.image r leaf = .ok (p.step step) := by
  obtain ⟨image, himage, rfl⟩ := imageStep_eq_ok.mp h
  exact bind_eq_ok.mpr ⟨image, himage, rfl⟩

theorem text_of_step {leaf : TextLeaf} {step : PaintStep} (h : r.textStep leaf = .ok step)
    (p : Painter) : p.text r leaf = .ok (p.step step) := by
  obtain ⟨run, style, hrun, hstyle, rfl⟩ := textStep_eq_ok.mp h
  exact bind_eq_ok.mpr ⟨run, hrun, bind_eq_ok.mpr ⟨style, hstyle, rfl⟩⟩

/-! Leaves that differ by a renaming draw the same step. -/

variable {ρ : Renaming} {r' : Resources}

theorem shapeStep_renames (hmatch : ρ.Matches r r') {s t : Shape} {step : PaintStep}
    (hgeometry : s.geometry = t.geometry) (hpaint : s.paint.Renames ρ t.paint)
    (htransform : s.transform = t.transform) (h : r.shapeStep s = .ok step) :
    r'.shapeStep t = .ok step := by
  obtain ⟨style, hstyle, rfl⟩ := shapeStep_eq_ok.mp h
  refine shapeStep_eq_ok.mpr ⟨style, resolvePaint_renames hmatch hpaint hstyle, ?_⟩
  rw [hgeometry, htransform]

theorem imageStep_renames (hmatch : ρ.Matches r r') {s t : ImageLeaf} {step : PaintStep}
    (himage : ρ.images s.image t.image) (hdest : s.dest = t.dest)
    (htransform : s.transform = t.transform) (h : r.imageStep s = .ok step) :
    r'.imageStep t = .ok step := by
  obtain ⟨image, hvalue, rfl⟩ := imageStep_eq_ok.mp h
  refine imageStep_eq_ok.mpr ⟨image, hmatch.images _ _ _ himage hvalue, ?_⟩
  rw [hdest, htransform]

theorem textStep_renames (hmatch : ρ.Matches r r') {s t : TextLeaf} {step : PaintStep}
    (hrenames : s.Renames ρ t) (h : r.textStep s = .ok step) : r'.textStep t = .ok step := by
  obtain ⟨run, style, hrun, hstyle, rfl⟩ := textStep_eq_ok.mp h
  refine textStep_eq_ok.mpr ⟨run, style, resolveText_renames hmatch hrenames hrun,
    resolvePaint_renames hmatch hrenames.paint hstyle, ?_⟩
  rw [hrenames.transform]

/-- Resources in which every index of `r` still stands for what it did. -/
abbrev ExtendedBy (r r' : Resources) : Prop := Renaming.identity.Matches r r'

theorem shapeStep_mono (hr : r.ExtendedBy r') {s : Shape} {step : PaintStep}
    (h : r.shapeStep s = .ok step) : r'.shapeStep s = .ok step :=
  shapeStep_renames hr rfl (Paint.renames_identity _) rfl h

theorem imageStep_mono (hr : r.ExtendedBy r') {leaf : ImageLeaf} {step : PaintStep}
    (h : r.imageStep leaf = .ok step) : r'.imageStep leaf = .ok step :=
  imageStep_renames hr rfl rfl rfl h

theorem textStep_mono (hr : r.ExtendedBy r') {leaf : TextLeaf} {step : PaintStep}
    (h : r.textStep leaf = .ok step) : r'.textStep leaf = .ok step :=
  textStep_renames hr (TextLeaf.renames_identity leaf) h

/-- More gradients leave what the registered ones stand for. -/
theorem extendedBy_gradients {images : Array Raster} {strings : Array String}
    {floatLists : Array (List Binary64)} {gradients gradients' : Array Gradient}
    (h : gradients.toList <+: gradients'.toList) :
    ExtendedBy ⟨images, strings, floatLists, gradients⟩
      ⟨images, strings, floatLists, gradients'⟩ := by
  refine ⟨?_, ?_, ?_, ?_⟩
  · rintro i j v rfl hv
    exact hv
  · rintro i j v rfl hv
    exact hv
  · rintro i j v rfl hv
    exact hv
  · rintro i j g rfl hg
    have hentry := lookup_eq_ok_iff.mp hg
    refine ⟨g, lookup_eq_ok_iff.mpr ?_, rfl, rfl, rfl, rfl, rfl⟩
    obtain ⟨more, hmore⟩ := h
    rw [← Array.getElem?_toList] at hentry ⊢
    obtain ⟨hi, -⟩ := List.getElem?_eq_some_iff.mp hentry
    rw [← hmore, List.getElem?_append_left hi]
    exact hentry

/-! Indices below the lengths of the tables resolve. -/

theorem lookup_progress {α : Type} {table : Array α} (kind : TableKind) {i : UInt32}
    (h : i.toNat < table.size) : ∃ v ∈ table, lookup table kind i = .ok v :=
  ⟨table[i.toNat], Array.getElem_mem h, lookup_eq_ok_iff.mpr (Array.getElem?_eq_getElem h)⟩

private theorem resolveSource_progress {s : PaintSource}
    (hgradient : ∀ i, s = .gradient i → i.toNat < r.gradients.size)
    (hoffsets : ∀ g ∈ r.gradients, g.offsets.toNat < r.floatLists.size) :
    ∃ v, r.resolveSource s = .ok v := by
  cases s with
  | solid c => exact ⟨_, rfl⟩
  | gradient i =>
    obtain ⟨g, hmem, hg⟩ := lookup_progress .gradient (hgradient i rfl)
    obtain ⟨offsets, -, hlist⟩ := lookup_progress .floatList (hoffsets g hmem)
    exact ⟨_, bind_eq_ok.mpr ⟨g, hg, bind_eq_ok.mpr ⟨offsets, hlist, rfl⟩⟩⟩

theorem resolvePaint_progress {p : Paint} (hp : p.Within r.gradients.size r.floatLists.size)
    (hoffsets : ∀ g ∈ r.gradients, g.offsets.toNat < r.floatLists.size) :
    ∃ v, r.resolvePaint p = .ok v := by
  obtain ⟨fill, stroke⟩ := p
  have hfill : ∃ v, fill.mapM r.resolveFill = .ok v := by
    cases fill with
    | none => exact ⟨none, rfl⟩
    | some f =>
      obtain ⟨source, hsource⟩ := resolveSource_progress (r := r) (s := f.source)
        (fun i hi => hp.gradients i (by simp [Paint.gradientIds, PaintSource.gradientId?, hi]))
        hoffsets
      exact ⟨_, option_mapM_some.mpr ⟨_, bind_eq_ok.mpr ⟨source, hsource, rfl⟩, rfl⟩⟩
  have hstroke : ∃ v, stroke.mapM r.resolveStroke = .ok v := by
    cases stroke with
    | none => exact ⟨none, rfl⟩
    | some s =>
      obtain ⟨source, hsource⟩ := resolveSource_progress (r := r) (s := s.source)
        (fun i hi => hp.gradients i (by simp [Paint.gradientIds, PaintSource.gradientId?, hi]))
        hoffsets
      have hdash : ∃ v, s.dash.mapM r.floatList = .ok v := by
        cases hd : s.dash with
        | none => exact ⟨none, rfl⟩
        | some d =>
          obtain ⟨v, -, hv⟩ := lookup_progress .floatList (hp.dash d hd)
          exact ⟨some v, option_mapM_some.mpr ⟨v, hv, rfl⟩⟩
      obtain ⟨dash, hdash⟩ := hdash
      exact ⟨_, option_mapM_some.mpr ⟨_,
        bind_eq_ok.mpr ⟨source, hsource, bind_eq_ok.mpr ⟨dash, hdash, rfl⟩⟩, rfl⟩⟩
  obtain ⟨f, hf⟩ := hfill
  obtain ⟨s, hs⟩ := hstroke
  exact ⟨_, bind_eq_ok.mpr ⟨f, hf, bind_eq_ok.mpr ⟨s, hs, rfl⟩⟩⟩

theorem resolveText_progress {leaf : TextLeaf} (htext : leaf.text.toNat < r.strings.size)
    (hfamily : ∀ id, leaf.family = some id → id.toNat < r.strings.size) :
    ∃ v, r.resolveText leaf = .ok v := by
  obtain ⟨text, -, ht⟩ := lookup_progress .string htext
  have hf : ∃ v, leaf.family.mapM r.string = .ok v := by
    cases hfam : leaf.family with
    | none => exact ⟨none, rfl⟩
    | some id =>
      obtain ⟨v, -, hv⟩ := lookup_progress .string (hfamily id hfam)
      exact ⟨some v, option_mapM_some.mpr ⟨v, hv, rfl⟩⟩
  obtain ⟨family, hf⟩ := hf
  exact ⟨_, bind_eq_ok.mpr ⟨text, ht, bind_eq_ok.mpr ⟨family, hf, rfl⟩⟩⟩

end Resources

end VectorImage
