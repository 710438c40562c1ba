import Mathlib.Data.List.Forall2
import VectorImage.Proofs.Drawing.Sketch

/-!
Sketches of streams that differ by a renaming. They hold the same steps, scope by scope and group
by group, the groups under corresponding names.
-/

set_option autoImplicit false
set_option relaxedAutoImplicit false

namespace VectorImage

/-- Open scopes whose names correspond. -/
inductive Scope.Renames (ρ : Renaming) : Scope → Scope → Prop
  | group {i j : Option StringId} (h : Option.Rel ρ.strings i j) :
    Renames ρ (.group i) (.group j)
  | mask : Renames ρ .mask .mask
  | maskContent : Renames ρ .maskContent .maskContent

/-- Frames of corresponding scopes that hold the same steps. -/
structure SketchFrame.Echoes (ρ : Renaming) (f g : SketchFrame) : Prop where
  scope : f.scope.Renames ρ g.scope
  steps : f.steps = g.steps

/-- A group under corresponding names. -/
structure SameGroup (ρ : Renaming) (x y : StringId × List PaintStep) : Prop where
  name : ρ.strings x.1 y.1
  steps : x.2 = y.2

namespace Sketch

/-- Two sketches hold the same drawing, up to a renaming of the values behind it. -/
structure Echoes (ρ : Renaming) (s s' : Sketch) : Prop where
  matching : ρ.Matches s.resources s'.resources
  root : s.root = s'.root
  frames : List.Forall₂ (SketchFrame.Echoes ρ) s.frames s'.frames
  exports : List.Forall₂ (SameGroup ρ) s.exports s'.exports

variable {ρ : Renaming} {s s' t t' : Sketch}

/-- Other tables, and names that correspond as before. -/
theorem Echoes.retable (h : Echoes ρ s s') {σ : Renaming} (hstrings : σ.strings = ρ.strings)
    {r r' : Resources} (hmatching : σ.Matches r r') :
    Echoes σ { s with resources := r } { s' with resources := r' } := by
  refine ⟨hmatching, h.root, h.frames.imp fun f g hfg => ⟨?_, hfg.steps⟩,
    h.exports.imp fun x y hxy => ⟨?_, hxy.steps⟩⟩
  · obtain ⟨scope, steps⟩ := f
    obtain ⟨scope', steps'⟩ := g
    obtain ⟨hscope, -⟩ := hfg
    cases hscope with
    | group hname =>
      rw [← hstrings] at hname
      exact .group hname
    | mask => exact .mask
    | maskContent => exact .maskContent
  · rw [hstrings]
    exact hxy.name

/-- Drawing the same steps on both sides. -/
theorem Echoes.draw (h : Echoes ρ s s') (steps : List PaintStep) :
    Echoes ρ (s.draw steps) (s'.draw steps) := by
  obtain ⟨document, resources, root, frames, exports⟩ := s
  obtain ⟨document', resources', root', frames', exports'⟩ := s'
  obtain ⟨hmatching, hroot, hframes, hexports⟩ := h
  cases hframes with
  | nil => exact ⟨hmatching, congrArg (· ++ steps) hroot, .nil, hexports⟩
  | cons hf hrest =>
    exact ⟨hmatching, hroot, .cons ⟨hf.scope, congrArg (· ++ steps) hf.steps⟩ hrest, hexports⟩

theorem Echoes.openScope (h : Echoes ρ s s') {scope scope' : Scope}
    (hscope : scope.Renames ρ scope') (step : PaintStep) :
    Echoes ρ (s.openScope scope step) (s'.openScope scope' step) :=
  ⟨h.matching, h.root, .cons ⟨hscope, rfl⟩ h.frames, h.exports⟩

/-- The innermost scopes correspond. -/
private theorem Echoes.innermost (h : Echoes ρ s s') {scope : Scope} {steps : List PaintStep}
    {rest : List SketchFrame} (hframes : s.frames = ⟨scope, steps⟩ :: rest) :
    ∃ scope' rest', s'.frames = ⟨scope', steps⟩ :: rest' ∧ scope.Renames ρ scope' ∧
      List.Forall₂ (SketchFrame.Echoes ρ) rest rest' := by
  have hall := h.frames
  rw [hframes] at hall
  obtain ⟨⟨scope', steps'⟩, rest', ⟨hscope, rfl⟩, hrest, hframes'⟩ :=
    List.forall₂_cons_left_iff.mp hall
  exact ⟨scope', rest', hframes', hscope, hrest⟩

/-- A group under a name is the group under the corresponding name, as long as the names of the
other side are distinct. -/
private theorem lookup_sameGroup {l l' : List (StringId × List PaintStep)}
    (h : List.Forall₂ (SameGroup ρ) l l') (hdistinct : (l'.map Prod.fst).Nodup)
    (hfunctional : ∀ i j k, ρ.strings i j → ρ.strings i k → j = k) {i j : StringId}
    (hij : ρ.strings i j) {group : List PaintStep} (hgroup : l.lookup i = some group) :
    l'.lookup j = some group := by
  induction h with
  | nil => cases hgroup
  | @cons x y rest rest' hxy _ ih =>
    obtain ⟨name, steps⟩ := x
    obtain ⟨name', steps'⟩ := y
    obtain ⟨hname, rfl⟩ := hxy
    obtain ⟨hfresh, hdistinct⟩ := List.nodup_cons.mp hdistinct
    by_cases hi : i = name
    · subst hi
      obtain rfl := hfunctional _ _ _ hij hname
      rw [List.lookup_cons_self] at hgroup ⊢
      exact hgroup
    · rw [List.lookup_cons, beq_eq_false_iff_ne.mpr hi] at hgroup
      have hrest := ih hdistinct hgroup
      have hj : j ≠ name' := by
        rintro rfl
        exact hfresh (List.mem_map.mpr ⟨_, mem_of_lookup hrest, rfl⟩)
      rw [List.lookup_cons, beq_eq_false_iff_ne.mpr hj]
      exact hrest

/-- Calls of the tree that differ by the renaming do the same to both sketches; gradients are
registered differently and stand apart. -/
theorem Echoes.perform (h : Echoes ρ s s') (hdistinct : (s'.exports.map Prod.fst).Nodup)
    (hfunctional : ∀ i j k, ρ.strings i j → ρ.strings i k → j = k) {call call' : Call}
    (hne : ∀ g, call ≠ .gradient g) (hrenames : call.Renames ρ call') {reply reply' : Reply}
    (hperform : s.perform call = .ok (t, reply)) (hperform' : s'.perform call' = .ok (t', reply')) :
    Echoes ρ t t' := by
  cases hrenames with
  | gradient _ => exact absurd rfl (hne _)
  | beginGroup htransform halpha hexport =>
    cases hperform
    cases hperform'
    rw [htransform, halpha]
    exact h.openScope (.group hexport) _
  | endGroup =>
    obtain ⟨exportId, steps, rest, hframes, rfl, -⟩ := perform_endGroup_eq_ok.mp hperform
    obtain ⟨exportId', steps', rest', hframes', rfl, -⟩ := perform_endGroup_eq_ok.mp hperform'
    obtain ⟨scope, outer, hinnermost, hscope, hrest⟩ := h.innermost hframes
    cases hframes'.symm.trans hinnermost
    cases hscope with
    | group hname =>
      have hexports : List.Forall₂ (SameGroup ρ)
          (exportId.toList.map (fun id => (id, steps ++ [.endGroup])) ++ s.exports)
          (exportId'.toList.map (fun id => (id, steps ++ [.endGroup])) ++ s'.exports) := by
        cases hname with
        | none => exact h.exports
        | some hij => exact .cons ⟨hij, rfl⟩ h.exports
      have hclosed : Echoes ρ ⟨s.document, s.resources, s.root, rest, _⟩
          ⟨s'.document, s'.resources, s'.root, rest', _⟩ :=
        ⟨h.matching, h.root, hrest, hexports⟩
      exact hclosed.draw _
  | clip c =>
    cases hperform
    cases hperform'
    exact h.draw _
  | beginMask =>
    cases hperform
    cases hperform'
    exact h.openScope .mask _
  | maskContent =>
    obtain ⟨steps, rest, hframes, rfl, -⟩ := perform_maskContent_eq_ok.mp hperform
    obtain ⟨steps', rest', hframes', rfl, -⟩ := perform_maskContent_eq_ok.mp hperform'
    obtain ⟨scope, outer, hinnermost, -, hrest⟩ := h.innermost hframes
    cases hframes'.symm.trans hinnermost
    exact ⟨h.matching, h.root, .cons ⟨.maskContent, rfl⟩ hrest, h.exports⟩
  | endMask =>
    obtain ⟨steps, rest, hframes, rfl, -⟩ := perform_endMask_eq_ok.mp hperform
    obtain ⟨steps', rest', hframes', rfl, -⟩ := perform_endMask_eq_ok.mp hperform'
    obtain ⟨scope, outer, hinnermost, -, hrest⟩ := h.innermost hframes
    cases hframes'.symm.trans hinnermost
    have hclosed : Echoes ρ { s with frames := rest } { s' with frames := rest' } :=
      ⟨h.matching, h.root, hrest, h.exports⟩
    exact hclosed.draw _
  | shape hgeometry hpaint htransform =>
    obtain ⟨step, hstep, hperform⟩ := bind_eq_ok.mp hperform
    rw [Sketch.perform, Resources.shapeStep_renames h.matching hgeometry hpaint htransform hstep]
      at hperform'
    cases hperform
    cases hperform'
    exact h.draw _
  | image himage hdest htransform =>
    obtain ⟨step, hstep, hperform⟩ := bind_eq_ok.mp hperform
    rw [Sketch.perform, Resources.imageStep_renames h.matching himage hdest htransform hstep]
      at hperform'
    cases hperform
    cases hperform'
    exact h.draw _
  | text hleaf =>
    obtain ⟨step, hstep, hperform⟩ := bind_eq_ok.mp hperform
    rw [Sketch.perform, Resources.textStep_renames h.matching hleaf hstep] at hperform'
    cases hperform
    cases hperform'
    exact h.draw _
  | @use u v htarget htransform =>
    obtain ⟨group, hgroup, rfl, -⟩ := perform_use_eq_ok.mp hperform
    obtain ⟨group', hgroup', rfl, -⟩ := perform_use_eq_ok.mp hperform'
    have hsame := lookup_sameGroup h.exports hdistinct hfunctional htarget hgroup
    cases hgroup'.symm.trans hsame
    rw [htransform]
    exact h.draw _

end Sketch

end VectorImage
