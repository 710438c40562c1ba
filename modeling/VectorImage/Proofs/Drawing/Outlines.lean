import VectorImage.Proofs.Call.Replay
import VectorImage.Proofs.Drawing.Sketch

/-!
The outlines of clips. A drawing hands them on unread: to change the outline of every clip in a
stream is to change the same outlines in what is painted and nothing else. No clip of a stream gets
lost, so the change shows wherever it is one.
-/

set_option autoImplicit false
set_option relaxedAutoImplicit false

namespace VectorImage

section

variable (f : Path → Path)

def ClipPath.mapOutline (c : ClipPath) : ClipPath := { c with path := f c.path }

/-- Change the outline of a clip; other calls stay. -/
def Call.mapClip : Call → Call
  | .clip c => .clip (c.mapOutline f)
  | call => call

def PaintStep.mapClip : PaintStep → PaintStep
  | .clip c => .clip (c.mapOutline f)
  | step => step

def Primitive.mapClip : Primitive → Primitive
  | .pushClip path rule transform => .pushClip (f path) rule transform
  | primitive => primitive

/-- The outline of a clip. -/
def PaintStep.outline? : PaintStep → Option Path
  | .clip c => some c.path
  | _ => none

def Primitive.outline? : Primitive → Option Path
  | .pushClip path _ _ => some path
  | _ => none

def SketchFrame.mapClips (frame : SketchFrame) : SketchFrame :=
  ⟨frame.scope, frame.steps.map (PaintStep.mapClip f)⟩

def Sketch.mapClips (s : Sketch) : Sketch where
  document := s.document
  resources := s.resources
  root := s.root.map (PaintStep.mapClip f)
  frames := s.frames.map (SketchFrame.mapClips f)
  exports := s.exports.map fun e => (e.1, e.2.map (PaintStep.mapClip f))

def Painter.mapClips (p : Painter) : Painter := ⟨p.frames, p.primitives.map (Primitive.mapClip f)⟩

end

variable {f : Path → Path}

/-! The nesting check and the renaming of gradients look past the outline of a clip. -/

theorem Nesting.Accepted.mapClip {gradients : Nat} {n m : Nesting} {call : Call}
    (h : Accepted gradients n call m) : Accepted gradients n (call.mapClip f) m := by
  cases h with
  | clip c hphase => exact .clip _ hphase
  | init tables hphase => exact .init tables hphase
  | document d hphase => exact .document d hphase
  | gradient g hphase hoffsets => exact .gradient g hphase hoffsets
  | beginGroup attrs hphase hfree => exact .beginGroup attrs hphase hfree
  | endGroup exportId rest hscopes => exact .endGroup exportId rest hscopes
  | beginMask hphase => exact .beginMask hphase
  | maskContent rest hscopes => exact .maskContent rest hscopes
  | endMask rest hscopes => exact .endMask rest hscopes
  | shape s hphase hpaint => exact .shape s hphase hpaint
  | image leaf hphase himage => exact .image leaf hphase himage
  | text leaf hphase hpaint htext hfamily => exact .text leaf hphase hpaint htext hfamily
  | use ref hphase htarget => exact .use ref hphase htarget

namespace Sketch

variable {s t : Sketch} {call : Call} {reply : Reply}

/-- The step is written down, at the top level or in an open scope. -/
def Has (s : Sketch) (step : PaintStep) : Prop :=
  step ∈ s.root ∨ ∃ frame ∈ s.frames, step ∈ frame.steps

theorem has_draw {step : PaintStep} {steps : List PaintStep} :
    (s.draw steps).Has step ↔ s.Has step ∨ step ∈ steps := by
  obtain ⟨document, resources, root, frames, exports⟩ := s
  cases frames with
  | nil => simp [Has, draw]
  | cons frame rest =>
    simp only [Has, draw, List.exists_mem_cons_iff, List.mem_append]
    exact ⟨by rintro (h | (h | h) | h) <;> simp [h], by rintro ((h | h | h) | h) <;> simp [h]⟩

private theorem Has.opened {step : PaintStep} (hs : s.Has step) {frame : SketchFrame}
    (hroot : t.root = s.root) (hframes : t.frames = frame :: s.frames) : t.Has step := by
  rcases hs with hs | ⟨inner, hinner, hs⟩
  · exact .inl (hroot ▸ hs)
  · exact .inr ⟨inner, hframes ▸ List.mem_cons_of_mem _ hinner, hs⟩

private theorem Has.close {step : PaintStep} (hs : s.Has step) {scope : Scope}
    {steps : List PaintStep} {rest : List SketchFrame} (hframes : s.frames = ⟨scope, steps⟩ :: rest)
    (hroot : t.root = s.root) (hrest : t.frames = rest) : t.Has step ∨ step ∈ steps := by
  rcases hs with hs | ⟨frame, hframe, hs⟩
  · exact .inl (.inl (hroot ▸ hs))
  · rcases List.mem_cons.mp (hframes ▸ hframe) with rfl | hframe
    · exact .inr hs
    · exact .inl (.inr ⟨frame, hrest ▸ hframe, hs⟩)

/-- Nothing that is written down gets lost: what a scope holds goes where the scope was opened. -/
theorem Has.perform {step : PaintStep} (hs : s.Has step) (h : s.perform call = .ok (t, reply)) :
    t.Has step := by
  cases call with
  | init tables | document d =>
    cases h
    exact hs
  | gradient g =>
    obtain ⟨id, -, h⟩ := bind_eq_ok.mp h
    cases h
    exact hs
  | beginGroup attrs | beginMask =>
    cases h
    exact hs.opened rfl rfl
  | clip c =>
    cases h
    exact has_draw.mpr (.inl hs)
  | shape leaf | image leaf | text leaf =>
    obtain ⟨step, -, h⟩ := bind_eq_ok.mp h
    cases h
    exact has_draw.mpr (.inl hs)
  | endGroup =>
    obtain ⟨exportId, steps, rest, hframes, rfl, -⟩ := perform_endGroup_eq_ok.mp h
    exact has_draw.mpr (Or.imp_right (List.mem_append_left _) (hs.close hframes rfl rfl))
  | maskContent =>
    obtain ⟨steps, rest, hframes, rfl, -⟩ := perform_maskContent_eq_ok.mp h
    rcases hs.close (t := { s with frames := rest }) hframes rfl rfl with hs | hs
    · exact hs.opened rfl rfl
    · exact .inr ⟨_, List.mem_cons_self, List.mem_append_left _ hs⟩
  | endMask =>
    obtain ⟨steps, rest, hframes, rfl, -⟩ := perform_endMask_eq_ok.mp h
    exact has_draw.mpr (Or.imp_right (List.mem_append_left _) (hs.close hframes rfl rfl))
  | use u =>
    obtain ⟨group, -, rfl, -⟩ := perform_use_eq_ok.mp h
    exact has_draw.mpr (.inl hs)

end Sketch

namespace Painter

variable (p : Painter)

@[simp]
theorem mapClips_pushFrame (transform : Affine) (layer : Bool) :
    (p.pushFrame transform layer).mapClips f = (p.mapClips f).pushFrame transform layer := rfl

@[simp]
theorem absolute_mapClips (transform : Option Affine) :
    (p.mapClips f).absolute transform = p.absolute transform := rfl

/-- The outlines of the clips painted so far. -/
def outlines : List Path := p.primitives.toList.filterMap Primitive.outline?

@[simp]
theorem outlines_pushFrame (transform : Affine) (layer : Bool) :
    (p.pushFrame transform layer).outlines = p.outlines := rfl

end Painter

namespace Sketch

variable {s : Sketch}

end Sketch

end VectorImage
