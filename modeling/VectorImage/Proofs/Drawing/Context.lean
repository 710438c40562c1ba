import VectorImage.Graph.Image
import VectorImage.Proofs.Graph.Steps

/-!
The brackets around the primitives of a drawing: layers, clips and the halves of masks. What a
painter draws in a scope of its own closes every bracket that it opens, so the brackets around what
follows are those around what came before.
-/

set_option autoImplicit false
set_option relaxedAutoImplicit false

namespace VectorImage

/-- A primitive and its place in a drawing. -/
abbrev Placed := Primitive × Nat

/-- The brackets that are open after a primitive, innermost first, when those in `around` are open
before it. A bracket is the primitive that opened it; the content of a mask takes the place of the
mask. -/
def Placed.enter (around : List Placed) (p : Placed) : List Placed :=
  match p.1 with
  | .pushLayer _ => p :: around
  | .pushClip _ _ _ => p :: around
  | .beginMask => p :: around
  | .maskedContent => p :: around.tail
  | .popLayer => around.tail
  | .popClip => around.tail
  | .endMask => around.tail
  | .shape _ _ _ => around
  | .image _ _ _ => around
  | .text _ _ _ => around

/-- The primitives of a drawing, each with the brackets that are open around it. -/
def Placed.inContext (around : List Placed) : List Placed → List (Placed × List Placed)
  | [] => []
  | p :: rest => (p, around) :: inContext (p.enter around) rest

namespace Placed

/-- The brackets that are open after some primitives. -/
def enterAll (around : List Placed) (ps : List Placed) : List Placed := ps.foldl enter around

@[simp]
theorem enterAll_nil (around : List Placed) : enterAll around [] = around := rfl

@[simp]
theorem enterAll_cons (around : List Placed) (p : Placed) (rest : List Placed) :
    enterAll around (p :: rest) = enterAll (p.enter around) rest := rfl

@[simp]
theorem enterAll_append (around first rest : List Placed) :
    enterAll around (first ++ rest) = enterAll (enterAll around first) rest := List.foldl_append

theorem inContext_append (around first rest : List Placed) :
    inContext around (first ++ rest) =
      inContext around first ++ inContext (enterAll around first) rest := by
  induction first generalizing around with
  | nil => rfl
  | cons p first ih => rw [List.cons_append, inContext, inContext, ih, List.cons_append, enterAll_cons]

theorem map_fst_inContext (around ps : List Placed) : (inContext around ps).map Prod.fst = ps := by
  induction ps generalizing around with
  | nil => rfl
  | cons p rest ih => rw [inContext, List.map_cons, ih]

end Placed

/-- Wherever they stand, the primitives leave `count` more brackets open. -/
def LeavesOpen (count : Nat) (drawn : List Primitive) : Prop :=
  ∀ (place : Nat) (around : List Placed), ∃ opened : List Placed, opened.length = count ∧
    Placed.enterAll around (drawn.zipIdx place) = opened ++ around

/-- What is drawn in a group: in a layer, unless the group is opaque. -/
def layered (alpha : UInt8) (inner : List Primitive) : List Primitive :=
  if alpha = 255 then inner else .pushLayer alpha :: (inner ++ [.popLayer])

/-- A mask and the content that is seen through it. -/
def maskedBy (mask content : List Primitive) : List Primitive :=
  .beginMask :: (mask ++ .maskedContent :: (content ++ [.endMask]))

section LeavesOpen

variable {count more : Nat} {drawn rest : List Primitive}

theorem leavesOpen_nil : LeavesOpen 0 [] := fun _ _ => ⟨[], rfl, rfl⟩

theorem LeavesOpen.append (h : LeavesOpen count drawn) (h' : LeavesOpen more rest) :
    LeavesOpen (count + more) (drawn ++ rest) := by
  intro place around
  obtain ⟨opened, rfl, hopened⟩ := h place around
  obtain ⟨opened', rfl, hopened'⟩ := h' (place + drawn.length) (opened ++ around)
  refine ⟨opened' ++ opened, by rw [List.length_append, Nat.add_comm], ?_⟩
  rw [List.zipIdx_append, Placed.enterAll_append, hopened, hopened', List.append_assoc]

/-- As many clips are closed as have been left open. -/
theorem LeavesOpen.popClips (h : LeavesOpen count drawn) :
    LeavesOpen 0 (drawn ++ List.replicate count .popClip) := by
  have hpop (n place : Nat) (opened around : List Placed) (hlength : opened.length = n) :
      Placed.enterAll (opened ++ around) ((List.replicate n Primitive.popClip).zipIdx place) =
        around := by
    induction n generalizing opened place with
    | zero =>
      rw [List.eq_nil_of_length_eq_zero hlength]
      rfl
    | succ n ih =>
      obtain ⟨p, opened, rfl⟩ := List.exists_cons_of_length_eq_add_one hlength
      rw [List.replicate_succ, List.zipIdx_cons, Placed.enterAll_cons]
      exact ih (place + 1) opened (Nat.succ.inj hlength)
  intro place around
  obtain ⟨opened, hlength, hopened⟩ := h place around
  refine ⟨[], rfl, ?_⟩
  rw [List.zipIdx_append, Placed.enterAll_append, hopened, hpop count _ opened around hlength]
  rfl

/-- What leaves no bracket open leaves none open between two primitives of which the second closes
what the first opens. -/
theorem LeavesOpen.between (h : LeavesOpen 0 drawn) {first last : Primitive}
    (hpair : ∀ (i j : Nat) (around : List Placed),
      Placed.enter (Placed.enter around (first, i)) (last, j) = around) :
    LeavesOpen 0 (first :: (drawn ++ [last])) := by
  intro place around
  obtain ⟨opened, hlength, hopened⟩ := h (place + 1) (Placed.enter around (first, place))
  rw [List.eq_nil_of_length_eq_zero hlength, List.nil_append] at hopened
  refine ⟨[], rfl, ?_⟩
  rw [List.zipIdx_cons, Placed.enterAll_cons, List.zipIdx_append, Placed.enterAll_append, hopened]
  exact hpair _ _ around

/-- A group closes the layer that it opens. -/
theorem LeavesOpen.layered (h : LeavesOpen 0 drawn) (alpha : UInt8) :
    LeavesOpen 0 (layered alpha drawn) := by
  unfold VectorImage.layered
  split
  · exact h
  · exact h.between fun _ _ _ => rfl

/-- A mask and its content between their brackets. -/
theorem LeavesOpen.mask {mask content : List Primitive} (hmask : LeavesOpen 0 mask)
    (hcontent : LeavesOpen 0 content) :
    LeavesOpen 0 (maskedBy mask content) := by
  unfold maskedBy
  intro place around
  obtain ⟨opened, hlength, hopened⟩ := hmask (place + 1) ((.beginMask, place) :: around)
  rw [List.eq_nil_of_length_eq_zero hlength, List.nil_append] at hopened
  obtain ⟨opened', hlength', hopened'⟩ := hcontent (place + 1 + mask.length + 1)
    ((.maskedContent, place + 1 + mask.length) :: around)
  rw [List.eq_nil_of_length_eq_zero hlength', List.nil_append] at hopened'
  refine ⟨[], rfl, ?_⟩
  simp only [List.zipIdx_cons, List.zipIdx_append, Placed.enterAll_cons, Placed.enterAll_append]
  simp only [Placed.enter] at hopened hopened' ⊢
  rw [hopened]
  simp only [List.tail_cons]
  rw [hopened']
  rfl

theorem leavesOpen_clip (path : Path) (rule : FillRule) (t : Affine) :
    LeavesOpen 1 [.pushClip path rule t] := fun place _ =>
  ⟨[(.pushClip path rule t, place)], rfl, rfl⟩

end LeavesOpen

namespace Painter

/-- A painter that has drawn more; its scopes are as they were, and so are the brackets that are
open. -/
structure Scopes (p q : Painter) (drawn : List Primitive) : Prop where
  frames : q.frames = p.frames
  primitives : q.primitives.toList = p.primitives.toList ++ drawn
  closed : LeavesOpen 0 drawn

/-- A painter that has gone on in its innermost scope `f`: it has drawn more, and of the brackets
that it opened it has left open the clips, which the scope will close. -/
structure Continues (p q : Painter) (f : PaintFrame) (rest : List PaintFrame) (clips : Nat)
    (drawn : List Primitive) : Prop where
  frames : q.frames = { f with clips := f.clips + clips } :: rest
  primitives : q.primitives.toList = p.primitives.toList ++ drawn
  leavesOpen : LeavesOpen clips drawn

variable {p q s : Painter} {f : PaintFrame} {rest : List PaintFrame}

theorem Continues.refl (hp : p.frames = f :: rest) : Continues p p f rest 0 [] :=
  ⟨hp, (List.append_nil _).symm, leavesOpen_nil⟩

theorem Scopes.continues {drawn : List Primitive} (h : Scopes p q drawn)
    (hp : p.frames = f :: rest) : Continues p q f rest 0 drawn :=
  ⟨h.frames.trans hp, h.primitives, h.closed⟩

theorem Continues.trans {clips more : Nat} {drawn drawn' : List Primitive}
    (h : Continues p q f rest clips drawn)
    (h' : Continues q s { f with clips := f.clips + clips } rest more drawn') :
    Continues p s f rest (clips + more) (drawn ++ drawn') := by
  refine ⟨?_, ?_, h.leavesOpen.append h'.leavesOpen⟩
  · rw [h'.frames, Nat.add_assoc]
  · rw [h'.primitives, h.primitives, List.append_assoc]

theorem popFrame_frames (h : q.frames = f :: rest) : q.popFrame.frames = rest := by
  simp [popFrame, h]

theorem popFrame_primitives (h : q.frames = f :: rest) :
    q.popFrame.primitives.toList = q.primitives.toList ++ closing f := by
  simp [popFrame, h]

/-- A primitive that is no bracket. -/
theorem scopes_emit {primitive : Primitive} (h : LeavesOpen 0 [primitive]) :
    Scopes p (p.emit primitive) [primitive] :=
  ⟨rfl, Array.toList_push, h⟩

/-- Closing a scope closes its clips and its layer. -/
private theorem Continues.close {t : Affine} {layer : Bool} {clips : Nat} {drawn : List Primitive}
    (h : Continues p q ⟨t, layer, 0⟩ rest clips drawn) :
    q.popFrame.frames = rest ∧
      q.popFrame.primitives.toList = p.primitives.toList ++
        ((drawn ++ List.replicate clips .popClip) ++ if layer then [.popLayer] else []) := by
  refine ⟨popFrame_frames h.frames, ?_⟩
  rw [popFrame_primitives h.frames, h.primitives, closing, Nat.zero_add, List.append_assoc,
    List.append_assoc]

theorem beginGroup_frames (p : Painter) (transform : Option Affine) (alpha : UInt8) :
    (p.beginGroup transform alpha).frames =
      ⟨p.absolute transform, alpha != 255, 0⟩ :: p.frames := by
  simp only [beginGroup]
  split <;> rfl

theorem beginGroup_primitives (p : Painter) (transform : Option Affine) (alpha : UInt8) :
    (p.beginGroup transform alpha).primitives.toList =
      p.primitives.toList ++ if alpha != 255 then [.pushLayer alpha] else [] := by
  simp only [beginGroup]
  split
  · exact Array.toList_push
  · exact (List.append_nil _).symm

/-- A group that is begun, filled and ended. -/
theorem scopes_group (transform : Option Affine) (alpha : UInt8) {clips : Nat}
    {drawn : List Primitive}
    (h : Continues (p.beginGroup transform alpha) q ⟨p.absolute transform, alpha != 255, 0⟩
      p.frames clips drawn) :
    Scopes p q.endGroup (layered alpha (drawn ++ List.replicate clips .popClip)) := by
  obtain ⟨hframes, hprimitives⟩ := h.close
  rw [beginGroup_primitives] at hprimitives
  refine ⟨hframes, hprimitives.trans ?_, h.leavesOpen.popClips.layered alpha⟩
  unfold layered
  by_cases halpha : alpha = 255 <;> simp [halpha]

/-- A use whose target is drawn. -/
theorem scopes_use (transform : Option Affine) {clips : Nat} {drawn : List Primitive}
    (h : Continues (p.beginUse transform) q ⟨p.absolute transform, false, 0⟩ p.frames clips drawn) :
    Scopes p q.endUse (drawn ++ List.replicate clips .popClip) := by
  obtain ⟨hframes, hprimitives⟩ := h.close
  refine ⟨hframes, hprimitives.trans ?_, h.leavesOpen.popClips⟩
  simp [beginUse, pushFrame]

/-- After the mask the content has the frame that the mask had. -/
theorem maskContent_frames {clips : Nat} {drawn : List Primitive}
    (h : Continues p.beginMask q ⟨p.current, false, 0⟩ p.frames clips drawn) :
    q.maskContent.frames = ⟨p.current, false, 0⟩ :: p.frames := by
  have hframes := popFrame_frames h.frames
  have hcurrent : q.popFrame.current = p.current := by rw [current, hframes, current]
  show ⟨q.popFrame.current, false, 0⟩ :: q.popFrame.frames = _
  rw [hcurrent, hframes]

/-- A mask and its content. -/
theorem scopes_mask {middle : Painter} {clips more : Nat} {mask content : List Primitive}
    (h : Continues p.beginMask middle ⟨p.current, false, 0⟩ p.frames clips mask)
    (h' : Continues middle.maskContent q ⟨p.current, false, 0⟩ p.frames more content) :
    Scopes p q.endMask (maskedBy (mask ++ List.replicate clips .popClip)
      (content ++ List.replicate more .popClip)) := by
  obtain ⟨-, hmask⟩ := h.close
  obtain ⟨hframes, hcontent⟩ := h'.close
  have hfirst : p.beginMask.primitives.toList = p.primitives.toList ++ [.beginMask] :=
    Array.toList_push
  have hmiddle : middle.maskContent.primitives.toList =
      middle.popFrame.primitives.toList ++ [.maskedContent] := Array.toList_push
  have hlast : q.endMask.primitives.toList = q.popFrame.primitives.toList ++ [.endMask] :=
    Array.toList_push
  refine ⟨hframes, ?_, h.leavesOpen.popClips.mask h'.leavesOpen.popClips⟩
  rw [hlast, hcontent, hmiddle, hmask, hfirst]
  simp [maskedBy]

/-- A clip is left to the scope around it to close. -/
theorem continues_clip (c : ClipPath) (hp : p.frames = f :: rest) :
    Continues p (p.step (.clip c)) f rest 1 [.pushClip c.path c.rule (p.absolute c.transform)] := by
  refine ⟨?_, ?_, leavesOpen_clip c.path c.rule (p.absolute c.transform)⟩
  · simp [step, clip, emit, hp]
  · simp [step, clip, emit, hp]

end Painter

/-- A clip goes on in the scope around it, and so does what has a scope of its own. -/
private theorem Node.continues_of_scopes {r : Resources} {n : Node} {steps : List PaintStep}
    (h : Node.steps r n = .ok steps) {p : Painter} {f : PaintFrame} {rest : List PaintFrame}
    (hp : p.frames = f :: rest)
    (hscopes : n.isDrawable = true → ∃ drawn, p.Scopes (p.follow steps) drawn) :
    ∃ clips drawn, p.Continues (p.follow steps) f rest clips drawn := by
  cases n with
  | clip inst path rule transform =>
    obtain rfl := Node.steps_clip_eq_ok.mp h
    exact ⟨1, _, Painter.continues_clip ⟨path.value, rule, sharedValue transform⟩ hp⟩
  | _ =>
    obtain ⟨drawn, hdrawn⟩ := hscopes rfl
    exact ⟨0, drawn, hdrawn.continues hp⟩

/-! Whatever is drawn for a node that is not a clip, no bracket is left open. -/

mutual
theorem Node.steps_scopes {r : Resources} {n : Node} {steps : List PaintStep}
    (h : Node.steps r n = .ok steps) (hdraws : n.isDrawable = true) (p : Painter) :
    ∃ drawn, p.Scopes (p.follow steps) drawn := by
  cases n with
  | group inst transform alpha exportId children =>
    obtain ⟨inner, hinner, rfl⟩ := Node.steps_group_eq_ok.mp h
    obtain ⟨clips, drawn, hcontinues⟩ := Node.stepsAll_continues hinner
      (p.beginGroup_frames (sharedValue transform) alpha)
    exact ⟨_, by simpa [Painter.step] using Painter.scopes_group _ _ hcontinues⟩
  | clip inst path rule transform => cases hdraws
  | masked inst mask content =>
    obtain ⟨first, second, hfirst, hsecond, rfl⟩ := Node.steps_masked_eq_ok.mp h
    have hopened : p.beginMask.frames = ⟨p.current, false, 0⟩ :: p.frames := rfl
    obtain ⟨clips, drawn, hmask⟩ := Node.stepsAll_continues hfirst hopened
    obtain ⟨more, drawn', hcontent⟩ :=
      Node.stepsAll_continues hsecond (Painter.maskContent_frames hmask)
    exact ⟨_, by simpa [Painter.step] using Painter.scopes_mask hmask hcontent⟩
  | shape inst geometry paint transform =>
    obtain ⟨step, hstep, rfl⟩ := Node.steps_shape_eq_ok.mp h
    obtain ⟨style, -, rfl⟩ := Resources.shapeStep_eq_ok.mp hstep
    exact ⟨_, Painter.scopes_emit fun _ _ => ⟨[], rfl, rfl⟩⟩
  | image inst leaf =>
    obtain ⟨step, hstep, rfl⟩ := Node.steps_image_eq_ok.mp h
    obtain ⟨image, -, rfl⟩ := Resources.imageStep_eq_ok.mp hstep
    exact ⟨_, Painter.scopes_emit fun _ _ => ⟨[], rfl, rfl⟩⟩
  | text inst leaf =>
    obtain ⟨step, hstep, rfl⟩ := Node.steps_text_eq_ok.mp h
    obtain ⟨run, style, -, -, rfl⟩ := Resources.textStep_eq_ok.mp hstep
    exact ⟨_, Painter.scopes_emit fun _ _ => ⟨[], rfl, rfl⟩⟩
  | use inst targetId target transform =>
    obtain ⟨inner, hinner, rfl⟩ := Node.steps_use_eq_ok.mp h
    have hopened : (p.beginUse (sharedValue transform)).frames =
        ⟨p.absolute (sharedValue transform), false, 0⟩ :: p.frames := rfl
    obtain ⟨clips, drawn, hcontinues⟩ := Node.continues_of_scopes hinner hopened
      (fun htarget => Node.steps_scopes hinner htarget _)
    exact ⟨_, by simpa [Painter.step] using Painter.scopes_use _ hcontinues⟩

theorem Node.stepsAll_continues {r : Resources} {nodes : List Node} {steps : List PaintStep}
    (h : Node.stepsAll r nodes = .ok steps) {p : Painter} {f : PaintFrame}
    {rest : List PaintFrame} (hp : p.frames = f :: rest) :
    ∃ clips drawn, p.Continues (p.follow steps) f rest clips drawn := by
  cases nodes with
  | nil =>
    rw [Node.stepsAll] at h
    cases h
    exact ⟨0, [], .refl hp⟩
  | cons n more =>
    obtain ⟨first, second, hfirst, hsecond, rfl⟩ := Node.stepsAll_cons_eq_ok.mp h
    obtain ⟨clips, drawn, hn⟩ := Node.continues_of_scopes hfirst hp
      (fun hdraws => Node.steps_scopes hfirst hdraws p)
    obtain ⟨clips', drawn', hmore⟩ := Node.stepsAll_continues hsecond hn.frames
    rw [Painter.follow_append]
    exact ⟨_, _, hn.trans hmore⟩
end

end VectorImage
