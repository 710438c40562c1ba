import VectorImage.Proofs.Drawing.Context
import VectorImage.Proofs.View.Origin

/-!
What pruning leaves of a drawing. The steps of a painter that are left are those of the tree before,
but for whole scopes that are gone; so the primitives that are left are some of those before, in
order, and the layers, clips and mask halves around each of them are the same ones.
-/

set_option autoImplicit false
set_option relaxedAutoImplicit false

namespace VectorImage

/-- Steps that make up scopes of their own: whatever the painter, they leave no bracket open. -/
def Closed (steps : List PaintStep) : Prop :=
  ∀ p : Painter, ∃ drawn, p.Scopes (p.follow steps) drawn

/-- The steps that are left when whole scopes are taken away. -/
inductive Trims : List PaintStep → List PaintStep → Prop
  | nil : Trims [] []
  | keep (step : PaintStep) {steps kept : List PaintStep} (hrest : Trims steps kept) :
    Trims (step :: steps) (step :: kept)
  | drop {scope steps kept : List PaintStep} (hclosed : Closed scope) (hrest : Trims steps kept) :
    Trims (scope ++ steps) kept

namespace Trims

variable {steps kept steps' kept' : List PaintStep}

theorem refl (steps : List PaintStep) : Trims steps steps := by
  induction steps with
  | nil => exact .nil
  | cons step rest ih => exact .keep step ih

theorem append (h : Trims steps kept) (h' : Trims steps' kept') :
    Trims (steps ++ steps') (kept ++ kept') := by
  induction h with
  | nil => exact h'
  | keep step _ ih => exact .keep step ih
  | drop hclosed _ ih =>
    rw [List.append_assoc]
    exact .drop hclosed ih

end Trims

namespace Painter

/-- Two painters that have gone on alike: they have drawn the same and come to the same scopes. -/
def Alike (p q p' q' : Painter) : Prop :=
  ∃ drawn : List Primitive, q'.frames = p'.frames ∧
    p'.primitives.toList = p.primitives.toList ++ drawn ∧
    q'.primitives.toList = q.primitives.toList ++ drawn

variable {p q p' q' p'' q'' : Painter}

private theorem Alike.trans (h : Alike p q p' q') (h' : Alike p' q' p'' q'') :
    Alike p q p'' q'' := by
  obtain ⟨drawn, -, hp, hq⟩ := h
  obtain ⟨drawn', hframes, hp', hq'⟩ := h'
  refine ⟨drawn ++ drawn', hframes, ?_, ?_⟩
  · rw [hp', hp, List.append_assoc]
  · rw [hq', hq, List.append_assoc]

private theorem current_eq (h : q.frames = p.frames) : q.current = p.current := by
  rw [current, h, current]

private theorem absolute_eq (h : q.frames = p.frames) (t : Option Affine) :
    q.absolute t = p.absolute t := by
  rw [absolute, current_eq h, absolute]

private theorem alike_emit (h : q.frames = p.frames) (primitive : Primitive) :
    Alike p q (p.emit primitive) (q.emit primitive) :=
  ⟨[primitive], h, Array.toList_push, Array.toList_push⟩

private theorem alike_pushFrame (h : q.frames = p.frames) (t : Affine) (layer : Bool) :
    Alike p q (p.pushFrame t layer) (q.pushFrame t layer) :=
  ⟨[], congrArg (_ :: ·) h, (List.append_nil _).symm, (List.append_nil _).symm⟩

private theorem alike_popFrame (h : q.frames = p.frames) : Alike p q p.popFrame q.popFrame := by
  cases hframes : p.frames with
  | nil =>
    rw [hframes] at h
    simp only [popFrame, hframes, h]
    exact ⟨[], h.trans hframes.symm, (List.append_nil _).symm, (List.append_nil _).symm⟩
  | cons f rest =>
    rw [hframes] at h
    exact ⟨closing f, (popFrame_frames h).trans (popFrame_frames hframes).symm,
      popFrame_primitives hframes, popFrame_primitives h⟩

private theorem alike_clip (h : q.frames = p.frames) (path : Path) (rule : FillRule)
    (t : Option Affine) : Alike p q (p.clip path rule t) (q.clip path rule t) := by
  have hemit := alike_emit h (.pushClip path rule (p.absolute t))
  unfold clip
  rw [absolute_eq h]
  cases hframes : p.frames with
  | nil =>
    rw [hframes] at h
    simpa only [emit, hframes, h] using hemit
  | cons f rest =>
    rw [hframes] at h
    obtain ⟨drawn, -, hp, hq⟩ := hemit
    simp only [emit, hframes, h]
    exact ⟨drawn, rfl, hp, hq⟩

/-- What a step draws, and the scopes after it, depend on the scopes before it only. -/
theorem alike_step (h : q.frames = p.frames) (step : PaintStep) :
    Alike p q (p.step step) (q.step step) := by
  have hpop := alike_popFrame h
  cases step with
  | beginGroup transform alpha =>
    refine ⟨_, ?_, beginGroup_primitives p transform alpha, beginGroup_primitives q transform alpha⟩
    show (q.beginGroup transform alpha).frames = (p.beginGroup transform alpha).frames
    rw [beginGroup_frames, beginGroup_frames, absolute_eq h, h]
  | endGroup => exact hpop
  | beginUse transform =>
    show Alike p q (p.pushFrame _ false) (q.pushFrame _ false)
    rw [absolute_eq h]
    exact alike_pushFrame h _ _
  | endUse => exact hpop
  | clip c => exact alike_clip h c.path c.rule c.transform
  | beginMask =>
    show Alike p q ((p.emit .beginMask).pushFrame _ false) ((q.emit .beginMask).pushFrame _ false)
    rw [current_eq h]
    have hframes : (q.emit .beginMask).frames = (p.emit .beginMask).frames := h
    exact (alike_emit h .beginMask).trans (alike_pushFrame hframes _ _)
  | maskContent =>
    obtain ⟨-, hframes, -⟩ := alike_popFrame h
    have hemitted : (q.popFrame.emit .maskedContent).frames =
        (p.popFrame.emit .maskedContent).frames := hframes
    show Alike p q ((p.popFrame.emit .maskedContent).pushFrame p.popFrame.current false)
      ((q.popFrame.emit .maskedContent).pushFrame q.popFrame.current false)
    rw [current_eq hframes]
    exact (hpop.trans (alike_emit hframes _)).trans (alike_pushFrame hemitted _ _)
  | endMask =>
    obtain ⟨-, hframes, -⟩ := alike_popFrame h
    exact hpop.trans (alike_emit hframes .endMask)
  | shape geometry style transform =>
    show Alike p q (p.emit (.shape geometry style _)) (q.emit (.shape geometry style _))
    rw [absolute_eq h]
    exact alike_emit h _
  | image image dest transform =>
    show Alike p q (p.emit (.image image dest _)) (q.emit (.image image dest _))
    rw [absolute_eq h]
    exact alike_emit h _
  | text run style transform =>
    show Alike p q (p.emit (.text run style _)) (q.emit (.text run style _))
    rw [absolute_eq h]
    exact alike_emit h _

end Painter

/-- The painter `q` has drawn some of what `p` has drawn: `kept`, with the places in the whole
drawing, each in the same context. -/
structure Painter.Keeps (p q : Painter) (kept : List Placed) : Prop where
  frames : q.frames = p.frames
  primitives : kept.map Prod.fst = q.primitives.toList
  context : (Placed.inContext [] kept).Sublist
    (Placed.inContext [] p.primitives.toList.zipIdx)
  around : Placed.enterAll [] kept = Placed.enterAll [] p.primitives.toList.zipIdx

namespace Painter.Keeps

variable {p q p' q' : Painter} {kept : List Placed}

/-- Both draw the same besides. -/
theorem extend (h : p.Keeps q kept) {drawn : List Primitive} (hframes : q'.frames = p'.frames)
    (hp : p'.primitives.toList = p.primitives.toList ++ drawn)
    (hq : q'.primitives.toList = q.primitives.toList ++ drawn) :
    p'.Keeps q' (kept ++ drawn.zipIdx p.primitives.toList.length) := by
  have hzip : p'.primitives.toList.zipIdx =
      p.primitives.toList.zipIdx ++ drawn.zipIdx p.primitives.toList.length := by
    rw [hp, List.zipIdx_append, Nat.zero_add]
  refine ⟨hframes, ?_, ?_, ?_⟩
  · rw [List.map_append, h.primitives, List.zipIdx_map_fst, hq]
  · rw [hzip, Placed.inContext_append, Placed.inContext_append, h.around]
    exact h.context.append (List.Sublist.refl _)
  · rw [hzip, Placed.enterAll_append, Placed.enterAll_append, h.around]

/-- The whole drawing goes on with scopes of which nothing is kept. -/
theorem skip (h : p.Keeps q kept) {drawn : List Primitive} (hp : p.Scopes p' drawn) :
    p'.Keeps q kept := by
  have hzip : p'.primitives.toList.zipIdx =
      p.primitives.toList.zipIdx ++ drawn.zipIdx p.primitives.toList.length := by
    rw [hp.primitives, List.zipIdx_append, Nat.zero_add]
  refine ⟨h.frames.trans hp.frames.symm, h.primitives, ?_, ?_⟩
  · rw [hzip, Placed.inContext_append]
    exact h.context.trans (List.sublist_append_left _ _)
  · obtain ⟨opened, hlength, hopened⟩ := hp.closed p.primitives.toList.length
      (Placed.enterAll [] p.primitives.toList.zipIdx)
    rw [List.eq_nil_of_length_eq_zero hlength, List.nil_append] at hopened
    rw [hzip, Placed.enterAll_append, hopened, h.around]

theorem step (h : p.Keeps q kept) (step : PaintStep) :
    ∃ kept', (p.step step).Keeps (q.step step) kept' := by
  obtain ⟨drawn, hframes, hp, hq⟩ := Painter.alike_step h.frames step
  exact ⟨_, h.extend hframes hp hq⟩

/-- A painter that follows all steps and one that follows those that are left. -/
theorem follow {steps left : List PaintStep} (htrims : Trims steps left) (h : p.Keeps q kept) :
    ∃ kept', (p.follow steps).Keeps (q.follow left) kept' := by
  induction htrims generalizing p q kept with
  | nil => exact ⟨kept, h⟩
  | keep step _ ih =>
    obtain ⟨kept', hstep⟩ := h.step step
    exact ih hstep
  | drop hclosed _ ih =>
    obtain ⟨drawn, hscopes⟩ := hclosed p
    rw [Painter.follow_append]
    exact ih (h.skip hscopes)

/-- Both close what is still open. -/
theorem finish (h : p.Keeps q kept) : ∃ kept' : List Placed, kept'.map Prod.fst = q.finish ∧
    (Placed.inContext [] kept').Sublist (Placed.inContext [] p.finish.zipIdx) := by
  have hfinish (s : Painter) : s.finish = s.primitives.toList ++ s.frames.flatMap closing := by
    simp [Painter.finish]
  have hclosed : Keeps ⟨[], p.finish.toArray⟩ ⟨[], q.finish.toArray⟩ _ :=
    h.extend rfl (hfinish p) (h.frames ▸ hfinish q)
  exact ⟨_, hclosed.primitives, hclosed.context⟩

end Painter.Keeps

/-! Every node of a regular image can be drawn. -/

mutual
theorem Node.steps_progress {g : GraphImage} (hg : g.Regular) (n : Node)
    (hn : Node.finished n ⊆ Node.finishedAll g.root.children) :
    ∃ steps, Node.steps g.resources n = .ok steps := by
  have hoffsets : ∀ a ∈ g.resources.gradients,
      a.offsets.toNat < g.resources.floatLists.size := hg.offsets
  cases n with
  | group inst transform alpha exportId children =>
    rw [Node.finished] at hn
    obtain ⟨inner, hinner⟩ :=
      Node.stepsAll_progress hg children fun m hm => hn (List.mem_append_left _ hm)
    exact ⟨_, Node.steps_group_eq_ok.mpr ⟨inner, hinner, rfl⟩⟩
  | masked inst mask content =>
    rw [Node.finished, List.append_assoc] at hn
    obtain ⟨first, hfirst⟩ :=
      Node.stepsAll_progress hg mask fun m hm => hn (List.mem_append_left _ hm)
    obtain ⟨second, hsecond⟩ := Node.stepsAll_progress hg content fun m hm =>
      hn (List.mem_append_right _ (List.mem_append_left _ hm))
    exact ⟨_, Node.steps_masked_eq_ok.mpr ⟨first, second, hfirst, hsecond, rfl⟩⟩
  | clip inst path rule transform => exact ⟨_, Node.steps_clip_eq_ok.mpr rfl⟩
  | shape inst geometry paint transform =>
    have hpaint : paint.value.Within g.resources.gradients.size g.resources.floatLists.size :=
      hg.within _ (hn (Node.mem_finished_self _))
    obtain ⟨style, hstyle⟩ := Resources.resolvePaint_progress hpaint hoffsets
    exact ⟨_, Node.steps_shape_eq_ok.mpr
      ⟨_, Resources.shapeStep_eq_ok.mpr ⟨style, hstyle, rfl⟩, rfl⟩⟩
  | image inst leaf =>
    have himage : leaf.image.toNat < g.resources.images.size :=
      hg.within _ (hn (Node.mem_finished_self _))
    obtain ⟨image, -, hvalue⟩ := Resources.lookup_progress .image himage
    exact ⟨_, Node.steps_image_eq_ok.mpr
      ⟨_, Resources.imageStep_eq_ok.mpr ⟨image, hvalue, rfl⟩, rfl⟩⟩
  | text inst leaf =>
    obtain ⟨hpaint, htext, hfamily⟩ := hg.within _ (hn (Node.mem_finished_self _))
    obtain ⟨run, hrun⟩ := Resources.resolveText_progress (r := g.resources) htext hfamily
    obtain ⟨style, hstyle⟩ := Resources.resolvePaint_progress (r := g.resources) hpaint hoffsets
    exact ⟨_, Node.steps_text_eq_ok.mpr
      ⟨_, Resources.textStep_eq_ok.mpr ⟨run, style, hrun, hstyle, rfl⟩, rfl⟩⟩
  | use inst targetId target transform =>
    obtain ⟨before, after, hsplit⟩ := List.append_of_mem (hn (Node.mem_finished_self _))
    obtain ⟨hmem, -⟩ := hg.grounded before inst targetId target transform after hsplit
    have htarget : target ∈ Node.finishedAll g.root.children := by
      rw [hsplit]
      exact List.mem_append_left _ hmem
    obtain ⟨inner, hinner⟩ := Node.steps_progress hg target (Node.finishedAll_subset htarget)
    exact ⟨_, Node.steps_use_eq_ok.mpr ⟨inner, hinner, rfl⟩⟩

theorem Node.stepsAll_progress {g : GraphImage} (hg : g.Regular) (nodes : List Node)
    (hnodes : Node.finishedAll nodes ⊆ Node.finishedAll g.root.children) :
    ∃ steps, Node.stepsAll g.resources nodes = .ok steps := by
  cases nodes with
  | nil =>
    rw [Node.stepsAll]
    exact ⟨_, rfl⟩
  | cons n rest =>
    rw [Node.finishedAll_cons] at hnodes
    obtain ⟨first, hfirst⟩ :=
      Node.steps_progress hg n fun m hm => hnodes (List.mem_append_left _ hm)
    obtain ⟨more, hmore⟩ :=
      Node.stepsAll_progress hg rest fun m hm => hnodes (List.mem_append_right _ hm)
    exact ⟨_, Node.stepsAll_cons_eq_ok.mpr ⟨first, more, hfirst, hmore, rfl⟩⟩
end

/-- The steps of an enclosure: those of the nodes in it, between others that do not depend on
them. -/
theorem Enclosure.steps_node {r : Resources} {e : Enclosure} {nodes : List Node}
    {steps : List PaintStep} (h : Node.steps r (e.node nodes) = .ok steps) :
    ∃ before inner after, Node.stepsAll r nodes = .ok inner ∧
      steps = before ++ (inner ++ after) ∧
      ∀ (inst : Instance) (nodes' : List Node) (inner' : List PaintStep),
        Node.stepsAll r nodes' = .ok inner' →
          Node.steps r ((e.withInst inst).node nodes') = .ok (before ++ (inner' ++ after)) := by
  cases e with
  | group inst transform alpha exportId =>
    obtain ⟨inner, hinner, rfl⟩ := Node.steps_group_eq_ok.mp h
    refine ⟨[.beginGroup (sharedValue transform) alpha], inner, [.endGroup], hinner, rfl, ?_⟩
    intro inst' nodes' inner' hinner'
    exact Node.steps_group_eq_ok.mpr ⟨inner', hinner', rfl⟩
  | masked inst mask =>
    obtain ⟨first, inner, hfirst, hinner, rfl⟩ := Node.steps_masked_eq_ok.mp h
    refine ⟨.beginMask :: (first ++ [.maskContent]), inner, [.endMask], hinner, by simp, ?_⟩
    intro inst' nodes' inner' hinner'
    exact Node.steps_masked_eq_ok.mpr ⟨first, inner', hfirst, hinner', by simp⟩

namespace Pruning

variable {c : Pruning} {t : Affine} {nodes kept : List Node} {r : Resources}
  {steps : List PaintStep}

/-- The steps that a pass leaves of those of a list of nodes. -/
theorem Sifts.trims (h : c.Sifts t nodes kept) (hsteps : Node.stepsAll r nodes = .ok steps) :
    ∃ left, Node.stepsAll r kept = .ok left ∧ Trims steps left := by
  have hkeep {n' : Node} {kept : List Node} {first first' more left : List PaintStep}
      (hn : Node.steps r n' = .ok first') (hkept : Node.stepsAll r kept = .ok left)
      (hfirst : Trims first first') (hmore : Trims more left) :
      ∃ left', Node.stepsAll r (n' :: kept) = .ok left' ∧ Trims (first ++ more) left' :=
    ⟨_, Node.stepsAll_cons_eq_ok.mpr ⟨first', left, hn, hkept, rfl⟩, hfirst.append hmore⟩
  have hdrop {n : Node} {kept : List Node} {first more left : List PaintStep}
      (hn : Node.steps r n = .ok first) (hdraws : n.isDrawable = true)
      (hkept : Node.stepsAll r kept = .ok left) (hmore : Trims more left) :
      ∃ left', Node.stepsAll r kept = .ok left' ∧ Trims (first ++ more) left' :=
    ⟨left, hkept, .drop (Node.steps_scopes hn hdraws) hmore⟩
  induction h generalizing steps with
  | nil t => exact ⟨steps, hsteps, .refl steps⟩
  | clip _ _ ih =>
    obtain ⟨first, more, hfirst, hmore, rfl⟩ := Node.stepsAll_cons_eq_ok.mp hsteps
    obtain ⟨left, hleft, htrims⟩ := ih hmore
    exact hkeep hfirst hleft (.refl first) htrims
  | seen _ _ _ ih =>
    obtain ⟨first, more, hfirst, hmore, rfl⟩ := Node.stepsAll_cons_eq_ok.mp hsteps
    obtain ⟨left, hleft, htrims⟩ := ih hmore
    exact hkeep hfirst hleft (.refl first) htrims
  | @unseen t n _ _ hleaf _ _ ih =>
    obtain ⟨first, more, hfirst, hmore, rfl⟩ := Node.stepsAll_cons_eq_ok.mp hsteps
    obtain ⟨left, hleft, htrims⟩ := ih hmore
    have hdraws : n.isDrawable = true := by
      cases n <;> simp [Node.isLeaf, Node.isDrawable] at hleaf ⊢
    exact hdrop hfirst hdraws hleft htrims
  | whole _ _ ih =>
    obtain ⟨first, more, hfirst, hmore, rfl⟩ := Node.stepsAll_cons_eq_ok.mp hsteps
    obtain ⟨left, hleft, htrims⟩ := ih hmore
    exact hkeep hfirst hleft (.refl first) htrims
  | remade _ _ _ hremade _ ihInner ih =>
    obtain ⟨first, more, hfirst, hmore, rfl⟩ := Node.stepsAll_cons_eq_ok.mp hsteps
    obtain ⟨left, hleft, htrims⟩ := ih hmore
    obtain ⟨before, inner, after, hinner, rfl, hcopy⟩ := Enclosure.steps_node hfirst
    obtain ⟨inner', hinner', htrimsInner⟩ := ihInner hinner
    obtain ⟨inst, rfl⟩ := hremade.withInst
    refine hkeep (hcopy inst _ inner' hinner') hleft ?_ htrims
    exact (Trims.refl before).append (htrimsInner.append (.refl after))
  | barren _ _ _ _ _ ih =>
    obtain ⟨first, more, hfirst, hmore, rfl⟩ := Node.stepsAll_cons_eq_ok.mp hsteps
    obtain ⟨left, hleft, htrims⟩ := ih hmore
    exact hdrop hfirst (Enclosure.isDrawable_node _ _) hleft htrims

end Pruning

namespace GraphImage

variable {g v : GraphImage} {copies : Nat} {viewport : Rect} {tolerance : Binary64}
  {root : GraphRoot} {steps : List PaintStep}

/-- The steps that pruning leaves: some of those of the image, or none if nothing draws. -/
private theorem steps_of_prune (h : g.prune copies viewport tolerance = .ok root)
    (hsteps : Node.stepsAll g.resources g.root.children = .ok steps) :
    ∃ left, Node.stepsAll g.resources root.children = .ok left ∧
      (Trims steps left ∨ left = []) := by
  obtain ⟨c, hlast⟩ := Pruning.exists_lastPass h
  obtain ⟨inner, hinner⟩ := Pruning.sifts_pass hlast.pass
  rw [hinner.children]
  split
  · obtain ⟨left, hleft, htrims⟩ := hinner.sifts.trims hsteps
    exact ⟨left, hleft, Or.inl htrims⟩
  · exact ⟨[], by rw [Node.stepsAll], Or.inr rfl⟩

/-- A tree that can come about can be drawn. -/
theorem Reachable.steps_progress (hg : g.Reachable) :
    ∃ steps, Node.stepsAll g.resources g.root.children = .ok steps := by
  induction hg with
  | built hseed hstamp h =>
    exact Node.stepsAll_progress (regular_of_session hseed hstamp h) _ fun _ hm => hm
  | replayed hseed hstamp h =>
    exact Node.stepsAll_progress (regular_of_ofCalls hseed hstamp h) _ fun _ hm => hm
  | @viewed g hg copies viewport prune tolerance v h ih =>
    cases prune with
    | false =>
      cases h
      exact ih
    | true =>
      obtain ⟨root, hroot, h⟩ := bind_eq_ok.mp h
      cases h
      obtain ⟨steps, hsteps⟩ := ih
      obtain ⟨left, hleft, -⟩ := steps_of_prune hroot hsteps
      exact ⟨left, hleft⟩

/-- Every tree that can come about can be pruned and drawn. The primitives that are left are some
of those drawn before, in order, and around each of them the same brackets are open, that is those
that the same primitives opened. -/
theorem prunes_in_context (hg : g.Reachable) (copies : Nat) (viewport : Rect)
    (tolerance : Binary64) :
    ∃ (v : GraphImage) (source pruned : List Primitive) (kept : List Placed),
      g.withViewport copies viewport true tolerance = .ok v ∧ g.primitives = .ok source ∧
      v.primitives = .ok pruned ∧ kept.map Prod.fst = pruned ∧ kept.Sublist source.zipIdx ∧
      (Placed.inContext [] kept).Sublist (Placed.inContext [] source.zipIdx) := by
  obtain ⟨root, hroot⟩ := hg.prune_progress copies viewport tolerance
  obtain ⟨steps, hsteps⟩ := hg.steps_progress
  obtain ⟨left, hleft, htrims⟩ := steps_of_prune hroot hsteps
  have hkept : ∃ kept : List Placed, kept.map Prod.fst = (Painter.start.follow left).finish ∧
      (Placed.inContext [] kept).Sublist
        (Placed.inContext [] (Painter.start.follow steps).finish.zipIdx) := by
    rcases htrims with htrims | rfl
    · have hstart : Painter.start.Keeps .start [] := ⟨rfl, rfl, .slnil, rfl⟩
      obtain ⟨kept, hkeeps⟩ := hstart.follow htrims
      exact hkeeps.finish
    · exact ⟨[], rfl, List.nil_sublist _⟩
  obtain ⟨kept, hpruned, hcontext⟩ := hkept
  refine ⟨{ g with document := g.document.showing viewport, root := root }, _, _, kept,
    bind_eq_ok.mpr ⟨root, hroot, rfl⟩, primitives_of_steps hsteps,
    primitives_of_steps (g := { g with document := g.document.showing viewport, root := root }) hleft,
    hpruned, ?_, hcontext⟩
  have hplaces := hcontext.map Prod.fst
  rwa [Placed.map_fst_inContext, Placed.map_fst_inContext] at hplaces

end GraphImage

namespace ClippedPair

private def picture (left right : Binary64) : Call :=
  .image ⟨0, ⟨left, .zero, right, .ofNat 10⟩, none⟩

/-- A layer with two pictures under a clip, and a mask whose content is out of sight. -/
private def calls : List Call :=
  [.init ⟨[⟨1, 1, [0, 0, 0, 255]⟩], [], []⟩, .beginGroup ⟨none, 128, none⟩,
    .clip ⟨.empty, .nonZero, none⟩, picture (.ofNat 90) (.ofNat 100),
    picture .zero (.ofNat 10), .endGroup, .beginMask, picture .zero (.ofNat 10), .maskContent,
    picture (.ofNat 90) (.ofNat 100), .endMask]

private def window : Rect := ⟨.zero, .zero, .ofNat 20, .ofNat 20⟩

private theorem ofCalls_calls : ∃ g, GraphImage.ofCalls 0 false .empty calls = .ok g := by
  have haccepted : (GraphImage.ofCalls 0 false .empty calls).toBool = true := by decide +kernel
  exact toBool_eq_true.mp haccepted

end ClippedPair

namespace GraphImage

theorem prunes_in_context_clippedPair : ∃ (g v : GraphImage) (source pruned : List Primitive)
    (kept : List Placed), ofCalls 0 false .empty ClippedPair.calls = .ok g ∧
      g.withViewport 1 ClippedPair.window true .zero = .ok v ∧ g.primitives = .ok source ∧
      v.primitives = .ok pruned ∧ kept.map Prod.fst = pruned ∧
      (Placed.inContext [] kept).Sublist (Placed.inContext [] source.zipIdx) := by
  obtain ⟨g, hg⟩ := ClippedPair.ofCalls_calls
  have hreachable : g.Reachable := .replayed .empty (List.not_mem_nil : 0 ∉ []) hg
  obtain ⟨v, source, pruned, kept, hv, hsource, hpruned, hkept, -, hcontext⟩ :=
    prunes_in_context hreachable 1 ClippedPair.window .zero
  exact ⟨g, v, source, pruned, kept, hg, hv, hsource, hpruned, hkept, hcontext⟩

end GraphImage

end VectorImage
