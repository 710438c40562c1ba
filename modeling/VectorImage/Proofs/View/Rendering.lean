import VectorImage.Proofs.View.Trimming

/-!
What a tree draws, said by recursion over the tree and without a stack: groups and uses draw what
is in them, a group that is not opaque in a layer; a clip lies around everything after it in its
list of nodes; a mask and its content lie between their brackets; and whatever is drawn is placed
by the product of the transforms on the path to it. The painter draws exactly this, for every tree
that can come about, and what it draws is nested properly.
-/

set_option autoImplicit false
set_option relaxedAutoImplicit false

namespace VectorImage

/-- The product of the maps on a path and of the map at its end, where there is one: from left to
right, starting from the identity. -/
def Affine.along (path : List Affine) (own : Option Affine) : Affine :=
  (path ++ own.toList).foldl (· * ·) .identity

theorem Affine.along_eq (path : List Affine) (own : Option Affine) :
    along path own = (along path none).after own := by
  cases own with
  | none => rfl
  | some t =>
    simp only [along, Option.toList, List.append_nil, List.foldl_append]
    rfl

theorem Affine.along_append (path : List Affine) (own : Option Affine) :
    along (path ++ own.toList) none = (along path none).after own := by
  rw [← along_eq]
  simp only [along, Option.toList, List.append_nil]

/-! The brackets of the drawing. -/

/-- What is drawn under a clip. -/
def clipped (path : List Affine) (outline : Path) (rule : FillRule) (own : Option Affine)
    (inner : List Primitive) : List Primitive :=
  .pushClip outline rule (.along path own) :: (inner ++ [.popClip])

/-! What a node draws when `path` is the list of transforms around it, outermost first. -/

mutual
def Node.render (r : Resources) (path : List Affine) : Node → Except Error (List Primitive)
  | .group _ transform alpha _ children => do
    let inner ← Node.renderAll r (path ++ (sharedValue transform).toList) children
    return layered alpha inner
  | .use _ _ target transform => Node.render r (path ++ (sharedValue transform).toList) target
  | .clip _ outline rule transform =>
    return clipped path outline.value rule (sharedValue transform) []
  | .masked _ mask content => do
    let first ← Node.renderAll r path mask
    let second ← Node.renderAll r path content
    return maskedBy first second
  | .shape _ geometry paint transform => do
    let style ← r.resolvePaint paint.value
    return [.shape geometry.value style (.along path (sharedValue transform))]
  | .image _ leaf => do
    let image ← r.image leaf.image
    return [.image image leaf.dest (.along path leaf.transform)]
  | .text _ leaf => do
    let run ← r.resolveText leaf
    let style ← r.resolvePaint leaf.paint
    return [.text run style (.along path leaf.transform)]

/-- A clip lies around all that follows it. -/
def Node.renderAll (r : Resources) (path : List Affine) :
    List Node → Except Error (List Primitive)
  | [] => return []
  | .clip _ outline rule transform :: rest => do
    let inner ← Node.renderAll r path rest
    return clipped path outline.value rule (sharedValue transform) inner
  | n :: rest => do
    let first ← Node.render r path n
    let more ← Node.renderAll r path rest
    return first ++ more
end

/-- Layers, clips and masks that are nested properly and all closed. -/
inductive Balanced : List Primitive → Prop
  | nil : Balanced []
  | shape (geometry : Geometry) (style : Style) (t : Affine) : Balanced [.shape geometry style t]
  | image (image : Raster) (dest : Rect) (t : Affine) : Balanced [.image image dest t]
  | text (run : ResolvedText) (style : Style) (t : Affine) : Balanced [.text run style t]
  | layer {inner : List Primitive} (alpha : UInt8) (h : Balanced inner) :
    Balanced (.pushLayer alpha :: (inner ++ [.popLayer]))
  | clip {inner : List Primitive} (outline : Path) (rule : FillRule) (t : Affine)
      (h : Balanced inner) : Balanced (.pushClip outline rule t :: (inner ++ [.popClip]))
  | mask {first second : List Primitive} (hmask : Balanced first) (hcontent : Balanced second) :
    Balanced (.beginMask :: (first ++ .maskedContent :: (second ++ [.endMask])))
  | append {first rest : List Primitive} (h : Balanced first) (h' : Balanced rest) :
    Balanced (first ++ rest)

theorem Balanced.layered {inner : List Primitive} (h : Balanced inner) (alpha : UInt8) :
    Balanced (layered alpha inner) := by
  unfold VectorImage.layered
  split
  · exact h
  · exact .layer alpha h

namespace Node

variable {r : Resources} {path : List Affine}

/-- A node draws in its own place, unless it is a clip. -/
theorem isDrawable_or_clip (n : Node) : n.isDrawable = true ∨
    ∃ inst outline rule transform, n = .clip inst outline rule transform := by
  cases n with
  | clip inst outline rule transform => exact Or.inr ⟨inst, outline, rule, transform, rfl⟩
  | _ => exact Or.inl rfl

theorem renderAll_clip {inst : Instance} {outline : Shared Path} {rule : FillRule}
    {transform : Option (Shared Affine)} {rest : List Node} {inner : List Primitive}
    (h : renderAll r path rest = .ok inner) :
    renderAll r path (.clip inst outline rule transform :: rest) =
      .ok (clipped path outline.value rule (sharedValue transform) inner) := by
  rw [renderAll]
  exact bind_eq_ok.mpr ⟨inner, h, rfl⟩

theorem renderAll_cons {n : Node} (hdraws : n.isDrawable = true) (rest : List Node) :
    renderAll r path (n :: rest) = (do
      let first ← render r path n
      let more ← renderAll r path rest
      return first ++ more) := by
  rw [renderAll]
  rintro inst outline rule transform rfl
  cases hdraws

end Node

mutual
theorem Node.balanced_render {r : Resources} {path : List Affine} {n : Node}
    {drawn : List Primitive} (h : Node.render r path n = .ok drawn) : Balanced drawn := by
  cases n with
  | group inst transform alpha exportId children =>
    rw [Node.render] at h
    obtain ⟨inner, hinner, h⟩ := bind_eq_ok.mp h
    cases h
    exact (Node.balanced_renderAll hinner).layered alpha
  | use inst targetId target transform =>
    rw [Node.render] at h
    exact Node.balanced_render h
  | clip inst outline rule transform =>
    rw [Node.render] at h
    cases h
    exact .clip _ _ _ .nil
  | masked inst mask content =>
    rw [Node.render] at h
    obtain ⟨first, hfirst, h⟩ := bind_eq_ok.mp h
    obtain ⟨second, hsecond, h⟩ := bind_eq_ok.mp h
    cases h
    exact .mask (Node.balanced_renderAll hfirst) (Node.balanced_renderAll hsecond)
  | shape inst geometry paint transform =>
    rw [Node.render] at h
    obtain ⟨style, -, h⟩ := bind_eq_ok.mp h
    cases h
    exact .shape _ _ _
  | image inst leaf =>
    rw [Node.render] at h
    obtain ⟨image, -, h⟩ := bind_eq_ok.mp h
    cases h
    exact .image _ _ _
  | text inst leaf =>
    rw [Node.render] at h
    obtain ⟨run, -, h⟩ := bind_eq_ok.mp h
    obtain ⟨style, -, h⟩ := bind_eq_ok.mp h
    cases h
    exact .text _ _ _

theorem Node.balanced_renderAll {r : Resources} {path : List Affine} {nodes : List Node}
    {drawn : List Primitive} (h : Node.renderAll r path nodes = .ok drawn) : Balanced drawn := by
  cases nodes with
  | nil =>
    rw [Node.renderAll] at h
    cases h
    exact .nil
  | cons n rest =>
    rcases n.isDrawable_or_clip with hdraws | ⟨inst, outline, rule, transform, rfl⟩
    · rw [Node.renderAll_cons hdraws] at h
      obtain ⟨first, hfirst, h⟩ := bind_eq_ok.mp h
      obtain ⟨more, hmore, h⟩ := bind_eq_ok.mp h
      cases h
      exact (Node.balanced_render hfirst).append (Node.balanced_renderAll hmore)
    · rw [Node.renderAll] at h
      obtain ⟨inner, hinner, h⟩ := bind_eq_ok.mp h
      cases h
      exact .clip _ _ _ (Node.balanced_renderAll hinner)
end

namespace Painter

variable {p : Painter} {path : List Affine}

/-- In a scope that is placed by the path, a transform is placed at the end of the path. -/
theorem absolute_along (hp : p.current = .along path none) (own : Option Affine) :
    p.absolute own = .along path own := by
  rw [absolute, hp, ← Affine.along_eq]

/-- The scope that is opened with a transform is placed by the path that the transform extends. -/
theorem absolute_extended (hp : p.current = .along path none) (own : Option Affine) :
    p.absolute own = .along (path ++ own.toList) none := by
  rw [absolute_along hp, Affine.along_eq, Affine.along_append]

end Painter

/-! A painter that follows the steps of a node draws what the node draws under the transforms of
the scopes that are open. -/

/-- In the innermost scope a clip stays open, and what has a scope of its own does not. -/
private theorem Node.rendered_of_scopes {r : Resources} {path : List Affine} {n : Node}
    {steps : List PaintStep} (h : Node.steps r n = .ok steps) {p : Painter} {f : PaintFrame}
    {outer : List PaintFrame} (hp : p.frames = f :: outer) (hcurrent : p.current = .along path none)
    (hscopes : n.isDrawable = true →
      ∃ drawn, Node.render r path n = .ok drawn ∧ p.Scopes (p.follow steps) drawn) :
    ∃ clips drawn, Node.render r path n = .ok (drawn ++ List.replicate clips .popClip) ∧
      p.Continues (p.follow steps) f outer clips drawn := by
  rcases n.isDrawable_or_clip with hdraws | ⟨inst, outline, rule, own, rfl⟩
  · obtain ⟨drawn, hdrawn, hscopes⟩ := hscopes hdraws
    exact ⟨0, drawn, by rw [hdrawn, List.replicate_zero, List.append_nil], hscopes.continues hp⟩
  · obtain rfl := Node.steps_clip_eq_ok.mp h
    refine ⟨1, _, ?_, Painter.continues_clip ⟨outline.value, rule, sharedValue own⟩ hp⟩
    rw [Node.render, Painter.absolute_along hcurrent]
    rfl

mutual
theorem Node.render_of_steps {r : Resources} {path : List Affine} {n : Node}
    {steps : List PaintStep} (h : Node.steps r n = .ok steps) (hdraws : n.isDrawable = true)
    {p : Painter} (hp : p.current = .along path none) :
    ∃ drawn, Node.render r path n = .ok drawn ∧ p.Scopes (p.follow steps) drawn := by
  cases n with
  | group inst transform alpha exportId children =>
    obtain ⟨inner, hinner, rfl⟩ := Node.steps_group_eq_ok.mp h
    obtain ⟨clips, drawn, hdrawn, hcontinues⟩ := Node.renderAll_of_steps hinner
      (p.beginGroup_frames (sharedValue transform) alpha) (Painter.absolute_extended hp _)
    refine ⟨_, ?_, by simpa [Painter.step] using Painter.scopes_group _ _ hcontinues⟩
    rw [Node.render]
    exact bind_eq_ok.mpr ⟨_, hdrawn, rfl⟩
  | clip inst outline rule transform => cases hdraws
  | masked inst mask content =>
    obtain ⟨first, second, hfirst, hsecond, rfl⟩ := Node.steps_masked_eq_ok.mp h
    have hopened : p.beginMask.frames = ⟨p.current, false, 0⟩ :: p.frames := rfl
    obtain ⟨clips, drawn, hmask, hcontinues⟩ := Node.renderAll_of_steps hfirst hopened hp
    obtain ⟨more, drawn', hcontent, hcontinues'⟩ :=
      Node.renderAll_of_steps hsecond (Painter.maskContent_frames hcontinues) hp
    refine ⟨_, ?_, by simpa [Painter.step] using Painter.scopes_mask hcontinues hcontinues'⟩
    rw [Node.render]
    exact bind_eq_ok.mpr ⟨_, hmask, bind_eq_ok.mpr ⟨_, hcontent, rfl⟩⟩
  | shape inst geometry paint transform =>
    obtain ⟨step, hstep, rfl⟩ := Node.steps_shape_eq_ok.mp h
    obtain ⟨style, hstyle, rfl⟩ := Resources.shapeStep_eq_ok.mp hstep
    rw [Node.render, ← Painter.absolute_along hp]
    exact ⟨_, bind_eq_ok.mpr ⟨style, hstyle, rfl⟩, Painter.scopes_emit fun _ _ => ⟨[], rfl, rfl⟩⟩
  | image inst leaf =>
    obtain ⟨step, hstep, rfl⟩ := Node.steps_image_eq_ok.mp h
    obtain ⟨image, himage, rfl⟩ := Resources.imageStep_eq_ok.mp hstep
    rw [Node.render, ← Painter.absolute_along hp]
    exact ⟨_, bind_eq_ok.mpr ⟨image, himage, rfl⟩, Painter.scopes_emit fun _ _ => ⟨[], rfl, rfl⟩⟩
  | text inst leaf =>
    obtain ⟨step, hstep, rfl⟩ := Node.steps_text_eq_ok.mp h
    obtain ⟨run, style, hrun, hstyle, rfl⟩ := Resources.textStep_eq_ok.mp hstep
    rw [Node.render, ← Painter.absolute_along hp]
    exact ⟨_, bind_eq_ok.mpr ⟨run, hrun, bind_eq_ok.mpr ⟨style, hstyle, rfl⟩⟩,
      Painter.scopes_emit fun _ _ => ⟨[], rfl, rfl⟩⟩
  | use inst targetId target transform =>
    obtain ⟨inner, hinner, rfl⟩ := Node.steps_use_eq_ok.mp h
    have hopened : (p.beginUse (sharedValue transform)).frames =
        ⟨p.absolute (sharedValue transform), false, 0⟩ :: p.frames := rfl
    have hscope : (p.beginUse (sharedValue transform)).current =
        .along (path ++ (sharedValue transform).toList) none := Painter.absolute_extended hp _
    obtain ⟨clips, drawn, hdrawn, hcontinues⟩ := Node.rendered_of_scopes hinner hopened hscope
      (fun htarget => Node.render_of_steps hinner htarget hscope)
    refine ⟨_, ?_, by simpa [Painter.step] using Painter.scopes_use _ hcontinues⟩
    rw [Node.render, hdrawn]

theorem Node.renderAll_of_steps {r : Resources} {path : List Affine} {nodes : List Node}
    {steps : List PaintStep} (h : Node.stepsAll r nodes = .ok steps) {p : Painter} {f : PaintFrame}
    {outer : List PaintFrame} (hp : p.frames = f :: outer)
    (hf : f.transform = .along path none) :
    ∃ clips drawn, Node.renderAll r path nodes = .ok (drawn ++ List.replicate clips .popClip) ∧
      p.Continues (p.follow steps) f outer clips drawn := by
  have hcurrent : p.current = .along path none := by rw [Painter.current, hp, ← hf]
  cases nodes with
  | nil =>
    rw [Node.stepsAll] at h
    cases h
    refine ⟨0, [], ?_, .refl hp⟩
    rw [Node.renderAll]
    rfl
  | cons n rest =>
    obtain ⟨first, more, hfirst, hmore, rfl⟩ := Node.stepsAll_cons_eq_ok.mp h
    rw [Painter.follow_append]
    rcases n.isDrawable_or_clip with hdraws | ⟨inst, outline, rule, own, rfl⟩
    · obtain ⟨drawn, hdrawn, hscopes⟩ := Node.render_of_steps hfirst hdraws hcurrent
      have hcontinues := hscopes.continues hp
      obtain ⟨clips, drawn', hdrawn', hrest⟩ := Node.renderAll_of_steps hmore hcontinues.frames hf
      refine ⟨_, _, ?_, hcontinues.trans hrest⟩
      rw [Node.renderAll_cons hdraws, Nat.zero_add, List.append_assoc]
      exact bind_eq_ok.mpr ⟨_, hdrawn, bind_eq_ok.mpr ⟨_, hdrawn', rfl⟩⟩
    · obtain rfl := Node.steps_clip_eq_ok.mp hfirst
      have hcontinues := Painter.continues_clip ⟨outline.value, rule, sharedValue own⟩ hp
      obtain ⟨clips, drawn', hdrawn', hrest⟩ := Node.renderAll_of_steps hmore hcontinues.frames hf
      refine ⟨_, _, ?_, hcontinues.trans hrest⟩
      rw [Node.renderAll_clip hdrawn', Painter.absolute, hcurrent, ← Affine.along_eq]
      simp [clipped, Nat.add_comm 1, List.replicate_succ']
end

namespace GraphImage

variable {g : GraphImage}

/-- The drawing of a tree is what the tree renders, and it is balanced. Every tree that can come
about has one: groups and uses contribute what is in them, in order; a group that is not opaque
draws in a layer; a clip lasts to the end of the group, mask, content or root that it is in; a mask
and its content stand between their brackets; and every primitive is placed by the product, from
left to right and from the identity on, of the transforms of the groups and uses around it and of
its own. -/
theorem renders_balanced (hg : g.Reachable) : ∃ drawn : List Primitive,
    g.primitives = .ok drawn ∧ Node.renderAll g.resources [] g.root.children = .ok drawn ∧
      Balanced drawn := by
  obtain ⟨steps, hsteps⟩ := hg.steps_progress
  have hroot : (⟨.identity, false, 0⟩ : PaintFrame).transform = .along [] none := rfl
  obtain ⟨clips, drawn, hdrawn, hcontinues⟩ :=
    Node.renderAll_of_steps hsteps (p := .start) rfl hroot
  refine ⟨_, ?_, hdrawn, Node.balanced_renderAll hdrawn⟩
  have hfinish : (Painter.start.follow steps).finish = drawn ++ List.replicate clips .popClip := by
    rw [Painter.finish, hcontinues.frames, Array.toList_appendList, hcontinues.primitives]
    simp [Painter.start, Painter.closing]
  rw [primitives_of_steps hsteps, hfinish]

end GraphImage

/-! A translucent badge under a clip, used through two transforms beside a mask. -/

namespace ClippedBadge

private def picture (right : Binary64) : Call :=
  .image ⟨0, ⟨.zero, .zero, right, .ofNat 10⟩, some (.scale (.ofNat 3) .one)⟩

private def clip : Call := .clip ⟨.empty, .evenOdd, some (.translate .one .one)⟩

private def calls : List Call :=
  [.init ⟨[⟨1, 1, [0, 0, 0, 255]⟩], ["badge"], []⟩,
    .beginGroup ⟨some (.scale (.ofNat 2) .one), 128, some 0⟩, clip, picture (.ofNat 10), clip,
    picture (.ofNat 5), .endGroup, .beginGroup ⟨some (.translate .one .zero), 255, none⟩, clip,
    .use ⟨0, some (.scale .one (.ofNat 2))⟩, .endGroup, clip, .beginMask, clip,
    picture (.ofNat 10), .maskContent, picture (.ofNat 10), .endMask]

private def window : Rect := ⟨.zero, .zero, .ofNat 20, .ofNat 20⟩

private theorem ofCalls_calls : ∃ g, GraphImage.ofCalls 0 true .empty calls = .ok g := by
  have haccepted : (GraphImage.ofCalls 0 true .empty calls).toBool = true := by decide +kernel
  exact toBool_eq_true.mp haccepted

end ClippedBadge

namespace GraphImage

theorem renders_balanced_clippedBadge : ∃ (g v : GraphImage) (source drawn : List Primitive),
    ofCalls 0 true .empty ClippedBadge.calls = .ok g ∧
      g.withViewport 1 ClippedBadge.window true .zero = .ok v ∧ g.primitives = .ok source ∧
      Balanced source ∧ v.primitives = .ok drawn ∧
      Node.renderAll v.resources [] v.root.children = .ok drawn ∧ Balanced drawn := by
  obtain ⟨g, hg⟩ := ClippedBadge.ofCalls_calls
  have hreachable : g.Reachable := .replayed .empty (List.not_mem_nil : 0 ∉ []) hg
  obtain ⟨root, hroot⟩ := hreachable.prune_progress 1 ClippedBadge.window .zero
  have hview : g.withViewport 1 ClippedBadge.window true .zero =
      .ok { g with document := g.document.showing ClippedBadge.window, root := root } :=
    bind_eq_ok.mpr ⟨root, hroot, rfl⟩
  obtain ⟨source, hsource, -, hbalanced⟩ := renders_balanced hreachable
  obtain ⟨drawn, hdrawn, hrender, hbalanced'⟩ := renders_balanced (.viewed hreachable hview)
  exact ⟨g, _, source, drawn, hg, hview, hsource, hbalanced, hdrawn, hrender, hbalanced'⟩

end GraphImage

end VectorImage
