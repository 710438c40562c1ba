import VectorImage.Image
import VectorImage.Proofs.Drawing.Coverage
import VectorImage.Proofs.Graph.Identity
import VectorImage.Proofs.View.Trimming

/-!
What a tree is measured to be and what is drawn of it. The extent of a node is the union of the
extents of the primitives that are drawn for it, those in mask halves left out, whatever scope it
is drawn in. So a tree without masks extends as far as its drawing.
-/

set_option autoImplicit false
set_option relaxedAutoImplicit false

namespace VectorImage

/-- The resolved style of a paint has the stroke of the paint. -/
theorem Resources.strokeWidth_of_resolvePaint {r : Resources} {paint : Paint} {style : Style}
    (h : r.resolvePaint paint = .ok style) : style.strokeWidth = paint.strokeWidth := by
  obtain ⟨fill, -, h⟩ := bind_eq_ok.mp h
  obtain ⟨stroke, hstroke, h⟩ := bind_eq_ok.mp h
  cases h
  unfold Style.strokeWidth Paint.strokeWidth
  cases hs : paint.stroke with
  | none =>
    rw [hs] at hstroke
    cases hstroke
    rfl
  | some s =>
    rw [hs] at hstroke
    obtain ⟨resolved, hresolved, rfl⟩ := option_mapM_some.mp hstroke
    obtain ⟨source, -, hresolved⟩ := bind_eq_ok.mp hresolved
    obtain ⟨dash, -, hresolved⟩ := bind_eq_ok.mp hresolved
    cases hresolved
    rfl

namespace Node

variable {r : Resources} {t : Affine}

/-- What is covered before a list is united with the extent of the list. -/
theorem boundsAll_cover (covered : Option Rect) (nodes : List Node) :
    boundsAll r t covered nodes = Rect.cover covered <$> boundsAll r t none nodes := by
  induction nodes generalizing covered with
  | nil =>
    rw [boundsAll, boundsAll]
    rfl
  | cons n rest ih =>
    rw [boundsAll, boundsAll]
    cases bounds r t n with
    | error e => rfl
    | ok own =>
      cases own with
      | none => exact ih covered
      | some b =>
        show boundsAll r t (some (Rect.unionOption covered b)) rest =
          Rect.cover covered <$> boundsAll r t (some b) rest
        rw [ih, ih (some b)]
        cases boundsAll r t none rest with
        | error e => rfl
        | ok more => exact congrArg Except.ok (Rect.cover_assoc covered (some b) more)

theorem boundsAll_cons {n : Node} {rest : List Node} {own more : Option Rect}
    (hn : bounds r t n = .ok own) (hrest : boundsAll r t none rest = .ok more) :
    boundsAll r t none (n :: rest) = .ok (Rect.cover own more) := by
  rw [boundsAll, hn]
  cases own with
  | none => exact hrest.trans (congrArg Except.ok (Rect.none_cover more).symm)
  | some b => exact (boundsAll_cover (some b) rest).trans (by rw [hrest]; rfl)

end Node

/-- In the innermost scope a node covers what it does in a scope of its own, and a clip nothing. -/
private theorem Node.covers_of_scopes {r : Resources} {n : Node} {steps : List PaintStep}
    (h : Node.steps r n = .ok steps) {p : Painter} {f : PaintFrame} {outer : List PaintFrame}
    (hp : p.frames = f :: outer)
    (hscopes : n.isDrawable = true → ∃ drawn extent, p.Scopes (p.follow steps) drawn ∧
      Node.bounds r f.transform n = .ok extent ∧ Covers drawn extent) :
    ∃ clips drawn extent, p.Continues (p.follow steps) f outer clips drawn ∧
      Node.bounds r f.transform n = .ok extent ∧ Covers drawn extent := by
  cases n with
  | clip inst path rule transform =>
    obtain rfl := Node.steps_clip_eq_ok.mp h
    exact ⟨1, _, none, Painter.continues_clip ⟨path.value, rule, sharedValue transform⟩ hp,
      by rw [Node.bounds], .clip ..⟩
  | _ =>
    obtain ⟨drawn, extent, hdrawn, hextent, hcovers⟩ := hscopes rfl
    exact ⟨0, drawn, extent, hdrawn.continues hp, hextent, hcovers⟩

/-! A painter that follows the steps of a node draws what covers the extent of the node under the
transform of the innermost scope. -/

mutual
theorem Node.covers_of_steps {r : Resources} {n : Node} {steps : List PaintStep}
    (h : Node.steps r n = .ok steps) (hdraws : n.isDrawable = true) (p : Painter) :
    ∃ drawn extent, p.Scopes (p.follow steps) drawn ∧ Node.bounds r p.current n = .ok extent ∧
      Covers drawn extent := by
  cases n with
  | group inst transform alpha exportId children =>
    obtain ⟨inner, hinner, rfl⟩ := Node.steps_group_eq_ok.mp h
    obtain ⟨clips, drawn, extent, hcontinues, hextent, hcovers⟩ := Node.coversAll_of_steps hinner
      (p.beginGroup_frames (sharedValue transform) alpha)
    exact ⟨_, extent, by simpa [Painter.step] using Painter.scopes_group _ _ hcontinues,
      by rw [Node.bounds]; exact hextent,
      (hcovers.popClips hcontinues.leavesOpen).layered hcontinues.leavesOpen.popClips alpha⟩
  | clip inst path rule transform => cases hdraws
  | masked inst mask content =>
    obtain ⟨first, second, hfirst, hsecond, rfl⟩ := Node.steps_masked_eq_ok.mp h
    have hopened : p.beginMask.frames = ⟨p.current, false, 0⟩ :: p.frames := rfl
    obtain ⟨clips, drawn, extent, hmask, -, hcovers⟩ := Node.coversAll_of_steps hfirst hopened
    obtain ⟨more, drawn', extent', hcontent, hextent', hcovers'⟩ :=
      Node.coversAll_of_steps hsecond (Painter.maskContent_frames hmask)
    exact ⟨_, extent', by simpa [Painter.step] using Painter.scopes_mask hmask hcontent,
      by rw [Node.bounds]; exact hextent',
      (hcovers.popClips hmask.leavesOpen).masked (hcovers'.popClips hcontent.leavesOpen)
        hmask.leavesOpen.popClips hcontent.leavesOpen.popClips⟩
  | shape inst geometry paint transform =>
    obtain ⟨step, hstep, rfl⟩ := Node.steps_shape_eq_ok.mp h
    obtain ⟨style, hstyle, rfl⟩ := Resources.shapeStep_eq_ok.mp hstep
    refine ⟨_, _, Painter.scopes_emit fun _ _ => ⟨[], rfl, rfl⟩, ?_, .single fun _ _ => rfl⟩
    rw [Node.bounds, Primitive.bounds, Resources.strokeWidth_of_resolvePaint hstyle]
    rfl
  | image inst leaf =>
    obtain ⟨step, hstep, rfl⟩ := Node.steps_image_eq_ok.mp h
    obtain ⟨image, -, rfl⟩ := Resources.imageStep_eq_ok.mp hstep
    refine ⟨_, _, Painter.scopes_emit fun _ _ => ⟨[], rfl, rfl⟩, ?_, .single fun _ _ => rfl⟩
    rw [Node.bounds]
    rfl
  | text inst leaf =>
    obtain ⟨step, hstep, rfl⟩ := Node.steps_text_eq_ok.mp h
    obtain ⟨run, style, hrun, hstyle, rfl⟩ := Resources.textStep_eq_ok.mp hstep
    obtain ⟨text, htext, hrun⟩ := bind_eq_ok.mp hrun
    obtain ⟨family, -, rfl⟩ := bind_pure_eq_ok.mp hrun
    refine ⟨_, _, Painter.scopes_emit fun _ _ => ⟨[], rfl, rfl⟩, ?_, .single fun _ _ => rfl⟩
    rw [Node.bounds, Primitive.bounds, Resources.strokeWidth_of_resolvePaint hstyle]
    exact bind_eq_ok.mpr ⟨text, htext, rfl⟩
  | use inst targetId target transform =>
    obtain ⟨inner, hinner, rfl⟩ := Node.steps_use_eq_ok.mp h
    have hopened : (p.beginUse (sharedValue transform)).frames =
        ⟨p.absolute (sharedValue transform), false, 0⟩ :: p.frames := rfl
    obtain ⟨clips, drawn, extent, hcontinues, hextent, hcovers⟩ :=
      Node.covers_of_scopes hinner hopened fun htarget => Node.covers_of_steps hinner htarget _
    exact ⟨_, extent, by simpa [Painter.step] using Painter.scopes_use _ hcontinues,
      by rw [Node.bounds]; exact hextent, hcovers.popClips hcontinues.leavesOpen⟩

theorem Node.coversAll_of_steps {r : Resources} {nodes : List Node} {steps : List PaintStep}
    (h : Node.stepsAll r nodes = .ok steps) {p : Painter} {f : PaintFrame}
    {outer : List PaintFrame} (hp : p.frames = f :: outer) :
    ∃ clips drawn extent, p.Continues (p.follow steps) f outer clips drawn ∧
      Node.boundsAll r f.transform none nodes = .ok extent ∧ Covers drawn extent := by
  cases nodes with
  | nil =>
    rw [Node.stepsAll] at h
    cases h
    exact ⟨0, [], none, .refl hp, by rw [Node.boundsAll], .nil⟩
  | cons n rest =>
    obtain ⟨first, more, hfirst, hmore, rfl⟩ := Node.stepsAll_cons_eq_ok.mp h
    have hcurrent : p.current = f.transform := by rw [Painter.current, hp]
    obtain ⟨clips, drawn, extent, hcontinues, hextent, hcovers⟩ :=
      Node.covers_of_scopes hfirst hp fun hdraws =>
        hcurrent ▸ Node.covers_of_steps hfirst hdraws p
    obtain ⟨clips', drawn', extent', hcontinues', hextent', hcovers'⟩ :=
      Node.coversAll_of_steps hmore hcontinues.frames
    exact ⟨_, _, _, by rw [Painter.follow_append]; exact hcontinues.trans hcontinues',
      Node.boundsAll_cons hextent hextent', hcovers.append hcovers'⟩
end

/-! What is in a node that can be drawn can be drawn by itself. -/

mutual
theorem Node.steps_of_mem_items {r : Resources} {n : Node} {steps : List PaintStep}
    (h : Node.steps r n = .ok steps) {m : Node} (hm : .node m ∈ n.items) :
    ∃ steps, Node.steps r m = .ok steps := by
  have hself : m = n → ∃ steps, Node.steps r m = .ok steps := fun hmn => ⟨steps, hmn ▸ h⟩
  cases n with
  | group inst transform alpha exportId children =>
    obtain ⟨inner, hinner, -⟩ := Node.steps_group_eq_ok.mp h
    rw [Node.items, List.mem_cons, List.mem_append] at hm
    rcases hm with hm | hm | hm
    · exact hself (Item.node.inj hm)
    · exact absurd hm (node_not_mem_transformItems m transform)
    · exact Node.steps_of_mem_itemsAll hinner hm
  | clip inst path rule transform =>
    rw [Node.items, List.mem_cons, List.mem_cons] at hm
    rcases hm with hm | hm | hm
    · exact hself (Item.node.inj hm)
    · cases hm
    · exact absurd hm (node_not_mem_transformItems m transform)
  | masked inst mask content =>
    obtain ⟨first, second, hfirst, hsecond, -⟩ := Node.steps_masked_eq_ok.mp h
    rw [Node.items, List.mem_cons, List.mem_append] at hm
    rcases hm with hm | hm | hm
    · exact hself (Item.node.inj hm)
    · exact Node.steps_of_mem_itemsAll hfirst hm
    · exact Node.steps_of_mem_itemsAll hsecond hm
  | shape inst geometry paint transform =>
    rw [Node.items, List.mem_cons, List.mem_cons, List.mem_append] at hm
    rcases hm with hm | hm | hm | hm
    · exact hself (Item.node.inj hm)
    · cases hm
    · exact absurd hm (geometry.node_not_mem_items m)
    · exact absurd hm (node_not_mem_transformItems m transform)
  | image inst leaf =>
    rw [Node.items, List.mem_singleton] at hm
    exact hself (Item.node.inj hm)
  | text inst leaf =>
    rw [Node.items, List.mem_singleton] at hm
    exact hself (Item.node.inj hm)
  | use inst targetId target transform =>
    obtain ⟨inner, hinner, -⟩ := Node.steps_use_eq_ok.mp h
    rw [Node.items, List.mem_cons, List.mem_append] at hm
    rcases hm with hm | hm | hm
    · exact hself (Item.node.inj hm)
    · exact absurd hm (node_not_mem_transformItems m transform)
    · exact Node.steps_of_mem_items hinner hm

theorem Node.steps_of_mem_itemsAll {r : Resources} {nodes : List Node} {steps : List PaintStep}
    (h : Node.stepsAll r nodes = .ok steps) {m : Node} (hm : .node m ∈ Node.itemsAll nodes) :
    ∃ steps, Node.steps r m = .ok steps := by
  cases nodes with
  | nil =>
    rw [Node.itemsAll] at hm
    cases hm
  | cons n rest =>
    obtain ⟨first, more, hfirst, hmore, -⟩ := Node.stepsAll_cons_eq_ok.mp h
    rw [Node.itemsAll, List.mem_append] at hm
    rcases hm with hm | hm
    · exact Node.steps_of_mem_items hfirst hm
    · exact Node.steps_of_mem_itemsAll hmore hm
end

/-! A mask is begun only for a masked node. -/

/-- The node among the items. -/
def Item.node? : Item → Option Node
  | .node n => some n
  | _ => none

namespace Node

def isMasked : Node → Bool
  | .masked _ _ _ => true
  | _ => false

/-- No node is a masked one. -/
def Maskless (items : List Item) : Prop := ∀ m, .node m ∈ items → m.isMasked = false

instance : DecidablePred Maskless := fun items =>
  decidable_of_iff (∀ a ∈ items, ∀ m ∈ a.node?, m.isMasked = false)
    ⟨fun h m hm => h _ hm m rfl, fun h a ha m hm => by
      cases a with
      | node n => exact Option.some.inj hm ▸ h n ha
      | _ => cases hm⟩

theorem Maskless.mono {items items' : List Item} (h : Maskless items) (hsub : items' ⊆ items) :
    Maskless items' := fun m hm => h m (hsub hm)

end Node

mutual
theorem Node.no_mask_of_steps {r : Resources} {n : Node} {steps : List PaintStep}
    (h : Node.steps r n = .ok steps) (hn : Node.Maskless n.items) : .beginMask ∉ steps := by
  cases n with
  | group inst transform alpha exportId children =>
    obtain ⟨inner, hinner, rfl⟩ := Node.steps_group_eq_ok.mp h
    rw [Node.items] at hn
    have hchildren := Node.no_mask_of_stepsAll hinner
      (hn.mono (List.subset_cons_of_subset _ (List.subset_append_right ..)))
    simpa using hchildren
  | clip inst path rule transform =>
    obtain rfl := Node.steps_clip_eq_ok.mp h
    simp
  | masked inst mask content => cases hn _ (Node.self_mem_items _)
  | shape inst geometry paint transform =>
    obtain ⟨step, hstep, rfl⟩ := Node.steps_shape_eq_ok.mp h
    obtain ⟨style, -, rfl⟩ := Resources.shapeStep_eq_ok.mp hstep
    simp
  | image inst leaf =>
    obtain ⟨step, hstep, rfl⟩ := Node.steps_image_eq_ok.mp h
    obtain ⟨image, -, rfl⟩ := Resources.imageStep_eq_ok.mp hstep
    simp
  | text inst leaf =>
    obtain ⟨step, hstep, rfl⟩ := Node.steps_text_eq_ok.mp h
    obtain ⟨run, style, -, -, rfl⟩ := Resources.textStep_eq_ok.mp hstep
    simp
  | use inst targetId target transform =>
    obtain ⟨inner, hinner, rfl⟩ := Node.steps_use_eq_ok.mp h
    rw [Node.items] at hn
    have htarget := Node.no_mask_of_steps hinner
      (hn.mono (List.subset_cons_of_subset _ (List.subset_append_right ..)))
    simpa using htarget

theorem Node.no_mask_of_stepsAll {r : Resources} {nodes : List Node} {steps : List PaintStep}
    (h : Node.stepsAll r nodes = .ok steps) (hnodes : Node.Maskless (Node.itemsAll nodes)) :
    .beginMask ∉ steps := by
  cases nodes with
  | nil =>
    rw [Node.stepsAll] at h
    cases h
    exact List.not_mem_nil
  | cons n rest =>
    obtain ⟨first, more, hfirst, hmore, rfl⟩ := Node.stepsAll_cons_eq_ok.mp h
    rw [Node.itemsAll] at hnodes
    rw [List.mem_append, not_or]
    exact ⟨Node.no_mask_of_steps hfirst (hnodes.mono (List.subset_append_left ..)),
      Node.no_mask_of_stepsAll hmore (hnodes.mono (List.subset_append_right ..))⟩
end

namespace Painter

theorem no_mask_closing (f : PaintFrame) : .beginMask ∉ closing f := by
  unfold closing
  split <;> simp

theorem no_mask_popFrame {p : Painter} (h : .beginMask ∉ p.primitives.toList) :
    .beginMask ∉ p.popFrame.primitives.toList := by
  unfold popFrame
  split
  · exact h
  · simpa using ⟨by simpa using h, no_mask_closing _⟩

theorem no_mask_step {p : Painter} (h : .beginMask ∉ p.primitives.toList) {step : PaintStep}
    (hstep : step ≠ .beginMask) : .beginMask ∉ (p.step step).primitives.toList := by
  cases step with
  | beginMask => exact absurd rfl hstep
  | endGroup => exact no_mask_popFrame h
  | endUse => exact no_mask_popFrame h
  | beginGroup transform alpha =>
    rw [Painter.step, beginGroup_primitives]
    split <;> simpa using h
  | beginUse transform => exact h
  | clip c =>
    rw [Painter.step, clip]
    split <;> simpa [emit] using h
  | maskContent => simpa [Painter.step, maskContent, emit, pushFrame] using no_mask_popFrame h
  | endMask => simpa [Painter.step, endMask, emit] using no_mask_popFrame h
  | shape geometry style transform => simpa [Painter.step, emit] using h
  | image image dest transform => simpa [Painter.step, emit] using h
  | text run style transform => simpa [Painter.step, emit] using h

theorem no_mask_follow {p : Painter} (h : .beginMask ∉ p.primitives.toList)
    {steps : List PaintStep} (hsteps : .beginMask ∉ steps) :
    .beginMask ∉ (p.follow steps).primitives.toList := by
  induction steps generalizing p with
  | nil => exact h
  | cons step rest ih =>
    rw [List.mem_cons, not_or] at hsteps
    exact ih (no_mask_step h (Ne.symm hsteps.1)) hsteps.2

end Painter

namespace GraphImage

variable {g : GraphImage}

/-- The root extends as far as what is drawn outside mask halves. -/
theorem Reachable.bounds_root (hg : g.Reachable) : ∃ (drawn : List Primitive) (extent : Option Rect),
    g.primitives = .ok drawn ∧ g.root.toNode.bounds g.resources .identity = .ok extent ∧
      drawingBounds (outsideMasks drawn) = extent ∧ (Node.Maskless g.items → .beginMask ∉ drawn) := by
  obtain ⟨steps, hsteps⟩ := hg.steps_progress
  obtain ⟨clips, drawn, extent, hcontinues, hextent, hcovers⟩ :=
    Node.coversAll_of_steps hsteps (p := .start) rfl
  have hfinish : (Painter.start.follow steps).finish = drawn ++ List.replicate clips .popClip := by
    rw [Painter.finish, hcontinues.frames, Array.toList_appendList, hcontinues.primitives]
    simp [Painter.start, Painter.closing]
  refine ⟨_, extent, primitives_of_steps hsteps, ?_, ?_, fun hmaskless => ?_⟩
  · rw [GraphRoot.toNode, Node.bounds]
    exact hextent
  · rw [hfinish]
    exact (hcovers.popClips hcontinues.leavesOpen).outsideMasks
  · have hdrawn := Painter.no_mask_follow (p := .start) List.not_mem_nil
      (Node.no_mask_of_stepsAll hsteps hmaskless)
    have hempty : Painter.start.primitives.toList = [] := rfl
    rw [hcontinues.primitives, hempty, List.nil_append] at hdrawn
    rw [hfinish, List.mem_append, not_or]
    exact ⟨hdrawn, by simp⟩

/-- What a node of an image is measured to be is what is drawn of it. In any innermost scope a node
can be drawn and measured, and its extent under the transform of the scope is the union, in paint
order, of the extents of the primitives drawn outside mask halves; there is none just where none of
those has one. So an image without masks extends as far as its root. -/
theorem measures_drawing (hg : g.Reachable) :
    (∀ n : Node, .node n ∈ g.root.toNode.items →
      ∀ (p : Painter) (f : PaintFrame) (outer : List PaintFrame), p.frames = f :: outer →
        ∃ (q : Painter) (drawn : List Primitive) (extent : Option Rect),
          n.draw g.resources p = .ok q ∧
          q.primitives.toList = p.primitives.toList ++ drawn ∧
          n.bounds g.resources f.transform = .ok extent ∧
          extent = drawingBounds (outsideMasks drawn) ∧
          (extent = none ↔ ∀ d ∈ outsideMasks drawn, d.bounds = none)) ∧
    (Node.Maskless g.items → ∃ extent : Option Rect,
      g.root.toNode.bounds g.resources .identity = .ok extent ∧
        (Image.graph g).bounds = .ok extent) := by
  refine ⟨fun n hn p f outer hp => ?_, fun hmaskless => ?_⟩
  · obtain ⟨inner, hinner⟩ := hg.steps_progress
    have hroot : Node.steps g.resources g.root.toNode =
        .ok (.beginGroup none 255 :: (inner ++ [.endGroup])) :=
      Node.steps_group_eq_ok.mpr ⟨inner, hinner, rfl⟩
    obtain ⟨steps, hsteps⟩ := Node.steps_of_mem_items hroot hn
    have hcurrent : p.current = f.transform := by rw [Painter.current, hp]
    obtain ⟨clips, drawn, extent, hcontinues, hextent, hcovers⟩ :=
      Node.covers_of_scopes hsteps hp fun hdraws =>
        hcurrent ▸ Node.covers_of_steps hsteps hdraws p
    exact ⟨_, drawn, extent, Node.draw_of_steps hsteps p, hcontinues.primitives, hextent,
      hcovers.outsideMasks.symm, hcovers.outsideMasks ▸ drawingBounds_eq_none⟩
  · obtain ⟨drawn, extent, hdrawn, hextent, hcovers, hunmasked⟩ := hg.bounds_root
    rw [outsideMasks_of_no_mask (hunmasked hmaskless)] at hcovers
    exact ⟨extent, hextent, map_eq_ok.mpr ⟨drawn, hdrawn, hcovers⟩⟩

end GraphImage

/-! A translucent badge that is used again, without a mask and behind one. -/

namespace SpareBadge

private def picture : Call :=
  .image ⟨0, ⟨.zero, .zero, .ofNat 10, .ofNat 10⟩, some (.scale (.ofNat 3) .one)⟩

private def badge : List Call :=
  [.beginGroup ⟨none, 128, some 0⟩, picture, .endGroup, .use ⟨0, none⟩]

private def tables : Call := .init ⟨[⟨1, 1, [0, 0, 0, 255]⟩], ["badge"], []⟩

private def plain : List Call := tables :: badge

private def masked : List Call :=
  tables :: .beginMask :: picture :: .maskContent :: (badge ++ [.endMask])

private theorem ofCalls_plain : ∃ g, GraphImage.ofCalls 0 false .empty plain = .ok g ∧
    Node.Maskless g.items := ⟨_, rfl, by decide +kernel⟩

private theorem ofCalls_masked : ∃ g n, GraphImage.ofCalls 0 false .empty masked = .ok g ∧
    .node n ∈ g.items ∧ n.isMasked = true := ⟨_, _, rfl, List.mem_cons_self, rfl⟩

end SpareBadge

namespace GraphImage

theorem measures_drawing_spareBadge : ∃ (g v : GraphImage) (extent : Option Rect) (n : Node)
    (q : Painter) (drawn : List Primitive), ofCalls 0 false .empty SpareBadge.plain = .ok g ∧
      g.root.toNode.bounds g.resources .identity = .ok extent ∧
      (Image.graph g).bounds = .ok extent ∧
      ofCalls 0 false .empty SpareBadge.masked = .ok v ∧ n.isMasked = true ∧
      n.draw v.resources .start = .ok q ∧ q.primitives.toList = drawn ∧
      n.bounds v.resources .identity = .ok (drawingBounds (outsideMasks drawn)) := by
  have hnew : 0 ∉ ([] : List Nat) := List.not_mem_nil
  obtain ⟨g, hg, hmaskless⟩ := SpareBadge.ofCalls_plain
  obtain ⟨-, hroot⟩ := measures_drawing (.replayed .empty hnew hg)
  obtain ⟨extent, hextent, hbounds⟩ := hroot hmaskless
  obtain ⟨v, n, hv, hn, hmasked⟩ := SpareBadge.ofCalls_masked
  obtain ⟨hnodes, -⟩ := measures_drawing (.replayed .empty hnew hv)
  have hmem : .node n ∈ v.root.toNode.items := by
    rw [GraphRoot.toNode, Node.items]
    exact List.mem_cons_of_mem _ hn
  obtain ⟨q, drawn, _, hdraw, hdrawn, hmeasured, rfl, -⟩ := hnodes n hmem .start _ _ rfl
  exact ⟨g, v, extent, n, q, drawn, hg, hextent, hbounds, hv, hmasked, hdraw, hdrawn, hmeasured⟩

end GraphImage

end VectorImage
