import VectorImage.Proofs.Call.Rounding
import VectorImage.Proofs.Compact.Fidelity
import VectorImage.Proofs.Drawing.Outlines
import VectorImage.Proofs.Svg.Stream
import VectorImage.Svg.Image

/-!
What rounding to 32 bits does to a picture. A picture is made of 32-bit numbers, so all that its
stream says of shapes, paints, images and transforms is kept. Only the outline of a clip is computed
in 64 bits, where the groups inside the clip move its parts. So the two representations of a
document differ in the outlines of its clips, and in nothing else.
-/

set_option autoImplicit false
set_option relaxedAutoImplicit false

namespace VectorImage

/-- Rounding to 32 bits changes nothing in the call but the outline of a clip. -/
def Call.IsNarrow (call : Call) : Prop :=
  call.round .binary32 = call.mapClip (Path.round .binary32)

/-- The clip that a call opens. -/
def Call.clip? : Call → Option ClipPath
  | .clip c => some c
  | _ => none

namespace Svg

/-! Widened numbers are kept. -/

theorem Outline.round_widen (o : Outline) : o.widen.round .binary32 = o.widen := by
  refine congrArg Path.mk ((List.map_map).trans (List.map_congr_left fun segment _ => ?_))
  cases segment <;>
    simp [PathSegment.map, Spot.widen, FloatWidth.round, Binary32.round32_widen]

theorem RampShape.map_round_widen (s : RampShape) :
    s.widen.map FloatWidth.binary32.round = s.widen := by
  cases s <;> simp [widen, GradientKind.map, Spot.widen, FloatWidth.round, Binary32.round32_widen]

theorem Placement.map_round_toTransform (p : Placement) :
    p.toTransform.map (Affine.round .binary32) = p.toTransform := by
  unfold toTransform
  split
  · rfl
  · simp [widen, Affine.round, Affine.map, FloatWidth.round, Binary32.round32_widen]

theorem Ramp.isNarrow_gradient (r : Ramp) (offsets : FloatListId) (opacity : Binary32) :
    (Call.gradient (r.gradient offsets opacity)).IsNarrow := by
  refine congrArg Call.gradient ?_
  simp only [Ramp.gradient, Gradient.round, RampShape.map_round_widen,
    Placement.map_round_toTransform]

/-- Rounding the clip that nodes make rounds its outline. -/
theorem isNarrow_clipOf (placement : Placement) (nodes : List PictureNode) :
    (Call.clip (clipOf placement nodes)).IsNarrow := by
  refine congrArg Call.clip ?_
  simp only [clipOf, ClipPath.round, ClipPath.mapOutline, Placement.map_round_toTransform]

/-- The calls of a part of a picture: they are narrow, and these are the clips they open. -/
structure Clipped (clips : List ClipPath) (calls : List Call) : Prop where
  narrow : ∀ call ∈ calls, call.IsNarrow
  clips : calls.filterMap Call.clip? = clips

namespace Clipped

variable {clips more : List ClipPath} {call : Call} {calls rest : List Call}

theorem nil : Clipped [] [] := ⟨List.forall_mem_nil _, rfl⟩

theorem append (h : Clipped clips calls) (hrest : Clipped more rest) :
    Clipped (clips ++ more) (calls ++ rest) := by
  refine ⟨fun call hcall => ?_, ?_⟩
  · exact (List.mem_append.mp hcall).elim (h.narrow call) (hrest.narrow call)
  · rw [List.filterMap_append, h.clips, hrest.clips]

theorem single (call : Call) (h : call.IsNarrow) (hclip : call.clip? = none) : Clipped [] [call] :=
  ⟨List.forall_mem_singleton.mpr h, List.filterMap_cons_none hclip⟩

theorem clip (placement : Placement) (nodes : List PictureNode) :
    Clipped [clipOf placement nodes] [.clip (clipOf placement nodes)] :=
  ⟨List.forall_mem_singleton.mpr (isNarrow_clipOf placement nodes), rfl⟩

theorem group (attrs : GroupAttrs)
    (h : attrs.transform.map (Affine.round .binary32) = attrs.transform)
    (hbody : Clipped clips calls) : Clipped clips (.beginGroup attrs :: (calls ++ [.endGroup])) := by
  have hbegin : (Call.beginGroup attrs).IsNarrow :=
    congrArg (fun transform => Call.beginGroup { attrs with transform := transform }) h
  have hgroup := (single (.beginGroup attrs) hbegin rfl).append
    (hbody.append (single .endGroup rfl rfl))
  rwa [List.append_nil] at hgroup

theorem mask {cover covered : List Call} (hcover : Clipped clips cover)
    (hcovered : Clipped more covered) : Clipped (clips ++ more)
      (.beginMask :: (cover ++ .maskContent :: (covered ++ [.endMask]))) := by
  have hinside := hcovered.append (single .endMask rfl rfl)
  have hmask := (single .beginMask rfl rfl).append
    (hcover.append ((single .maskContent rfl rfl).append hinside))
  rwa [List.append_nil] at hmask

end Clipped

/-- What a drawing computes has the property, if it computes anything. -/
def Yields {α : Type} (P : α → Prop) (x : Drawing α) : Prop :=
  ∀ known a known', x known = .ok (a, known') → P a

namespace Yields

variable {α β : Type} {P : α → Prop} {Q : β → Prop}

theorem pure {a : α} (h : P a) : Yields P (Pure.pure a) := by
  intro known b known' hrun
  obtain ⟨rfl, -⟩ := state_pure_eq_ok.mp hrun
  exact h

theorem bind {x : Drawing α} {f : α → Drawing β} (hx : Yields P x)
    (hf : ∀ a, P a → Yields Q (f a)) : Yields Q (x >>= f) := by
  intro known b known' hrun
  obtain ⟨a, between, ha, hb⟩ := state_bind_eq_ok.mp hrun
  exact hf a (hx known a between ha) between b known' hb

/-- Nothing need be known of what is computed on the way. -/
theorem after {x : Drawing α} {f : α → Drawing β} (hf : ∀ a, Yields Q (f a)) :
    Yields Q (x >>= f) :=
  bind (P := fun _ => True) (fun _ _ _ _ => trivial) fun a _ => hf a

end Yields

/-! The clips of a picture. -/

mutual
/-- The clips that are drawn with a node, in order. A clip inside a clip is not. -/
def PictureNode.clips : PictureNode → List ClipPath
  | .group frame clip mask children =>
    (frame.clip.map fun placement => clipOf placement clip).toList ++
      ((if frame.masked then clipsAll mask else []) ++ clipsAll children)
  | .path _ => []
  | .image _ => []

def PictureNode.clipsAll : List PictureNode → List ClipPath
  | [] => []
  | node :: rest => node.clips ++ clipsAll rest
end

variable {m : Manifest}

/-! Paints. -/

theorem Ink.yields_source (opacity : Binary32) (ink : Ink) :
    Yields (fun drawn => Clipped [] drawn.1) (ink.source m opacity) := by
  cases ink with
  | color c => exact .pure .nil
  | pattern => exact .pure .nil
  | ramp r =>
    refine .after fun known => ?_
    dsimp only
    split
    · exact .pure .nil
    · refine .after fun offsets => .after fun _ => .pure (.single _ ?_ rfl)
      exact r.isNarrow_gradient offsets opacity

theorem InkFill.yields_draw (f : InkFill) : Yields (fun drawn => Clipped [] drawn.1) (f.draw m) :=
  (f.ink.yields_source f.opacity).bind fun _ h => .pure h

/-- The calls of a stroke are narrow, and so is the stroke. -/
theorem InkStroke.yields_draw (s : InkStroke) :
    Yields (fun drawn => Clipped [] drawn.1 ∧ drawn.2.map (Stroke.round .binary32) = drawn.2)
      (s.draw m) := by
  refine (s.ink.yields_source s.opacity).bind fun drawn h => ?_
  obtain ⟨calls, _ | source⟩ := drawn
  · exact .pure ⟨h, rfl⟩
  · refine .after fun dash => .pure ⟨h, ?_⟩
    simp [Stroke.round, FloatWidth.round, Binary32.round32_widen]

theorem yields_part {α β : Type} {P : List Call × Option β → Prop}
    {draw : α → Drawing (List Call × Option β)} (hnone : P ([], none))
    (h : ∀ a, Yields P (draw a)) (part? : Option α) : Yields P (drawPart draw part?) := by
  cases part? with
  | none => exact .pure hnone
  | some a => exact h a

/-! Nodes. -/

theorem PathLeaf.yields_draw (leaf : PathLeaf) : Yields (Clipped []) (leaf.draw m) := by
  unfold PathLeaf.draw
  split
  · exact .pure .nil
  refine (yields_part .nil InkFill.yields_draw leaf.fill).bind fun fill hfill => ?_
  refine (yields_part ⟨.nil, rfl⟩ InkStroke.yields_draw leaf.stroke).bind fun stroke hstroke => ?_
  have hpaints : Clipped [] (fill.1 ++ stroke.1) := hfill.append hstroke.1
  dsimp only
  split
  · exact .pure hpaints
  · refine .pure (hpaints.append (.single _ (congrArg Call.shape ?_) rfl))
    simp only [Shape.round, Geometry.round, Outline.round_widen, Paint.round, hstroke.2,
      Option.map_none]

theorem PictureLeaf.clipped_draw (leaf : PictureLeaf) : Clipped [] (leaf.draw m) := by
  unfold PictureLeaf.draw
  split
  · split
    · split
      · refine .single _ (congrArg Call.image ?_) rfl
        simp only [ImageLeaf.round, Rect.round, FloatWidth.round, Binary32.round32_widen,
          Option.map_none]
        rfl
      · exact .nil
    · exact .nil
  · exact .nil

mutual
theorem PictureNode.yields_draw (node : PictureNode) :
    Yields (Clipped node.clips) (node.draw m) := by
  cases node with
  | group frame clip mask children =>
    have hclip : Clipped (frame.clip.map fun placement => clipOf placement clip).toList
        (frame.clip.map fun placement => Call.clip (clipOf placement clip)).toList := by
      cases frame.clip with
      | none => exact .nil
      | some placement => exact .clip placement clip
    have hgroup {more : List ClipPath} {inside : List Call} (hinside : Clipped more inside) :=
      Clipped.group frame.attrs frame.placement.map_round_toTransform (hclip.append hinside)
    unfold PictureNode.draw PictureNode.clips
    cases frame.masked with
    | false =>
      refine (PictureNode.yields_drawAll children).bind fun inside hinside => .pure ?_
      simpa only [List.append_assoc, List.cons_append, List.nil_append, Bool.false_eq_true,
        if_false] using hgroup hinside
    | true =>
      refine (PictureNode.yields_drawAll mask).bind fun cover hcover => ?_
      refine (PictureNode.yields_drawAll children).bind fun covered hcovered => .pure ?_
      have hmask := (hcover.group .plain rfl).mask hcovered
      simpa only [List.append_assoc, List.cons_append, List.nil_append, if_true] using hgroup hmask
  | path leaf =>
    unfold PictureNode.draw
    exact leaf.yields_draw
  | image leaf =>
    unfold PictureNode.draw
    exact .pure leaf.clipped_draw

theorem PictureNode.yields_drawAll (nodes : List PictureNode) :
    Yields (Clipped (clipsAll nodes)) (drawAll m nodes) := by
  cases nodes with
  | nil => exact .pure .nil
  | cons node rest =>
    unfold PictureNode.drawAll
    refine (PictureNode.yields_draw node).bind fun first hfirst => ?_
    exact (PictureNode.yields_drawAll rest).bind fun others hothers => .pure (hfirst.append hothers)
end

/-! Tables. -/

/-- A list of numbers that rounding to 32 bits keeps. -/
private def KeptList (xs : List Binary64) : Prop := xs.map FloatWidth.binary32.round = xs

private theorem keptList_widen {α : Type} (xs : List α) (number : α → Binary32) :
    KeptList (xs.map fun a => (number a).widen) :=
  map_round_of_kept fun x hx => by
    obtain ⟨a, -, rfl⟩ := List.mem_map.mp hx
    exact FloatWidth.keeps_widen (number a)

private theorem Ink.floatLists_kept (ink : Ink) : ∀ xs ∈ ink.floatLists, KeptList xs := by
  cases ink with
  | ramp r => exact List.forall_mem_singleton.mpr (keptList_widen r.stops Stop.offset)
  | color c | pattern => exact List.forall_mem_nil _

private theorem InkStroke.floatLists_kept (s : InkStroke) : ∀ xs ∈ s.floatLists, KeptList xs := by
  refine List.forall_mem_append.mpr ⟨s.ink.floatLists_kept, fun xs hxs => ?_⟩
  obtain ⟨dashes, -, rfl⟩ := Option.map_eq_some_iff.mp (Option.mem_toList.mp hxs)
  exact keptList_widen dashes id

private theorem PathLeaf.floatLists_kept (leaf : PathLeaf) :
    ∀ xs ∈ leaf.floatLists, KeptList xs := by
  refine List.forall_mem_append.mpr ⟨fun xs hxs => ?_, fun xs hxs => ?_⟩
  · obtain ⟨f, -, hxs⟩ := List.mem_flatMap.mp hxs
    exact f.ink.floatLists_kept xs hxs
  · obtain ⟨s, -, hxs⟩ := List.mem_flatMap.mp hxs
    exact s.floatLists_kept xs hxs

mutual
/-- The lists of numbers below a node are of 32 bits. -/
private theorem PictureNode.floatLists_kept (node : PictureNode) :
    ∀ xs ∈ node.floatLists, KeptList xs := by
  cases node with
  | group frame clip mask children =>
    refine List.forall_mem_append.mpr ⟨List.forall_mem_append.mpr ⟨?_, ?_⟩, ?_⟩
    · exact PictureNode.floatListsAll_kept clip
    · exact PictureNode.floatListsAll_kept mask
    · exact PictureNode.floatListsAll_kept children
  | path leaf => exact leaf.floatLists_kept
  | image leaf => exact List.forall_mem_nil _

private theorem PictureNode.floatListsAll_kept (nodes : List PictureNode) :
    ∀ xs ∈ floatListsAll nodes, KeptList xs := by
  cases nodes with
  | nil => exact List.forall_mem_nil _
  | cons node rest =>
    exact List.forall_mem_append.mpr
      ⟨PictureNode.floatLists_kept node, PictureNode.floatListsAll_kept rest⟩
end

end Svg

end VectorImage
