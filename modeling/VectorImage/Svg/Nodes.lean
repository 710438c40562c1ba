import VectorImage.Svg.Embedding
import VectorImage.Svg.Figure
import VectorImage.Svg.Ink
import VectorImage.Svg.Picture
import VectorImage.Svg.Value.Paint

/-!
The nodes that elements become, and the boxes that nodes cover. A group covers what the nodes in it
cover, mapped where they are groups with a map of their own; one that holds nothing covers the
origin alone.

An element whose clip or mask is referred to but of no use is
left out. A group becomes a node of its own, and so does any other element with an opacity, a
map, a clip or a mask; of the rest only the leaves stay. Of the children of a switch only the first
that is applicable counts. A clip takes shapes only. Clips and masks
in units of the box of what they apply to are of no use where that has no area; but a mask whose
own region is in such units then hides everything.
-/

set_option autoImplicit false
set_option relaxedAutoImplicit false

namespace VectorImage

namespace Svg

mutual
/-- The box of a node in the coordinates around it. -/
def PictureNode.box : PictureNode → Box
  | .group frame _ _ children =>
    let inner := (Box.unionAll? (boxes children)).getD .zero
    (inner.map? frame.placement).getD inner
  | .path leaf => leaf.box
  | .image leaf => .ofSize leaf.width leaf.height

def PictureNode.boxes : List PictureNode → List Box
  | [] => []
  | node :: rest => node.box :: boxes rest
end

/-- The box around several nodes, if it has an area. -/
def areaOf? (nodes : List PictureNode) : Option Box :=
  (Box.unionAll? (PictureNode.boxes nodes)).filter Box.hasArea

mutual
/-- The box of a node in the picture. -/
def PictureNode.cover : PictureNode → Box
  | .group _ _ _ children => (Box.unionAll? (covers children)).getD .zero
  | .path leaf => leaf.cover
  | .image leaf => leaf.cover

def PictureNode.covers : List PictureNode → List Box
  | [] => []
  | node :: rest => node.cover :: covers rest
end

end Svg

namespace Svg

/-- Where an element stands: inside a clip or not, inside which clips, masks and patterns, below
which elements with masks that are resolved anew for each of them, and under what map. -/
structure Setting where
  inClip : Bool
  resolving : List Nat
  via : List Nat
  around : Placement

def Setting.initial (around : Placement) : Setting := ⟨false, [], [], around⟩

/-- What becomes of a reference: there is none, it is of no use, or it yields something. -/
inductive Linked (α : Type)
  | absent
  | useless
  | found (a : α)
  deriving Inhabited

def Linked.isUseless {α : Type} : Linked α → Bool
  | .useless => true
  | _ => false

/-- The element that a clip or mask attribute refers to. One that is just being resolved counts as
none. -/
def Scene.linked? (scene : Scene) (setting : Setting) (s : Site) (key : String) : Option Site :=
  (scene.target? s key).filter fun t => !setting.resolving.contains t.number

/-- The leaf of an element with an outline, given which elements hold something to draw. A shape
that the map around takes out of range is none; one without fill and stroke draws nothing, but
still takes part. -/
def Scene.leaf? (scene : Scene) (setting : Setting) (holds : Site → Bool) (s : Site) :
    Option PathLeaf := do
  let outline ← scene.outline? s
  let box ← outline.box?
  let cover ← outline.cover? setting.around
  if setting.inClip then return ⟨outline, box, cover, some (clipFill s), none, s.isVisible⟩
  let surface : Surface := ⟨s, box, outline.hasArea, setting.via⟩
  return ⟨outline, box, cover, scene.fill? holds surface, scene.stroke? holds surface, s.isVisible⟩

/-- The part of a leaf that is painted at once, if there is something to paint. -/
def PathLeaf.part? (leaf : PathLeaf) : PaintPart → Option PathLeaf
  | .fill => if leaf.fill.isSome then some { leaf with stroke := none } else none
  | .stroke => if leaf.stroke.isSome then some { leaf with fill := none } else none
  | .markers => none

/-- A leaf as it is painted: in two parts if markers come between them. -/
def paintedLeaves (s : Site) (leaf : PathLeaf) : List PathLeaf :=
  match (s.inherited? "paint-order").bind paintOrderOf? with
  | some [first, .markers, last] => [first, last].filterMap leaf.part?
  | _ => [leaf]

/-- The map of a clip; a malformed or unusable one makes the clip useless. -/
def Scene.clipPlacement? (scene : Scene) (s : Site) : Option Placement :=
  match s.own? "transform" with
  | none => some (s.placement scene.canvas "transform")
  | some text =>
    (transformOf? text).bind fun m =>
      if (Placement.ofAffine m).isUsable then some (s.placement scene.canvas "transform") else none

/-- The region of a mask, in units of the masked element or in user units. -/
def Scene.maskRegion? (scene : Scene) (s : Site) : Option Box :=
  let canvas := if s.inUserSpace "maskUnits" then scene.canvas else .unit
  let offset : Length := ⟨-.ofNat 10, .percent⟩
  s.box? canvas offset offset (percent 120) (percent 120)

/-- A mask that is resolved once for all elements it is used on. -/
def isSharedMask (s : Site) : Bool :=
  s.inUserSpace "maskUnits" && !s.inBoxUnits "maskContentUnits"

/-- The names of elements that a clip may consist of, whether or not they add to it. -/
def graphicNames : List String := figureNames ++ ["image", "text"]

/-- The names of elements that add to a clip. -/
def clipNames : List String := figureNames.erase "line"

/-- The names of elements that become nodes. -/
def nodeNames : List String := graphicNames ++ ["g", "svg", "switch"]

/-- A switch without a child that is applicable. -/
def Site.isIdleSwitch (s : Site) : Bool :=
  s.name = "switch" && !s.children.any Site.isApplicable

mutual
/-- The nodes that an element becomes. -/
def Scene.nodes (scene : Scene) : (fuel : Nat) → Setting → Site → List PictureNode
  | 0, _, _ => []
  | fuel + 1, setting, s =>
    let names := if setting.inClip then graphicNames else nodeNames
    if !names.contains s.name || !s.isDisplayed || s.isIdleSwitch then []
    else
      let placement := s.placement scene.canvas "transform"
      let inner : Setting := { setting with around := setting.around * placement }
      let holds (t : Site) : Bool :=
        let within : Setting :=
          ⟨false, t.number :: setting.resolving, setting.via, .identity⟩
        !setting.resolving.contains t.number &&
          !(scene.childNodes fuel within t.children).isEmpty
      let content : List PictureNode :=
        if setting.inClip && !clipNames.contains s.name then []
        else if s.name = "g" || s.name = "svg" && s.ancestors.isEmpty then
          scene.childNodes fuel inner s.children
        else if s.name = "switch" then
          (s.children.find? Site.isApplicable).elim [] (scene.nodes fuel inner)
        else if s.name = "image" then
          (scene.image? inner.around (s.number :: setting.via) s).toList
        else ((scene.leaf? inner holds s).toList.flatMap (paintedLeaves s)).map .path
      let clip := scene.clip fuel setting s content
      let mask := if setting.inClip then .absent else scene.mask fuel setting s content
      if clip.isUseless || mask.isUseless then []
      else
        let opacity :=
          if setting.inClip then .one
          else ((s.own? "opacity").bind opacityOf?).getD .one
        let (clipPlacement?, clipNodes) := match clip with
          | .found (p, nodes) => (some p, nodes)
          | _ => (none, [])
        let (masked, maskNodes) := match mask with
          | .found nodes => (true, nodes)
          | _ => (false, [])
        if s.name = "g" || !opacity.near .one 4 || !placement.isIdentity ||
            clipPlacement?.isSome || masked then
          [.group ⟨placement, opacity, clipPlacement?, masked⟩ clipNodes maskNodes content]
        else content

/-- The nodes of several elements. -/
def Scene.childNodes (scene : Scene) : (fuel : Nat) → Setting → List Site → List PictureNode
  | 0, _, _ => []
  | _ + 1, _, [] => []
  | fuel + 1, setting, s :: rest =>
    scene.nodes fuel setting s ++ scene.childNodes fuel setting rest

/-- What the clip of an element with some content consists of, and its placement. -/
def Scene.clip (scene : Scene) : (fuel : Nat) → Setting → Site → (content : List PictureNode) →
    Linked (Placement × List PictureNode)
  | 0, _, _, _ => .absent
  | fuel + 1, setting, s, content =>
    match scene.linked? setting s "clip-path" with
    | none => .absent
    | some target =>
      let setting : Setting :=
        ⟨true, target.number :: setting.resolving, setting.via, .identity⟩
      if target.name ≠ "clipPath" || !target.isNamed ||
          (scene.clip fuel setting target content).isUseless then .useless
      else
        let unit? :=
          if target.inBoxUnits "clipPathUnits" then (areaOf? content).map .ofBox
          else some .identity
        match scene.clipPlacement? target, unit?, scene.childNodes fuel setting target.children with
        | some placement, some unit, node :: nodes => .found (placement * unit, node :: nodes)
        | _, _, _ => .useless

/-- What the mask of an element with some content consists of. -/
def Scene.mask (scene : Scene) : (fuel : Nat) → Setting → Site → (content : List PictureNode) →
    Linked (List PictureNode)
  | 0, _, _, _ => .absent
  | fuel + 1, setting, s, content =>
    match scene.linked? setting s "mask" with
    | none => .absent
    | some target =>
      let hasBoxUnits := !target.inUserSpace "maskUnits"
      let area? := areaOf? content
      let unit? := if target.inBoxUnits "maskContentUnits" then area?.map .ofBox else some .identity
      if target.name ≠ "mask" || (scene.maskRegion? target).isNone || !target.isNamed then .useless
      else if hasBoxUnits && area?.isNone then .found []
      else
        let setting : Setting :=
          ⟨false, target.number :: setting.resolving,
            if isSharedMask target then [] else s.number :: setting.via, unit?.getD .identity⟩
        if (scene.mask fuel setting target content).isUseless then .useless
        else
          match unit?, scene.childNodes fuel setting target.children with
          | none, _ => .useless
          | some unit, nodes =>
            if nodes.isEmpty && !hasBoxUnits then .useless
            else if target.inBoxUnits "maskContentUnits" then
              .found [.group { GroupFrame.plain with placement := unit } [] [] nodes]
            else .found nodes
end

end Svg

end VectorImage
