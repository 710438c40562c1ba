import VectorImage.Svg.Manifest

/-!
The calls that draw a picture. Every group opens with its clip, which is one path: the outlines
of all it consists of, mapped by the groups they are in. A gradient is registered when a paint
first needs it with a given opacity; later paints share it.
-/

set_option autoImplicit false
set_option relaxedAutoImplicit false

namespace VectorImage

namespace Svg

/-- A gradient as it is registered: its definition, and the opacity that is part of its colors. -/
structure RampUse where
  identity : List Nat
  opacity : Binary32
  deriving DecidableEq, Inhabited

/-- A computation that registers gradients, given those registered so far in order. -/
abbrev Drawing (α : Type) := StateT (List RampUse) (Except Error) α

/-- An opacity as one byte. -/
def alphaByte (opacity : Binary32) : UInt8 :=
  ((opacity.max .zero).min .one * .ofNat 255).widen.toByte

mutual
/-- The outlines below a node, mapped by what is around it. -/
def PictureNode.segments (around : Affine) : PictureNode → List Segment
  | .group frame _ _ children => segmentsAll (around * frame.placement.widen) children
  | .path leaf => (leaf.outline.widen.mapPoints around.apply).segments
  | .image _ => []

def PictureNode.segmentsAll (around : Affine) : List PictureNode → List Segment
  | [] => []
  | node :: rest => node.segments around ++ segmentsAll around rest
end

mutual
/-- The rule of the first fill below a node. -/
def PictureNode.rule? : PictureNode → Option FillRule
  | .group _ _ _ children => ruleOfAll? children
  | .path leaf => leaf.fill.map InkFill.rule
  | .image _ => none

def PictureNode.ruleOfAll? : List PictureNode → Option FillRule
  | [] => none
  | node :: rest => node.rule?.or (ruleOfAll? rest)
end

/-- The clip that consists of some nodes. -/
def clipOf (placement : Placement) (nodes : List PictureNode) : ClipPath where
  path := ⟨PictureNode.segmentsAll .identity nodes⟩
  rule := (PictureNode.ruleOfAll? nodes).getD .nonZero
  transform := placement.toTransform

/-- A stop's color with an opacity over it. -/
def Stop.colorUnder (s : Stop) (opacity : Binary32) : Color :=
  ⟨s.color.r, s.color.g, s.color.b, alphaByte (s.opacity * opacity)⟩

/-- The gradient of a ramp, given the index of its offsets. -/
def Ramp.gradient (r : Ramp) (offsets : FloatListId) (opacity : Binary32) : Gradient where
  kind := r.shape.widen
  offsets := offsets
  colors := r.stops.map fun s => s.colorUnder opacity
  spread := r.spread
  transform := r.placement.toTransform

/-- The calls that an ink needs before it is used, and the source it becomes; patterns become
none. -/
def Ink.source (m : Manifest) (opacity : Binary32) : Ink → Drawing (List Call × Option PaintSource)
  | .color c => return ([], some (.solid ⟨c.r, c.g, c.b, alphaByte opacity⟩))
  | .pattern => return ([], none)
  | .ramp r => do
    let known ← get
    let wanted : RampUse := ⟨r.identity, opacity⟩
    match known.idxOf? wanted with
    | some i => return ([], some (.gradient (UInt32.ofNat i)))
    | none =>
      let offsets ← m.floatListId r.offsets
      set (known ++ [wanted])
      return ([.gradient (r.gradient offsets opacity)], some (.gradient (UInt32.ofNat known.length)))

def InkFill.draw (m : Manifest) (f : InkFill) : Drawing (List Call × Option Fill) := do
  let (calls, source?) ← f.ink.source m f.opacity
  return (calls, source?.map fun source => ⟨source, f.rule⟩)

def InkStroke.draw (m : Manifest) (s : InkStroke) : Drawing (List Call × Option Stroke) := do
  match ← s.ink.source m s.opacity with
  | (calls, none) => return (calls, none)
  | (calls, some source) =>
    let dash ← s.dashFloats?.mapM fun floats => liftM (m.floatListId floats)
    return (calls, some {
      source := source
      width := s.width.widen
      cap := s.cap
      join := s.join
      miterLimit := s.miterLimit.widen
      dash := dash
      dashOffset := s.dashOffset.widen
    })

/-- Draw a part, if it is there. -/
def drawPart {α β : Type} (draw : α → Drawing (List Call × Option β)) :
    Option α → Drawing (List Call × Option β)
  | none => return ([], none)
  | some a => draw a

/-- The calls of a path; a hidden one and one without paint draw nothing. -/
def PathLeaf.draw (m : Manifest) (leaf : PathLeaf) : Drawing (List Call) := do
  if !leaf.visible then return []
  let (fillCalls, fill) ← drawPart (InkFill.draw m) leaf.fill
  let (strokeCalls, stroke) ← drawPart (InkStroke.draw m) leaf.stroke
  let calls := fillCalls ++ strokeCalls
  if fill.isNone && stroke.isNone then return calls
  return calls ++ [.shape ⟨.path leaf.outline.widen, ⟨fill, stroke⟩, none⟩]

/-- The calls of an image; only raster images are drawn. -/
def PictureLeaf.draw (m : Manifest) (leaf : PictureLeaf) : List Call :=
  match leaf.content with
  | .raster identity _ =>
    match m.imageId? identity with
    | some id =>
      if leaf.visible then
        [.image ⟨id, ⟨.zero, .zero, leaf.width.widen, leaf.height.widen⟩, none⟩]
      else []
    | none => []
  | .document => []

/-- The attributes of a group in its frame. -/
def GroupFrame.attrs (f : GroupFrame) : GroupAttrs :=
  ⟨f.placement.toTransform, alphaByte f.opacity, none⟩

mutual
/-- The calls of a node. What is in a mask is drawn as a group of its own. -/
def PictureNode.draw (m : Manifest) : PictureNode → Drawing (List Call)
  | .group frame clip mask children => do
    let clipCalls := (frame.clip.map fun placement => Call.clip (clipOf placement clip)).toList
    let inside ← if frame.masked then do
        let cover ← drawAll m mask
        let covered ← drawAll m children
        pure (.beginMask :: .beginGroup .plain :: cover ++
          .endGroup :: .maskContent :: covered ++ [.endMask])
      else drawAll m children
    return .beginGroup frame.attrs :: clipCalls ++ inside ++ [.endGroup]
  | .path leaf => leaf.draw m
  | .image leaf => pure (leaf.draw m)

def PictureNode.drawAll (m : Manifest) : List PictureNode → Drawing (List Call)
  | [] => pure []
  | node :: rest => do
    let first ← node.draw m
    let others ← drawAll m rest
    return first ++ others
end

/-- The document of a picture: its size, all of it in view. -/
def Picture.document (p : Picture) : Document :=
  let width := p.width.widen
  let height := p.height.widen
  { Document.sized width height with viewBox := some ⟨.zero, .zero, width, height⟩ }

/-- The stream of calls that draws a picture: tables, document, and one group with all nodes. -/
def Picture.calls (p : Picture) : Except Error (List Call) := do
  let m := Manifest.ofNodes p.nodes
  let tables ← m.tables
  let (drawn, _) ← (PictureNode.drawAll m p.nodes).run []
  return .init tables :: .document p.document :: .beginGroup .plain :: drawn ++ [.endGroup]

end Svg

end VectorImage
