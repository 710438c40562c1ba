import VectorImage.Graph.Node
import VectorImage.Proofs.Canonical.Key

/-!
What the key of a node shows. The face of a node is its kind with its attributes; of a shared part,
a child or a target it has the instance alone. Keys of nodes are keys of their faces, which can be
told from whatever follows them, so two nodes have one key exactly when they have one face. With the
keys of the other values this gives the law of keys: one key, one value.
-/

set_option autoImplicit false
set_option relaxedAutoImplicit false

namespace VectorImage

/-- The outline of a leaf; shared outlines by instance. -/
inductive OutlineFace
  | path (p : Instance)
  | rect (g : RectGeom)
  | ellipse (g : EllipseGeom)
  | poly (g : Instance)
  deriving DecidableEq

def NodeGeometry.face : NodeGeometry → OutlineFace
  | .path p => .path p.inst
  | .rect g => .rect g
  | .ellipse g => .ellipse g
  | .poly g => .poly g.inst

/-- A node with its parts, its children and its target by instance, and none of its own. -/
inductive NodeFace
  | group (transform : Option Instance) (alpha : UInt8) (exportId : Option StringId)
      (children : List Instance)
  | clip (path : Instance) (rule : FillRule) (transform : Option Instance)
  | masked (mask content : List Instance)
  | shape (outline : OutlineFace) (paint : Instance) (transform : Option Instance)
  | image (leaf : ImageLeaf)
  | text (leaf : TextLeaf)
  | use (targetId : StringId) (target : Instance) (transform : Option Instance)
  deriving DecidableEq

inductive NodeKind
  | group | clip | masked | shape | image | text | use
  deriving DecidableEq

def NodeFace.kind : NodeFace → NodeKind
  | .group _ _ _ _ => .group
  | .clip _ _ _ => .clip
  | .masked _ _ => .masked
  | .shape _ _ _ => .shape
  | .image _ => .image
  | .text _ => .text
  | .use _ _ _ => .use

def Node.face : Node → NodeFace
  | .group _ transform alpha exportId children =>
    .group (transform.map Shared.inst) alpha exportId (children.map Node.inst)
  | .clip _ path rule transform => .clip path.inst rule (transform.map Shared.inst)
  | .masked _ mask content => .masked (mask.map Node.inst) (content.map Node.inst)
  | .shape _ geometry paint transform =>
    .shape geometry.face paint.inst (transform.map Shared.inst)
  | .image _ leaf => .image leaf
  | .text _ leaf => .text leaf
  | .use _ targetId target transform => .use targetId target.inst (transform.map Shared.inst)

namespace Key

/-! The keys of what a face is made of. -/

theorem delimits_inst : Delimits inst := by
  intro i j x y he
  simp only [inst, List.append_assoc] at he
  obtain ⟨hstamp, he⟩ := delimits_nat he
  obtain ⟨hplace, hrest⟩ := delimits_list delimits_nat he
  obtain ⟨stamp, place⟩ := i
  obtain ⟨stamp', place'⟩ := j
  simp only at hstamp hplace
  subst hstamp hplace
  exact ⟨rfl, hrest⟩

theorem delimits_rect : Delimits rectGeom := by
  intro g h x y he
  obtain ⟨hfloats, hrest⟩ := delimits_floats he
  have hg := RectGeom.ofFloats_toFloats g
  rw [hfloats, RectGeom.ofFloats_toFloats h] at hg
  exact ⟨(Except.ok.inj hg).symm, hrest⟩

theorem delimits_ellipse : Delimits ellipseGeom := by
  intro g h x y he
  obtain ⟨hfloats, hrest⟩ := delimits_floats he
  have hg := EllipseGeom.ofFloats_toFloats g
  rw [hfloats, EllipseGeom.ofFloats_toFloats h] at hg
  exact ⟨(Except.ok.inj hg).symm, hrest⟩

theorem delimits_imageLeaf : Delimits imageLeaf := by
  intro s t x y he
  simp only [imageLeaf, List.append_assoc] at he
  obtain ⟨himage, he⟩ := delimits_u32 he
  obtain ⟨hdest, he⟩ := delimits_floats he
  obtain ⟨htransform, hrest⟩ := delimits_option delimits_affine he
  obtain ⟨image, ⟨x0, y0, x1, y1⟩, transform⟩ := s
  obtain ⟨image', ⟨x0', y0', x1', y1'⟩, transform'⟩ := t
  simp only [Rect.toList, List.cons.injEq, and_true] at himage hdest htransform
  obtain ⟨rfl, rfl, rfl, rfl⟩ := hdest
  subst himage htransform
  exact ⟨rfl, hrest⟩

theorem delimits_textLeaf : Delimits textLeaf := by
  intro s t x y he
  simp only [textLeaf, List.append_assoc] at he
  obtain ⟨htext, he⟩ := delimits_u32 he
  obtain ⟨hfamily, he⟩ := delimits_option delimits_wide he
  obtain ⟨hfloats, he⟩ := delimits_floats he
  obtain ⟨hanchor, he⟩ := delimits_anchor he
  obtain ⟨hpaint, he⟩ := delimits_paint he
  obtain ⟨htransform, hrest⟩ := delimits_option delimits_affine he
  obtain ⟨text, family, size, ⟨ox, oy⟩, anchor, paint, transform⟩ := s
  obtain ⟨text', family', size', ⟨ox', oy'⟩, anchor', paint', transform'⟩ := t
  simp only [List.cons.injEq, and_true] at htext hfamily hfloats hanchor hpaint htransform
  obtain ⟨rfl, rfl, rfl⟩ := hfloats
  subst htext hfamily hanchor hpaint htransform
  exact ⟨rfl, hrest⟩

/-! The key of a face: the tag, then the rest. -/

def outlineTag : OutlineFace → UInt8
  | .path _ => 3
  | .rect _ => 4
  | .ellipse _ => 5
  | .poly _ => 6

def outlineBody : OutlineFace → Key
  | .path i => inst i
  | .rect g => rectGeom g
  | .ellipse g => ellipseGeom g
  | .poly i => inst i

def faceTag : NodeFace → UInt8
  | .group _ _ _ _ => 0
  | .clip _ _ _ => 1
  | .masked _ _ => 2
  | .shape outline _ _ => outlineTag outline
  | .image _ => 7
  | .text _ => 8
  | .use _ _ _ => 9

def faceBody : NodeFace → Key
  | .group transform alpha exportId children =>
    option inst transform ++ [alpha] ++ option wide exportId ++ list inst children
  | .clip path rule transform => inst path ++ [rule.code] ++ option inst transform
  | .masked mask content => list inst mask ++ list inst content
  | .shape outline paint transform => outlineBody outline ++ inst paint ++ option inst transform
  | .image leaf => imageLeaf leaf
  | .text leaf => textLeaf leaf
  | .use targetId target transform => u32 targetId ++ inst target ++ option inst transform

def face (f : NodeFace) : Key := faceTag f :: faceBody f

theorem node_eq_face (n : Node) : node n = face n.face := by
  have hshared {α : Type} (t : Option (Shared α)) :
      option shared t = option inst (t.map Shared.inst) := by
    cases t <;> rfl
  have hchildren (nodes : List Node) : children nodes = list inst (nodes.map Node.inst) := by
    simp [children, list, List.flatMap_map]
  cases n with
  | group i transform alpha exportId nodes =>
    simp only [node, face, Node.face, faceTag, faceBody, hshared, hchildren]
  | clip i path rule transform =>
    simp only [node, face, Node.face, faceTag, faceBody, hshared, shared]
  | masked i mask content => simp only [node, face, Node.face, faceTag, faceBody, hchildren]
  | shape i geometry paint transform =>
    cases geometry <;> simp only [node, face, Node.face, NodeGeometry.face, faceTag, faceBody,
      outlineTag, outlineBody, nodeGeometry, hshared, shared, List.cons_append]
  | image i leaf => rfl
  | text i leaf => rfl
  | use i targetId target transform =>
    simp only [node, face, Node.face, faceTag, faceBody, hshared, List.append_assoc]

private theorem outline_inj {o p : OutlineFace} {x y : Key} (htag : outlineTag o = outlineTag p)
    (he : outlineBody o ++ x = outlineBody p ++ y) : o = p ∧ x = y := by
  cases o with
  | path i =>
    cases p with
    | path j =>
      obtain ⟨rfl, hrest⟩ := delimits_inst he
      exact ⟨rfl, hrest⟩
    | _ => exact absurd htag (by simp [outlineTag])
  | rect g =>
    cases p with
    | rect h =>
      obtain ⟨rfl, hrest⟩ := delimits_rect he
      exact ⟨rfl, hrest⟩
    | _ => exact absurd htag (by simp [outlineTag])
  | ellipse g =>
    cases p with
    | ellipse h =>
      obtain ⟨rfl, hrest⟩ := delimits_ellipse he
      exact ⟨rfl, hrest⟩
    | _ => exact absurd htag (by simp [outlineTag])
  | poly i =>
    cases p with
    | poly j =>
      obtain ⟨rfl, hrest⟩ := delimits_inst he
      exact ⟨rfl, hrest⟩
    | _ => exact absurd htag (by simp [outlineTag])

/-- The kind of node that a tag stands for; the tags of shapes are those of their outlines. -/
def kindOfTag (tag : UInt8) : NodeKind :=
  if tag = 0 then .group
  else if tag = 1 then .clip
  else if tag = 2 then .masked
  else if tag ≤ 6 then .shape
  else if tag = 7 then .image
  else if tag = 8 then .text
  else .use

theorem kindOfTag_faceTag (f : NodeFace) : kindOfTag (faceTag f) = f.kind := by
  cases f with
  | shape outline paint transform => cases outline <;> rfl
  | _ => rfl

theorem delimits_face : Delimits face := by
  intro f g x y he
  obtain ⟨htag, hrest⟩ := List.cons.inj he
  have hbody : faceBody f ++ x = faceBody g ++ y := hrest
  have hkind : f.kind = g.kind := by rw [← kindOfTag_faceTag, htag, kindOfTag_faceTag]
  clear he hrest
  cases f with
  | group transform alpha exportId children =>
    cases g with
    | group transform' alpha' exportId' children' =>
      simp only [faceBody, List.append_assoc] at hbody
      obtain ⟨rfl, hafter⟩ := delimits_option delimits_inst hbody
      obtain ⟨rfl, hexport⟩ := List.cons.inj hafter
      obtain ⟨rfl, hchildren⟩ := delimits_option delimits_wide hexport
      obtain ⟨rfl, rfl⟩ := delimits_list delimits_inst hchildren
      exact ⟨rfl, rfl⟩
    | _ => cases hkind
  | clip path rule transform =>
    cases g with
    | clip path' rule' transform' =>
      simp only [faceBody, List.append_assoc] at hbody
      obtain ⟨rfl, hrule⟩ := delimits_inst hbody
      obtain ⟨rfl, htransform⟩ := delimits_rule hrule
      obtain ⟨rfl, rfl⟩ := delimits_option delimits_inst htransform
      exact ⟨rfl, rfl⟩
    | _ => cases hkind
  | masked mask content =>
    cases g with
    | masked mask' content' =>
      simp only [faceBody, List.append_assoc] at hbody
      obtain ⟨hmask, hafter⟩ := delimits_list delimits_inst hbody
      obtain ⟨hcontent, hrest⟩ := delimits_list delimits_inst hafter
      exact ⟨by rw [hmask, hcontent], hrest⟩
    | _ => cases hkind
  | shape outline paint transform =>
    cases g with
    | shape outline' paint' transform' =>
      simp only [faceBody, List.append_assoc] at hbody
      obtain ⟨rfl, hpaint⟩ := outline_inj htag hbody
      obtain ⟨rfl, htransform⟩ := delimits_inst hpaint
      obtain ⟨rfl, rfl⟩ := delimits_option delimits_inst htransform
      exact ⟨rfl, rfl⟩
    | _ => cases hkind
  | image leaf =>
    cases g with
    | image leaf' =>
      obtain ⟨rfl, rfl⟩ := delimits_imageLeaf hbody
      exact ⟨rfl, rfl⟩
    | _ => cases hkind
  | text leaf =>
    cases g with
    | text leaf' =>
      obtain ⟨rfl, rfl⟩ := delimits_textLeaf hbody
      exact ⟨rfl, rfl⟩
    | _ => cases hkind
  | use targetId target transform =>
    cases g with
    | use targetId' target' transform' =>
      simp only [faceBody, List.append_assoc] at hbody
      obtain ⟨rfl, htarget⟩ := delimits_u32 hbody
      obtain ⟨rfl, htransform⟩ := delimits_inst htarget
      obtain ⟨rfl, rfl⟩ := delimits_option delimits_inst htransform
      exact ⟨rfl, rfl⟩
    | _ => cases hkind

/-- Nodes have one key exactly when they have one face. -/
theorem node_eq_iff {m n : Node} : node m = node n ↔ m.face = n.face := by
  rw [node_eq_face, node_eq_face]
  exact ⟨fun he => delimits_face.injective he, fun he => congrArg face he⟩

/-- Values have one key exactly when they are one value: numbers by their bit patterns, which is
how two `Binary64` are equal, and nodes by their faces. -/
theorem eq_iff_eq_value :
    (∀ x y : Binary64, float x = float y ↔ x.bits = y.bits) ∧
      (∀ r s : Raster, Keyed.key r = Keyed.key s ↔ r = s) ∧
      (∀ s t : String, Keyed.key s = Keyed.key t ↔ s = t) ∧
      (∀ xs ys : List Binary64,
        Keyed.key xs = Keyed.key ys ↔ xs.map Binary64.bits = ys.map Binary64.bits) ∧
      (∀ m n : Affine, Keyed.key m = Keyed.key n ↔ m = n) ∧
      (∀ p q : Path, Keyed.key p = Keyed.key q ↔ p = q) ∧
      (∀ g h : PolyGeom, Keyed.key g = Keyed.key h ↔ g = h) ∧
      (∀ p q : Paint, Keyed.key p = Keyed.key q ↔ p = q) ∧
      (∀ g h : Gradient, Keyed.key g = Keyed.key h ↔ g = h) ∧
      (∀ m n : Node, Keyed.key m = Keyed.key n ↔ m.face = n.face) := by
  refine ⟨fun x y => ?_, fun _ _ => Keyed.key_eq_iff, fun _ _ => Keyed.key_eq_iff,
    fun xs ys => ?_, fun _ _ => Keyed.key_eq_iff, fun _ _ => Keyed.key_eq_iff,
    fun _ _ => Keyed.key_eq_iff, fun _ _ => Keyed.key_eq_iff, fun _ _ => Keyed.key_eq_iff,
    fun _ _ => node_eq_iff⟩
  · exact ⟨fun h => congrArg Binary64.bits (delimits_float.injective h),
      fun h => congrArg float (Binary64.ext_bits h)⟩
  · rw [List.map_inj_right fun _ _ => Binary64.ext_bits]
    exact Keyed.key_eq_iff

end Key

end VectorImage
