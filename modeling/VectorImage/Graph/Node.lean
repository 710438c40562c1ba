import VectorImage.Canonical.Key

/-!
The nodes of a shared tree. Every node is an instance of its own or one that several places
share; transforms, paints and the larger geometries are shared values. A node's key is shallow:
it names its parts and children by instance, since equal parts are one instance already.
-/

set_option autoImplicit false
set_option relaxedAutoImplicit false

namespace VectorImage

/-- The outline of a leaf; paths and point lists are shared. -/
inductive NodeGeometry
  | path (p : Shared Path)
  | rect (g : RectGeom)
  | ellipse (g : EllipseGeom)
  | poly (g : Shared PolyGeom)
  deriving DecidableEq, Inhabited

/-- The outline itself. -/
def NodeGeometry.value : NodeGeometry → Geometry
  | .path p => .path p.value
  | .rect g => .rect g
  | .ellipse g => .ellipse g
  | .poly g => .poly g.value

inductive Node
  | group (inst : Instance) (transform : Option (Shared Affine)) (alpha : UInt8)
      (exportId : Option StringId) (children : List Node)
  | clip (inst : Instance) (path : Shared Path) (rule : FillRule)
      (transform : Option (Shared Affine))
  | masked (inst : Instance) (mask content : List Node)
  | shape (inst : Instance) (geometry : NodeGeometry) (paint : Shared Paint)
      (transform : Option (Shared Affine))
  | image (inst : Instance) (leaf : ImageLeaf)
  | text (inst : Instance) (leaf : TextLeaf)
  | use (inst : Instance) (targetId : StringId) (target : Node)
      (transform : Option (Shared Affine))
  deriving Inhabited

/-- The map behind a shared transform, where there is one. -/
def sharedValue {α : Type} (s : Option (Shared α)) : Option α := s.map Shared.value

namespace Node

def inst : Node → Instance
  | .group inst _ _ _ _ => inst
  | .clip inst _ _ _ => inst
  | .masked inst _ _ => inst
  | .shape inst _ _ _ => inst
  | .image inst _ => inst
  | .text inst _ => inst
  | .use inst _ _ _ => inst

/-- Clips draw nothing themselves. -/
def isDrawable : Node → Bool
  | .clip _ _ _ _ => false
  | _ => true

end Node

/-! The recursion over a node visits the node, then its children; use targets are not entered. -/

mutual
def Node.visited : Node → List Node
  | .group inst transform alpha exportId children =>
    .group inst transform alpha exportId children :: Node.visitedAll children
  | .masked inst mask content =>
    .masked inst mask content :: (Node.visitedAll mask ++ Node.visitedAll content)
  | .clip inst path rule transform => [.clip inst path rule transform]
  | .shape inst geometry paint transform => [.shape inst geometry paint transform]
  | .image inst leaf => [.image inst leaf]
  | .text inst leaf => [.text inst leaf]
  | .use inst targetId target transform => [.use inst targetId target transform]

def Node.visitedAll : List Node → List Node
  | [] => []
  | n :: rest => Node.visited n ++ Node.visitedAll rest
end

namespace Node

/-- The paint of a leaf that has one. -/
def paint? : Node → Option Paint
  | .shape _ _ paint _ => some paint.value
  | .text _ leaf => some leaf.paint
  | _ => none

/-- The group that a use refers to. -/
def targetId? : Node → Option StringId
  | .use _ targetId _ _ => some targetId
  | _ => none

end Node

namespace Key

def inst (i : Instance) : Key := nat i.stamp ++ list nat i.place

def shared {α : Type} (s : Shared α) : Key := inst s.inst

def rectGeom (g : RectGeom) : Key := floats g.toFloats

def ellipseGeom (g : EllipseGeom) : Key := floats g.toFloats

def nodeGeometry : NodeGeometry → Key
  | .path p => 3 :: shared p
  | .rect g => 4 :: rectGeom g
  | .ellipse g => 5 :: ellipseGeom g
  | .poly g => 6 :: shared g

def children (nodes : List Node) : Key := list (fun n => inst n.inst) nodes

def imageLeaf (i : ImageLeaf) : Key :=
  u32 i.image ++ floats i.dest.toList ++ option affine i.transform

def textLeaf (t : TextLeaf) : Key :=
  u32 t.text ++ option wide t.family ++ floats [t.size, t.origin.x, t.origin.y] ++
    [t.anchor.code] ++ paint t.paint ++ option affine t.transform

/-- The kind, the attributes, and the parts by instance. -/
def node : Node → Key
  | .group _ transform alpha exportId nodes =>
    0 :: (option shared transform ++ [alpha] ++ option wide exportId ++ children nodes)
  | .clip _ path rule transform => 1 :: (shared path ++ [rule.code] ++ option shared transform)
  | .masked _ mask content => 2 :: (children mask ++ children content)
  | .shape _ geometry paint transform =>
    nodeGeometry geometry ++ shared paint ++ option shared transform
  | .image _ leaf => 7 :: imageLeaf leaf
  | .text _ leaf => 8 :: textLeaf leaf
  | .use _ targetId target transform =>
    9 :: (u32 targetId ++ inst target.inst ++ option shared transform)

end Key

instance : Keyed Node := ⟨Key.node⟩

/-- Shared values are compared by what they hold. -/
instance {α : Type} [Keyed α] : Keyed (Shared α) := ⟨fun s => Keyed.key s.value⟩

end VectorImage
