import VectorImage.Graph.Image

/-!
Listings of shared trees that make sharing visible. Each instance is numbered when it is first
met, separately for nodes, transforms, paints, paths and point lists; it is spelled out there,
and afterwards only its number appears.
-/

set_option autoImplicit false
set_option relaxedAutoImplicit false

namespace VectorImage

/-- A shared value where it is first met, or its number where it is met again. -/
inductive Numbered (α : Type)
  | first (number : Nat) (value : α)
  | again (number : Nat)
  deriving Inhabited

inductive GeometryListing
  | path (p : Numbered Path)
  | rect (g : RectGeom)
  | ellipse (g : EllipseGeom)
  | poly (g : Numbered PolyGeom)
  deriving Inhabited

/-- A node where it is first met, or its number where it is met again. -/
inductive NodeListing
  | again (number : Nat)
  | group (number : Nat) (transform : Option (Numbered Affine)) (alpha : UInt8)
      (exportId : Option StringId) (children : List NodeListing)
  | clip (number : Nat) (path : Numbered Path) (rule : FillRule)
      (transform : Option (Numbered Affine))
  | masked (number : Nat) (mask content : List NodeListing)
  | shape (number : Nat) (geometry : GeometryListing) (paint : Numbered Paint)
      (transform : Option (Numbered Affine))
  | image (number : Nat) (leaf : ImageLeaf)
  | text (number : Nat) (leaf : TextLeaf)
  | use (number : Nat) (targetId : StringId) (target : NodeListing)
      (transform : Option (Numbered Affine))
  deriving Inhabited

/-- The instances met so far, last first, by kind. -/
structure Numbering where
  nodes : List Instance
  transforms : List Instance
  paints : List Instance
  paths : List Instance
  polys : List Instance
  deriving Inhabited

namespace Numbering

def empty : Numbering := ⟨[], [], [], [], []⟩

/-- The number of an instance that has been met: how many were met before it. -/
def number? (met : List Instance) (i : Instance) : Option Nat :=
  (met.idxOf? i).map fun k => met.length - 1 - k

/-- Number a shared value of one kind. -/
def value {α : Type} (pick : Numbering → List Instance)
    (put : Numbering → List Instance → Numbering) (s : Shared α) :
    StateM Numbering (Numbered α) := fun n =>
  match number? (pick n) s.inst with
  | some k => (.again k, n)
  | none => (.first (pick n).length s.value, put n (s.inst :: pick n))

def transform : Option (Shared Affine) → StateM Numbering (Option (Numbered Affine))
  | none => pure none
  | some s => some <$> value Numbering.transforms (fun n met => { n with transforms := met }) s

def paint : Shared Paint → StateM Numbering (Numbered Paint) :=
  value Numbering.paints fun n met => { n with paints := met }

def path : Shared Path → StateM Numbering (Numbered Path) :=
  value Numbering.paths fun n met => { n with paths := met }

def poly : Shared PolyGeom → StateM Numbering (Numbered PolyGeom) :=
  value Numbering.polys fun n met => { n with polys := met }

def geometry : NodeGeometry → StateM Numbering GeometryListing
  | .path p => .path <$> path p
  | .rect g => pure (.rect g)
  | .ellipse g => pure (.ellipse g)
  | .poly g => .poly <$> poly g

/-- The number of a node, and whether it is new. -/
def node (i : Instance) : StateM Numbering (Nat × Bool) := fun n =>
  match number? n.nodes i with
  | some k => ((k, false), n)
  | none => ((n.nodes.length, true), { n with nodes := i :: n.nodes })

end Numbering

mutual
def Node.listing : Node → StateM Numbering NodeListing
  | .group inst transform alpha exportId children => do
    let (number, isNew) ← Numbering.node inst
    if !isNew then return .again number
    let transform ← Numbering.transform transform
    let children ← Node.listingAll children
    return .group number transform alpha exportId children
  | .clip inst path rule transform => do
    let (number, isNew) ← Numbering.node inst
    if !isNew then return .again number
    let path ← Numbering.path path
    let transform ← Numbering.transform transform
    return .clip number path rule transform
  | .masked inst mask content => do
    let (number, isNew) ← Numbering.node inst
    if !isNew then return .again number
    let mask ← Node.listingAll mask
    let content ← Node.listingAll content
    return .masked number mask content
  | .shape inst geometry paint transform => do
    let (number, isNew) ← Numbering.node inst
    if !isNew then return .again number
    let geometry ← Numbering.geometry geometry
    let paint ← Numbering.paint paint
    let transform ← Numbering.transform transform
    return .shape number geometry paint transform
  | .image inst leaf => do
    let (number, isNew) ← Numbering.node inst
    return if isNew then .image number leaf else .again number
  | .text inst leaf => do
    let (number, isNew) ← Numbering.node inst
    return if isNew then .text number leaf else .again number
  | .use inst targetId target transform => do
    let (number, isNew) ← Numbering.node inst
    if !isNew then return .again number
    let transform ← Numbering.transform transform
    let target ← Node.listing target
    return .use number targetId target transform

def Node.listingAll : List Node → StateM Numbering (List NodeListing)
  | [] => return []
  | n :: rest => do
    let n ← Node.listing n
    let rest ← Node.listingAll rest
    return n :: rest
end

end VectorImage
