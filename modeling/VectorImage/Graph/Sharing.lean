import VectorImage.Canonical.Table
import VectorImage.Graph.Node

/-!
Sharing of equal values while a tree is built. For each kind of value a build keeps the values
it has met so far, and may start from those of an earlier build, its seed. A value equal to one
met before is that one; else one equal to a value of the seed is that one, which then counts as
met; else it is new.
-/

set_option autoImplicit false
set_option relaxedAutoImplicit false

namespace VectorImage

/-- The values of each kind that a build has met. -/
structure NodeCache where
  images : CanonicalTable (Shared Raster)
  strings : CanonicalTable (Shared String)
  floatLists : CanonicalTable (Shared (List Binary64))
  transforms : CanonicalTable (Shared Affine)
  paths : CanonicalTable (Shared Path)
  polys : CanonicalTable (Shared PolyGeom)
  paints : CanonicalTable (Shared Paint)
  nodes : CanonicalTable Node
  deriving Inhabited

namespace NodeCache

def empty : NodeCache := ⟨.empty, .empty, .empty, .empty, .empty, .empty, .empty, .empty⟩

def nodeCount (c : NodeCache) : Nat := c.nodes.size

def pathCount (c : NodeCache) : Nat := c.paths.size

def transformCount (c : NodeCache) : Nat := c.transforms.size

/-- No node, no path and no string is held. -/
def isEmpty (c : NodeCache) : Bool := c.nodes.size == 0 && c.paths.size == 0 && c.strings.size == 0

end NodeCache

/-- The first entry with the key of `v`. -/
def CanonicalTable.findEntry? {α : Type} [Keyed α] [KeyDigest] (t : CanonicalTable α) (v : α) :
    Option α :=
  (t.find? v).bind fun i => t.entries[i]?

/-- The value that stands for `v`, and the values met once it has been. -/
def shareIn {α : Type} [Keyed α] [KeyDigest] (seed met : CanonicalTable α) (v : α) :
    α × CanonicalTable α :=
  match met.findEntry? v with
  | some w => (w, met)
  | none =>
    match seed.findEntry? v with
    | some w => (w, met.push w)
    | none => (v, met.push v)

/-- A build's sharing: its stamp, the serial number of its next value, the seed, and what it has
met. -/
structure Sharing where
  stamp : Nat
  next : Nat
  seed : NodeCache
  met : NodeCache
  deriving Inhabited

namespace Sharing

def start (stamp : Nat) (seed : NodeCache) : Sharing := ⟨stamp, 0, seed, .empty⟩

/-- An instance that the build has not used. -/
def mint : StateM Sharing Instance := fun s => (⟨s.stamp, [s.next]⟩, { s with next := s.next + 1 })

/-- Share a value of one kind. A value that is new gets the instance minted for it. -/
def share {α : Type} [Keyed α] (pick : NodeCache → CanonicalTable α)
    (put : NodeCache → CanonicalTable α → NodeCache) (v : α) : StateM Sharing α := fun s =>
  let (w, table) := shareIn (pick s.seed) (pick s.met) v
  (w, { s with met := put s.met table })

/-- Give a value an instance and share it. -/
def shareValue {α : Type} [Keyed α] (pick : NodeCache → CanonicalTable (Shared α))
    (put : NodeCache → CanonicalTable (Shared α) → NodeCache) (v : α) :
    StateM Sharing (Shared α) := do
  let inst ← mint
  share pick put ⟨inst, v⟩

def raster : Raster → StateM Sharing (Shared Raster) :=
  shareValue NodeCache.images fun c t => { c with images := t }

def string : String → StateM Sharing (Shared String) :=
  shareValue NodeCache.strings fun c t => { c with strings := t }

def floatList : List Binary64 → StateM Sharing (Shared (List Binary64)) :=
  shareValue NodeCache.floatLists fun c t => { c with floatLists := t }

def path : Path → StateM Sharing (Shared Path) :=
  shareValue NodeCache.paths fun c t => { c with paths := t }

def poly : PolyGeom → StateM Sharing (Shared PolyGeom) :=
  shareValue NodeCache.polys fun c t => { c with polys := t }

def paint : Paint → StateM Sharing (Shared Paint) :=
  shareValue NodeCache.paints fun c t => { c with paints := t }

def transform : Option Affine → StateM Sharing (Option (Shared Affine))
  | none => pure none
  | some m => some <$> shareValue NodeCache.transforms (fun c t => { c with transforms := t }) m

def geometry : Geometry → StateM Sharing NodeGeometry
  | .path p => .path <$> path p
  | .rect g => pure (.rect g)
  | .ellipse g => pure (.ellipse g)
  | .poly g => .poly <$> poly g

/-- Share a node, whose parts are shared already. -/
def node : Node → StateM Sharing Node :=
  share NodeCache.nodes fun c t => { c with nodes := t }

end Sharing

end VectorImage
