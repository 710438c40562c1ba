import VectorImage.Call.Backend
import VectorImage.Compact.Encoder
import VectorImage.Graph.Builder
import VectorImage.View.Prune

/-!
Images in either representation and the ways between them: a compact image and a shared tree
describe themselves by a stream of calls, and any backend can be run on it.
-/

set_option autoImplicit false
set_option relaxedAutoImplicit false

namespace VectorImage

inductive Representation
  | compact | graph
  deriving DecidableEq, Inhabited

/-- Build the shared tree of a compact image. -/
def CompactImage.toGraph (c : CompactImage) (stamp : Nat) (shareNodes : Bool) :
    Except Error GraphImage :=
  GraphImage.ofCalls stamp shareNodes .empty c.calls

/-- Encode a shared tree with tables of its own. -/
def GraphImage.toCompact (g : GraphImage) (stamp : Nat) (width : FloatWidth) :
    Except Error CompactImage := do
  CompactImage.ofCalls stamp width (← g.calls)

/-- A compact image seen through another viewport. Without pruning only the document changes;
with it the surviving tree is encoded again into the tables of the image. -/
def CompactImage.withViewport (c : CompactImage) (stamp : Nat) (viewport : Rect) (prune : Bool)
    (tolerance : Binary64) : Except Error CompactImage :=
  if prune then do
    let graph ← c.toGraph stamp true
    let pruned ← graph.withViewport stamp viewport true tolerance
    Encoder.backend.replay (.seeded stamp c.header.width c.tables) (← pruned.calls)
  else .ok (c.withDocument (c.document.showing viewport))

inductive Image
  | compact (image : CompactImage)
  | graph (image : GraphImage)

namespace Image

/-- Read stored bytes into the wanted representation. -/
def ofBytes (stamp : Nat) (bytes : Compact.Bytes) : Representation → Except Error Image
  | .compact => .compact <$> CompactImage.ofBytes stamp bytes
  | .graph => do
    let c ← CompactImage.ofBytes stamp bytes
    .graph <$> c.toGraph stamp true

def representation : Image → Representation
  | .compact _ => .compact
  | .graph _ => .graph

def document : Image → Document
  | .compact c => c.document
  | .graph g => g.document

/-- The primitives in paint order. -/
def primitives : Image → Except Error (List Primitive)
  | .compact c => c.primitives
  | .graph g => g.primitives

/-- The union of the extents of all primitives. -/
def bounds (i : Image) : Except Error (Option Rect) := drawingBounds <$> i.primitives

def viewport (i : Image) : Except Error Viewport := i.document.viewport i.bounds

/-- The stream of calls that describes the image. -/
def calls : Image → Except Error (List Call)
  | .compact c => .ok c.calls
  | .graph g => g.calls

def withViewport (i : Image) (stamp : Nat) (viewport : Rect) (prune : Bool)
    (tolerance : Binary64) : Except Error Image :=
  match i with
  | .compact c => .compact <$> c.withViewport stamp viewport prune tolerance
  | .graph g => .graph <$> g.withViewport stamp viewport prune tolerance

/-- The compact form; a compact image is its own. -/
def toCompact (i : Image) (stamp : Nat) (width : FloatWidth) : Except Error CompactImage :=
  match i with
  | .compact c => .ok c
  | .graph g => g.toCompact stamp width

/-- The shared tree; a shared tree is its own. -/
def toGraph (i : Image) (stamp : Nat) (shareNodes : Bool) : Except Error GraphImage :=
  match i with
  | .compact c => c.toGraph stamp shareNodes
  | .graph g => .ok g

/-- The stored form. Shared trees are stored in full precision. -/
def toBytes (i : Image) (stamp : Nat) : Except Error Compact.Bytes := do
  let c ← i.toCompact stamp .binary64
  c.toBytes

end Image

end VectorImage
