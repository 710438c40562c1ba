import VectorImage.Graph.Listing
import VectorImage.Image

/-!
Numbered slots of a script, and what can be asked of them. Each step fills the slot of its number,
or leaves it empty when it fails or yields nothing; later steps refer to slots by number. Each query
is answered on its own: one that fails does not keep the others from being answered.
-/

set_option autoImplicit false
set_option relaxedAutoImplicit false

namespace VectorImage

namespace Script

/-- What a slot can hold. -/
inductive Held
  | calls (calls : List Call)
  | image (image : Image)
  | bytes (bytes : Compact.Bytes)

/-- Why a step cannot use a slot. -/
inductive Refusal
  | emptySlot
  | notImage
  | notBytes
  deriving DecidableEq

def Refusal.message : Refusal → String
  | .emptySlot => "empty slot"
  | .notImage => "slot is not an image"
  | .notBytes => "slot is not bytes"

/-- How a step fails: the operation itself fails, or it cannot use a slot. -/
inductive Failure
  | error (cause : Error)
  | refusal (cause : Refusal)
  deriving DecidableEq

/-- The slots of the steps so far. -/
abbrev Slots := Array (Option Held)

/-- Report an operation's own failure. -/
def attempt {α : Type} : Except Error α → Except Failure α
  | .ok a => .ok a
  | .error e => .error (.error e)

namespace Slots

def held (s : Slots) (slot : Nat) : Except Failure Held :=
  match s[slot]? with
  | some (some h) => .ok h
  | _ => .error (.refusal .emptySlot)

def image (s : Slots) (slot : Nat) : Except Failure Image := do
  match ← s.held slot with
  | .image i => return i
  | _ => throw (.refusal .notImage)

def graph (s : Slots) (slot : Nat) : Except Failure GraphImage := do
  match ← s.image slot with
  | .graph g => return g
  | .compact _ => throw (.refusal .notImage)

def bytes (s : Slots) (slot : Nat) : Except Failure Compact.Bytes := do
  match ← s.held slot with
  | .bytes b => return b
  | _ => throw (.refusal .notBytes)

/-- The stream that a slot describes: its calls, or those of its image. -/
def stream (s : Slots) (slot : Nat) : Except Failure (List Call) := do
  match ← s.held slot with
  | .calls calls => return calls
  | .image i => attempt i.calls
  | .bytes _ => throw (.refusal .notImage)

end Slots

end Script

namespace Script

inductive Query
  | calls
  | rawCalls
  | info
  | primitives
  | primitiveCount
  | primitiveBounds
  | bounds
  | viewport
  | document
  | representation
  | visited
  | tree
  deriving DecidableEq

/-- The answer to a query. -/
inductive Finding
  | calls (calls : List Call)
  | compactInfo (header : Compact.Header) (document : Document) (tableSizes : List Nat)
      (gradients : Nat)
  | graphInfo (document : Document) (tables : Tables) (gradients : List Gradient)
      (nodes paths transforms : Nat) (isEmpty : Bool)
  | primitives (primitives : List Primitive)
  | count (n : Nat)
  | extents (extents : List (Option Rect))
  | bounds (extent : Option Rect)
  | viewport (viewport : Viewport)
  | document (document : Document)
  | representation (representation : Representation)
  | tree (root : NodeListing)
  deriving Inhabited

/-- The facts about an image that its parts show. -/
def infoOf : Image → Finding
  | .compact c =>
    .compactInfo c.header c.document c.tables.value.counts c.contents.gradients.size
  | .graph g =>
    .graphInfo g.document g.tables g.gradients.toList g.cache.nodeCount g.cache.pathCount
      g.cache.transformCount g.cache.isEmpty

/-- The answer to a query. Listings go on with the numbers given before. -/
def Query.find (slots : Slots) (slot : Nat) : Query → StateT Numbering (Except Failure) Finding
  | .calls => do
    let stream ← slots.stream slot
    return .calls (← attempt (Recorder.record stream))
  | .rawCalls => do
    match ← slots.held slot with
    | .calls stream => return .calls stream
    | _ => throw (.refusal .notImage)
  | .info => do
    let i ← slots.image slot
    return infoOf i
  | .primitives => do
    let i ← slots.image slot
    return .primitives (← attempt i.primitives)
  | .primitiveCount => do
    let i ← slots.image slot
    return .count (← attempt i.primitives).length
  | .primitiveBounds => do
    let i ← slots.image slot
    return .extents ((← attempt i.primitives).map Primitive.bounds)
  | .bounds => do
    let i ← slots.image slot
    return .bounds (← attempt i.bounds)
  | .viewport => do
    let i ← slots.image slot
    return .viewport (← attempt i.viewport)
  | .document => do
    let i ← slots.image slot
    return .document i.document
  | .representation => do
    let i ← slots.image slot
    return .representation i.representation
  | .visited => do
    let g ← slots.graph slot
    return .count g.visited.length
  | .tree => do
    let g ← slots.graph slot
    let numbering ← get
    let (root, numbering) := g.root.toNode.listing numbering
    set numbering
    return .tree root

/-- The answers to several queries, in order. -/
def inspect (slots : Slots) (slot : Nat) :
    List Query → Numbering → List (Query × Except Failure Finding) × Numbering
  | [], numbering => ([], numbering)
  | q :: rest, numbering =>
    let (answer, numbering) :=
      match q.find slots slot numbering with
      | .ok (finding, numbering) => (.ok finding, numbering)
      | .error failure => (.error failure, numbering)
    let (answers, numbering) := inspect slots slot rest numbering
    ((q, answer) :: answers, numbering)

end Script

end VectorImage
