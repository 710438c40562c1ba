import VectorImage.Graph.Image

/-!
The backend that builds shared trees. Values are always shared; nodes are shared on demand. The
nodes of an open scope wait in its frame until the scope is closed.
-/

set_option autoImplicit false
set_option relaxedAutoImplicit false

namespace VectorImage

/-- What an open scope will become. -/
inductive GraphScope
  | group (attrs : GroupAttrs)
  | mask
  | maskContent (mask : List Node)
  deriving Inhabited

structure GraphFrame where
  scope : GraphScope
  children : Array Node
  deriving Inhabited

/-- Frames are listed innermost first; `root` holds the finished top-level nodes. -/
structure GraphBuilder where
  shareNodes : Bool
  sharing : Sharing
  tables : Tables
  gradients : CanonicalTable Gradient
  document : Document
  root : Array Node
  frames : List GraphFrame
  exports : List (StringId × Node)
  deriving Inhabited

namespace GraphBuilder

/-- A builder of the run `stamp` that starts from the values of an earlier build. -/
def start (stamp : Nat) (shareNodes : Bool) (seed : NodeCache) : GraphBuilder where
  shareNodes := shareNodes
  sharing := .start stamp seed
  tables := .empty
  gradients := .empty
  document := .empty
  root := #[]
  frames := []
  exports := []

abbrev Build (α : Type) := StateT GraphBuilder (Except Error) α

/-- Share values of the build. -/
def withSharing {α : Type} (m : StateM Sharing α) : Build α := fun b =>
  let (a, sharing) := m b.sharing
  .ok (a, { b with sharing := sharing })

/-- Add a finished node to the innermost scope, shared if nodes are. -/
def add (make : Instance → Node) : Build Node := do
  let node := make (← withSharing Sharing.mint)
  let node ← if (← get).shareNodes then withSharing (Sharing.node node) else pure node
  modify fun b =>
    match b.frames with
    | [] => { b with root := b.root.push node }
    | f :: rest => { b with frames := { f with children := f.children.push node } :: rest }
  return node

def openScope (scope : GraphScope) : Build Unit :=
  modify fun b => { b with frames := ⟨scope, #[]⟩ :: b.frames }

/-- Close the innermost scope. -/
def closeScope : Build GraphFrame := do
  match (← get).frames with
  | f :: rest =>
    modify fun b => { b with frames := rest }
    return f
  | [] => throw (.format .scopeMismatch)

def endGroup : Build Unit := do
  match ← closeScope with
  | ⟨.group attrs, children⟩ =>
    let transform ← withSharing (Sharing.transform attrs.transform)
    let node ← add fun inst => .group inst transform attrs.alpha attrs.exportId children.toList
    match attrs.exportId with
    | some id => modify fun b => { b with exports := (id, node) :: b.exports }
    | none => return
  | _ => throw (.format .scopeMismatch)

def maskContent : Build Unit := do
  match ← closeScope with
  | ⟨.mask, children⟩ => openScope (.maskContent children.toList)
  | _ => throw (.format .scopeMismatch)

def endMask : Build Unit := do
  match ← closeScope with
  | ⟨.maskContent mask, children⟩ =>
    let _ ← add fun inst => .masked inst mask children.toList
  | _ => throw (.format .scopeMismatch)

def shape (s : Shape) : Build Unit := do
  let geometry ← withSharing (Sharing.geometry s.geometry)
  let paint ← withSharing (Sharing.paint s.paint)
  let transform ← withSharing (Sharing.transform s.transform)
  let _ ← add fun inst => .shape inst geometry paint transform

def clip (c : ClipPath) : Build Unit := do
  let path ← withSharing (Sharing.path c.path)
  let transform ← withSharing (Sharing.transform c.transform)
  let _ ← add fun inst => .clip inst path c.rule transform

def useRef (u : UseRef) : Build Unit := do
  match (← get).exports.lookup u.target with
  | some target =>
    let transform ← withSharing (Sharing.transform u.transform)
    let _ ← add fun inst => .use inst u.target target transform
  | none => throw (.structural (.useUnresolved u.target))

def init (t : Tables) : Build Unit := do
  t.images.forM fun v => do
    let _ ← withSharing (Sharing.raster v)
  t.strings.forM fun v => do
    let _ ← withSharing (Sharing.string v)
  t.floatLists.forM fun v => do
    let _ ← withSharing (Sharing.floatList v)
  modify fun b => { b with tables := t }

def gradient (g : Gradient) : Build GradientId := do
  let (gradients, id) ← (← get).gradients.intern g
  modify fun b => { b with gradients := gradients }
  return id

/-- Perform an accepted call. -/
def call : Call → Build Reply
  | .init t => do
    init t
    return .done
  | .document d => do
    modify fun b => { b with document := d }
    return .done
  | .gradient g => return .gradient (← gradient g)
  | .beginGroup attrs => do
    openScope (.group attrs)
    return .done
  | .endGroup => do
    endGroup
    return .done
  | .clip c => do
    clip c
    return .done
  | .beginMask => do
    openScope .mask
    return .done
  | .maskContent => do
    maskContent
    return .done
  | .endMask => do
    endMask
    return .done
  | .shape s => do
    shape s
    return .done
  | .image leaf => do
    let _ ← add fun inst => .image inst leaf
    return .done
  | .text leaf => do
    let _ ← add fun inst => .text inst leaf
    return .done
  | .use u => do
    useRef u
    return .done

def perform (b : GraphBuilder) (c : Call) : Except Error (GraphBuilder × Reply) :=
  (call c b).map fun r => (r.2, r.1)

/-- The finished image. Its root is an instance that no node of the build has. -/
def complete (b : GraphBuilder) : Except Error GraphImage :=
  match b.frames with
  | [] => .ok {
      document := b.document
      root := ⟨⟨b.sharing.stamp, []⟩, b.root.toList⟩
      tables := b.tables
      gradients := b.gradients.entries
      cache := b.sharing.met }
  | _ :: _ => .error (.format .scopeMismatch)

def backend : Backend GraphBuilder GraphImage where
  gradientCount b := b.gradients.size
  perform := perform
  complete := complete

end GraphBuilder

/-- Build an image from a stream. -/
def GraphImage.ofCalls (stamp : Nat) (shareNodes : Bool) (seed : NodeCache) (calls : List Call) :
    Except Error GraphImage :=
  GraphBuilder.backend.replay (.start stamp shareNodes seed) calls

end VectorImage
