import VectorImage.Call.Backend
import VectorImage.Drawing.Painter
import VectorImage.Graph.Sharing

/-!
Images as shared trees. The root is a group of its own that is never shared; drawing walks the
tree, and the calls that describe the image register only the gradients that a leaf still uses.
-/

set_option autoImplicit false
set_option relaxedAutoImplicit false

namespace VectorImage

/-- The implicit root group. -/
structure GraphRoot where
  inst : Instance
  children : List Node
  deriving Inhabited

/-- The root as a node: a plain group. -/
def GraphRoot.toNode (r : GraphRoot) : Node := .group r.inst none 255 none r.children

structure GraphImage where
  document : Document
  root : GraphRoot
  tables : Tables
  gradients : Array Gradient
  cache : NodeCache
  deriving Inhabited

/-! Painting a node: groups, mask halves and uses get a scope of their own. -/

mutual
def Node.draw (r : Resources) : Node → Painter → Except Error Painter
  | .group _ transform alpha _ children, p => do
    let p ← Node.drawAll r children (p.beginGroup (sharedValue transform) alpha)
    return p.endGroup
  | .clip _ path rule transform, p => .ok (p.clip path.value rule (sharedValue transform))
  | .masked _ mask content, p => do
    let p ← Node.drawAll r mask p.beginMask
    let p ← Node.drawAll r content p.maskContent
    return p.endMask
  | .shape _ geometry paint transform, p =>
    p.shape r ⟨geometry.value, paint.value, sharedValue transform⟩
  | .image _ leaf, p => p.image r leaf
  | .text _ leaf, p => p.text r leaf
  | .use _ _ target transform, p => do
    let p ← Node.draw r target (p.beginUse (sharedValue transform))
    return p.endUse

def Node.drawAll (r : Resources) : List Node → Painter → Except Error Painter
  | [], p => .ok p
  | n :: rest, p => do
    let p ← Node.draw r n p
    Node.drawAll r rest p
end

/-! The calls that build a node again. -/

mutual
def Node.calls : Node → List Call
  | .group _ transform alpha exportId children =>
    .beginGroup ⟨sharedValue transform, alpha, exportId⟩ :: (Node.callsAll children ++ [.endGroup])
  | .clip _ path rule transform => [.clip ⟨path.value, rule, sharedValue transform⟩]
  | .masked _ mask content =>
    .beginMask :: (Node.callsAll mask ++ .maskContent :: (Node.callsAll content ++ [.endMask]))
  | .shape _ geometry paint transform =>
    [.shape ⟨geometry.value, paint.value, sharedValue transform⟩]
  | .image _ leaf => [.image leaf]
  | .text _ leaf => [.text leaf]
  | .use _ targetId _ transform => [.use ⟨targetId, sharedValue transform⟩]

def Node.callsAll : List Node → List Call
  | [] => []
  | n :: rest => Node.calls n ++ Node.callsAll rest
end

namespace GraphImage

def resources (g : GraphImage) : Resources where
  images := g.tables.images.toArray
  strings := g.tables.strings.toArray
  floatLists := g.tables.floatLists.toArray
  gradients := g.gradients

/-- The primitives in paint order. -/
def primitives (g : GraphImage) : Except Error (List Primitive) := do
  let p ← Node.drawAll g.resources g.root.children .start
  return p.finish

/-- Every node from the root on, use targets not entered. -/
def visited (g : GraphImage) : List Node := g.root.toNode.visited

/-- The gradients that some leaf is painted with, in ascending order. -/
def liveGradients (g : GraphImage) : List GradientId :=
  let used := g.visited.flatMap fun n => (n.paint?.map Paint.gradientIds).getD []
  used.eraseDups.mergeSort fun a b => a.toNat ≤ b.toNat

/-- The id of a gradient in a stream that registers exactly `live`. -/
def renumber (live : List GradientId) (id : GradientId) : Except Error GradientId :=
  match live.idxOf? id with
  | some i => .ok (UInt32.ofNat i)
  | none => .error (.structural (.missing .gradient id))

/-- The stream of calls that describes the image: tables, document, the gradients in use, and
the tree. -/
def calls (g : GraphImage) : Except Error (List Call) := do
  let live := g.liveGradients
  let gradients ← live.mapM fun id => lookup g.gradients .gradient id
  let tree ← (Node.callsAll g.root.children).mapM (Call.mapGradients (renumber live))
  return .init g.tables :: .document g.document :: (gradients.map .gradient ++ tree)

end GraphImage

end VectorImage
