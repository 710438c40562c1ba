import VectorImage.Drawing.Bounds
import VectorImage.Graph.Image

/-!
Pruning a shared tree to an area. The extent of a subtree leaves out clips and mask halves:
neither can make what is drawn larger. Leaves and uses that cannot meet the area are dropped, and with
them every group and masked node that no longer draws anything; clips stay with their group and
masks with their content. An exported group is kept whole while a use of it survives. What is
not changed keeps its instance. Keeping a group whole can bring back uses inside it, so the
groups kept whole are enlarged until they hold every target of a surviving use.
-/

set_option autoImplicit false
set_option relaxedAutoImplicit false

namespace VectorImage

mutual
def Node.bounds (r : Resources) (t : Affine) : Node → Except Error (Option Rect)
  | .group _ transform _ _ children =>
    Node.boundsAll r (t.after (sharedValue transform)) none children
  | .masked _ _ content => Node.boundsAll r t none content
  | .clip _ _ _ _ => .ok none
  | .shape _ geometry paint transform =>
    .ok (geometry.value.bounds.map fun b =>
      paintedBounds b paint.value.strokeWidth (t.after (sharedValue transform)))
  | .image _ leaf => .ok (some ((t.after leaf.transform).mapRect leaf.dest.abs))
  | .text _ leaf => do
    let text ← r.string leaf.text
    return some (paintedBounds (textBounds text.length leaf.size leaf.origin leaf.anchor)
      leaf.paint.strokeWidth (t.after leaf.transform))
  | .use _ _ target transform => Node.bounds r (t.after (sharedValue transform)) target

/-- The union over a list, starting from what is covered already. -/
def Node.boundsAll (r : Resources) (t : Affine) (covered : Option Rect) :
    List Node → Except Error (Option Rect)
  | [] => .ok covered
  | n :: rest => do
    match ← Node.bounds r t n with
    | some b => Node.boundsAll r t (some (Rect.unionOption covered b)) rest
    | none => Node.boundsAll r t covered rest
end

/-- What becomes of a node. -/
inductive Pruned
  | keep
  | drop
  | replace (node : Node)
  deriving Inhabited

/-- What becomes of a list of nodes: the nodes left, whether the list changed, and whether
anything left draws. -/
structure PrunedList where
  nodes : List Node
  changed : Bool
  drawable : Bool
  deriving Inhabited

/-- The list after the node `n` in front of it. -/
def PrunedList.cons (n : Node) (rest : PrunedList) : Pruned → PrunedList
  | .keep => ⟨n :: rest.nodes, rest.changed, n.isDrawable || rest.drawable⟩
  | .drop => { rest with changed := true }
  | .replace m => ⟨m :: rest.nodes, true, true⟩

/-- One pass of pruning: what to keep, and the stamp of the copies it makes. -/
structure Pruning where
  resources : Resources
  area : Rect
  pinned : List StringId
  stamp : Nat
  deriving Inhabited

/-- The group is one of those kept whole. -/
def Pruning.isPinned (c : Pruning) (exportId : Option StringId) : Bool :=
  match exportId with
  | some id => c.pinned.contains id
  | none => false

/-- A node that draws by itself is kept if its extent meets the area. -/
def Pruning.test (c : Pruning) (t : Affine) (n : Node) : Except Error Pruned := do
  match ← n.bounds c.resources t with
  | some b => return if b.overlaps c.area then .keep else .drop
  | none => return .drop

/-- Close a list that belongs to a node: nothing left to draw drops the node, no change keeps it,
and else it is rebuilt around what is left. -/
def PrunedList.close (l : PrunedList) (rebuild : List Node → Node) : Pruned :=
  if !l.drawable then .drop else if !l.changed then .keep else .replace (rebuild l.nodes)

mutual
def Node.prune (c : Pruning) (t : Affine) (place : List Nat) : Node → Except Error Pruned
  | .group _ transform alpha exportId children =>
    if c.isPinned exportId then .ok .keep
    else do
      let l ← Node.pruneAll c (t.after (sharedValue transform)) place 0 children
      return l.close fun nodes => .group ⟨c.stamp, place⟩ transform alpha exportId nodes
  | .masked _ mask content => do
    let l ← Node.pruneAll c t place 0 content
    return l.close fun nodes => .masked ⟨c.stamp, place⟩ mask nodes
  | .clip _ _ _ _ => .ok .keep
  | .shape inst geometry paint transform => c.test t (.shape inst geometry paint transform)
  | .image inst leaf => c.test t (.image inst leaf)
  | .text inst leaf => c.test t (.text inst leaf)
  | .use inst targetId target transform => c.test t (.use inst targetId target transform)

/-- Prune the nodes of a list from position `i` on. -/
def Node.pruneAll (c : Pruning) (t : Affine) (place : List Nat) (i : Nat) :
    List Node → Except Error PrunedList
  | [] => .ok ⟨[], false, false⟩
  | n :: rest => do
    let pruned ← Node.prune c t (place ++ [i]) n
    let rest ← Node.pruneAll c t place (i + 1) rest
    return .cons n rest pruned
end

/-- One pass over the whole tree. The root stays a root even when nothing is left in it. -/
def Pruning.pass (c : Pruning) (root : GraphRoot) : Except Error GraphRoot := do
  let l ← Node.pruneAll c .identity [] 0 root.children
  return if !l.drawable then ⟨⟨c.stamp, []⟩, []⟩
    else if !l.changed then root
    else ⟨⟨c.stamp, []⟩, l.nodes⟩

/-- The names of the groups that uses of the tree refer to. -/
def GraphRoot.targets (root : GraphRoot) : List StringId :=
  root.toNode.visited.filterMap Node.targetId?

/-- The targets of surviving uses that are not kept whole yet. -/
def Pruning.unpinned (c : Pruning) (source pruned : GraphRoot) : List StringId :=
  let live := pruned.targets
  source.targets.filter fun id => live.contains id && !c.pinned.contains id

/-- How many uses of the tree refer to a group that is not kept whole. -/
def Pruning.remaining (c : Pruning) (source : GraphRoot) : Nat :=
  (source.targets.filter fun id => !c.pinned.contains id).length

/-- Keep more groups whole. -/
def Pruning.pin (c : Pruning) (ids : List StringId) : Pruning :=
  { c with pinned := ids ++ c.pinned }

private theorem length_filter_lt {α : Type} {p q : α → Bool} {l : List α}
    (hpq : ∀ a, q a = true → p a = true) {a : α} (ha : a ∈ l) (hp : p a = true)
    (hq : q a = false) : (l.filter q).length < (l.filter p).length := by
  induction l with
  | nil => cases ha
  | cons b rest ih =>
    have hle : (rest.filter q).length ≤ (rest.filter p).length := by
      clear ih ha
      induction rest with
      | nil => exact Nat.le_refl _
      | cons c rest ih =>
        cases hc : q c with
        | true =>
          simp only [List.filter_cons, hc, hpq c hc, if_true, List.length_cons]
          omega
        | false =>
          cases hd : p c with
          | true =>
            simp only [List.filter_cons, hc, hd, if_true, List.length_cons, Bool.false_eq_true,
              if_false]
            omega
          | false =>
            simp only [List.filter_cons, hc, hd, Bool.false_eq_true, if_false]
            exact ih
    cases List.mem_cons.mp ha with
    | inl h =>
      subst h
      simp only [List.filter_cons, hp, hq, if_true, List.length_cons, Bool.false_eq_true, if_false]
      omega
    | inr h =>
      have := ih h
      cases hb : q b with
      | true =>
        simp only [List.filter_cons, hb, hpq b hb, if_true, List.length_cons]
        omega
      | false =>
        cases hd : p b with
        | true =>
          simp only [List.filter_cons, hb, hd, if_true, List.length_cons, Bool.false_eq_true,
            if_false]
          omega
        | false => simpa only [List.filter_cons, hb, hd, Bool.false_eq_true, if_false] using this

theorem Pruning.remaining_pin_lt (c : Pruning) (source pruned : GraphRoot)
    (h : c.unpinned source pruned ≠ []) :
    (c.pin (c.unpinned source pruned)).remaining source < c.remaining source := by
  obtain ⟨id, hid⟩ := List.exists_mem_of_ne_nil _ h
  have hmem := List.mem_filter.mp hid
  simp only [Bool.and_eq_true] at hmem
  refine length_filter_lt (a := id) ?_ hmem.1 hmem.2.2 ?_
  · intro a ha
    simp only [pin, List.contains_eq_mem, List.mem_append, Bool.not_eq_true',
      decide_eq_false_iff_not, not_or] at ha ⊢
    exact ha.2
  · simp only [pin, List.contains_eq_mem, List.mem_append, Bool.not_eq_false',
      decide_eq_true_eq]
    exact Or.inl hid

/-- Repeat passes until every surviving use refers to a group that is kept whole. -/
def Pruning.run (c : Pruning) (root : GraphRoot) : Except Error GraphRoot := do
  let pruned ← c.pass root
  if _h : c.unpinned root pruned = [] then return pruned
  else (c.pin (c.unpinned root pruned)).run root
termination_by c.remaining root
decreasing_by exact c.remaining_pin_lt root pruned _h

namespace GraphImage

/-- The pruning of an image to a viewport with a margin around it. -/
def pruning (g : GraphImage) (stamp : Nat) (viewport : Rect) (tolerance : Binary64) : Pruning where
  resources := g.resources
  area := viewport.abs.inflate tolerance tolerance
  pinned := []
  stamp := stamp

/-- The root of the tree pruned to a viewport. -/
def prune (g : GraphImage) (stamp : Nat) (viewport : Rect) (tolerance : Binary64) :
    Except Error GraphRoot :=
  (g.pruning stamp viewport tolerance).run g.root

/-- The image seen through another viewport, pruned to it on demand. -/
def withViewport (g : GraphImage) (stamp : Nat) (viewport : Rect) (prune : Bool)
    (tolerance : Binary64) : Except Error GraphImage := do
  let root ← if prune then g.prune stamp viewport tolerance else .ok g.root
  return { g with document := g.document.showing viewport, root := root }

end GraphImage

end VectorImage
