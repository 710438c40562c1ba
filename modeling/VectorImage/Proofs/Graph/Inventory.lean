import VectorImage.Proofs.Graph.Face

/-!
The values a run of builds has made, each under its instance. In an inventory an instance names
one value and the parts of every node are there too; then two nodes with one face, and so two with
one key, differ by their instances at most, although a face has only the instances of the parts.
-/

set_option autoImplicit false
set_option relaxedAutoImplicit false

namespace VectorImage

/-- A value that has an instance. -/
inductive Item
  | transform (t : Shared Affine)
  | path (p : Shared Path)
  | poly (g : Shared PolyGeom)
  | paint (p : Shared Paint)
  | node (n : Node)

def Item.inst : Item → Instance
  | .transform t => t.inst
  | .path p => p.inst
  | .poly g => g.inst
  | .paint p => p.inst
  | .node n => n.inst

/-- The same node as another instance. -/
def Node.renew (i : Instance) : Node → Node
  | .group _ transform alpha exportId children => .group i transform alpha exportId children
  | .clip _ path rule transform => .clip i path rule transform
  | .masked _ mask content => .masked i mask content
  | .shape _ geometry paint transform => .shape i geometry paint transform
  | .image _ leaf => .image i leaf
  | .text _ leaf => .text i leaf
  | .use _ targetId target transform => .use i targetId target transform

@[simp]
theorem Node.renew_inst (n : Node) : n.renew n.inst = n := by cases n <;> rfl

/-- The values made so far. -/
abbrev Inventory := List Item

namespace Inventory

/-- An instance names one value. -/
def Unambiguous (items : Inventory) : Prop :=
  ∀ a ∈ items, ∀ b ∈ items, a.inst = b.inst → a = b

def HasTransform (items : Inventory) (t : Option (Shared Affine)) : Prop :=
  ∀ m, t = some m → Item.transform m ∈ items

def HasNodes (items : Inventory) (nodes : List Node) : Prop :=
  ∀ n ∈ nodes, Item.node n ∈ items

def HasGeometry (items : Inventory) : NodeGeometry → Prop
  | .path p => Item.path p ∈ items
  | .poly g => Item.poly g ∈ items
  | .rect _ => True
  | .ellipse _ => True

/-- The parts of a node are in the inventory. -/
def HasParts (items : Inventory) : Node → Prop
  | .group _ transform _ _ children => items.HasTransform transform ∧ items.HasNodes children
  | .clip _ path _ transform => Item.path path ∈ items ∧ items.HasTransform transform
  | .masked _ mask content => items.HasNodes mask ∧ items.HasNodes content
  | .shape _ geometry paint transform =>
    items.HasGeometry geometry ∧ Item.paint paint ∈ items ∧ items.HasTransform transform
  | .image _ _ => True
  | .text _ _ => True
  | .use _ _ target transform => Item.node target ∈ items ∧ items.HasTransform transform

variable {items items' : Inventory}

theorem HasTransform.mono (h : items ⊆ items') {t : Option (Shared Affine)}
    (ht : items.HasTransform t) : items'.HasTransform t := fun m hm => h (ht m hm)

theorem HasNodes.mono (h : items ⊆ items') {nodes : List Node} (hn : items.HasNodes nodes) :
    items'.HasNodes nodes := fun n hmem => h (hn n hmem)

theorem HasGeometry.mono (h : items ⊆ items') {g : NodeGeometry} (hg : items.HasGeometry g) :
    items'.HasGeometry g := by
  cases g with
  | path p => exact h hg
  | poly g => exact h hg
  | rect g => trivial
  | ellipse g => trivial

theorem HasParts.mono (h : items ⊆ items') {n : Node} (hn : items.HasParts n) :
    items'.HasParts n := by
  cases n with
  | group inst transform alpha exportId children => exact ⟨hn.1.mono h, hn.2.mono h⟩
  | clip inst path rule transform => exact ⟨h hn.1, hn.2.mono h⟩
  | masked inst mask content => exact ⟨hn.1.mono h, hn.2.mono h⟩
  | shape inst geometry paint transform => exact ⟨hn.1.mono h, h hn.2.1, hn.2.2.mono h⟩
  | image inst leaf => trivial
  | text inst leaf => trivial
  | use inst targetId target transform => exact ⟨h hn.1, hn.2.mono h⟩

/-! Values of the inventory that have one instance are one value. -/

theorem transform_eq (h : items.Unambiguous) {s t : Option (Shared Affine)}
    (hs : items.HasTransform s) (ht : items.HasTransform t)
    (he : s.map Shared.inst = t.map Shared.inst) : s = t := by
  cases s with
  | none =>
    cases t with
    | none => rfl
    | some n => cases he
  | some m =>
    cases t with
    | none => cases he
    | some n =>
      have hitem := h _ (hs m rfl) _ (ht n rfl) (Option.some.inj he)
      cases hitem
      rfl

theorem node_eq (h : items.Unambiguous) {m n : Node} (hm : Item.node m ∈ items)
    (hn : Item.node n ∈ items) (he : m.inst = n.inst) : m = n := by
  have hitem := h _ hm _ hn he
  cases hitem
  rfl

theorem path_eq (h : items.Unambiguous) {p q : Shared Path} (hp : Item.path p ∈ items)
    (hq : Item.path q ∈ items) (he : p.inst = q.inst) : p = q := by
  have hitem := h _ hp _ hq he
  cases hitem
  rfl

theorem poly_eq (h : items.Unambiguous) {p q : Shared PolyGeom} (hp : Item.poly p ∈ items)
    (hq : Item.poly q ∈ items) (he : p.inst = q.inst) : p = q := by
  have hitem := h _ hp _ hq he
  cases hitem
  rfl

theorem paint_eq (h : items.Unambiguous) {p q : Shared Paint} (hp : Item.paint p ∈ items)
    (hq : Item.paint q ∈ items) (he : p.inst = q.inst) : p = q := by
  have hitem := h _ hp _ hq he
  cases hitem
  rfl

theorem nodes_eq (h : items.Unambiguous) {ms ns : List Node} (hms : items.HasNodes ms)
    (hns : items.HasNodes ns) (he : ms.map Node.inst = ns.map Node.inst) : ms = ns := by
  induction ms generalizing ns with
  | nil => exact (List.map_eq_nil_iff.mp he.symm).symm
  | cons m ms ih =>
    obtain ⟨n, ns, rfl, hfirst, hrest⟩ := List.map_eq_cons_iff.mp he.symm
    rw [node_eq h (hms m List.mem_cons_self) (hns n List.mem_cons_self) hfirst.symm,
      ih (fun k hk => hms k (List.mem_cons_of_mem m hk))
        (fun k hk => hns k (List.mem_cons_of_mem n hk)) hrest.symm]

private theorem geometry_eq (h : items.Unambiguous) {g g' : NodeGeometry}
    (hg : items.HasGeometry g) (hg' : items.HasGeometry g') (he : g.face = g'.face) : g = g' := by
  cases g with
  | path p =>
    cases g' with
    | path q => exact congrArg _ (path_eq h hg hg' (OutlineFace.path.inj he))
    | _ => cases he
  | rect r =>
    cases g' with
    | rect s => exact congrArg _ (OutlineFace.rect.inj he)
    | _ => cases he
  | ellipse r =>
    cases g' with
    | ellipse s => exact congrArg _ (OutlineFace.ellipse.inj he)
    | _ => cases he
  | poly p =>
    cases g' with
    | poly q => exact congrArg _ (poly_eq h hg hg' (OutlineFace.poly.inj he))
    | _ => cases he

/-- Nodes of one face are the same but for their instances. -/
theorem renew_eq_of_face (h : items.Unambiguous) {m n : Node} (hm : items.HasParts m)
    (hn : items.HasParts n) (he : m.face = n.face) (i : Instance) : m.renew i = n.renew i := by
  cases m with
  | group inst transform alpha exportId children =>
    cases n with
    | group inst' transform' alpha' exportId' children' =>
      obtain ⟨htransform, rfl, rfl, hchildren⟩ := NodeFace.group.inj he
      rw [transform_eq h hm.1 hn.1 htransform, nodes_eq h hm.2 hn.2 hchildren]
      rfl
    | _ => cases he
  | clip inst path rule transform =>
    cases n with
    | clip inst' path' rule' transform' =>
      obtain ⟨hpath, rfl, htransform⟩ := NodeFace.clip.inj he
      rw [path_eq h hm.1 hn.1 hpath, transform_eq h hm.2 hn.2 htransform]
      rfl
    | _ => cases he
  | masked inst mask content =>
    cases n with
    | masked inst' mask' content' =>
      obtain ⟨hmask, hcontent⟩ := NodeFace.masked.inj he
      rw [nodes_eq h hm.1 hn.1 hmask, nodes_eq h hm.2 hn.2 hcontent]
      rfl
    | _ => cases he
  | shape inst geometry paint transform =>
    cases n with
    | shape inst' geometry' paint' transform' =>
      obtain ⟨hgeometry, hpaint, htransform⟩ := NodeFace.shape.inj he
      rw [geometry_eq h hm.1 hn.1 hgeometry, paint_eq h hm.2.1 hn.2.1 hpaint,
        transform_eq h hm.2.2 hn.2.2 htransform]
      rfl
    | _ => cases he
  | image inst leaf =>
    cases n with
    | image inst' leaf' =>
      obtain rfl := NodeFace.image.inj he
      rfl
    | _ => cases he
  | text inst leaf =>
    cases n with
    | text inst' leaf' =>
      obtain rfl := NodeFace.text.inj he
      rfl
    | _ => cases he
  | use inst targetId target transform =>
    cases n with
    | use inst' targetId' target' transform' =>
      obtain ⟨rfl, htarget, htransform⟩ := NodeFace.use.inj he
      rw [node_eq h hm.1 hn.1 htarget, transform_eq h hm.2 hn.2 htransform]
      rfl
    | _ => cases he

end Inventory

/-- Nodes of one key are the same but for their instances. -/
theorem Key.renew_eq_of_node {items : Inventory} (h : items.Unambiguous) {m n : Node}
    (hm : items.HasParts m) (hn : items.HasParts n) (he : Key.node m = Key.node n)
    (i : Instance) : m.renew i = n.renew i :=
  Inventory.renew_eq_of_face h hm hn (Key.node_eq_iff.mp he) i

end VectorImage
