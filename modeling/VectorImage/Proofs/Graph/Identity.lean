import VectorImage.Proofs.Graph.Exactness
import VectorImage.Proofs.Graph.Likeness

/-!
One instance for what is equal. The parts of nodes that are equal are one instance each if all is
shared, so their keys are the same and the nodes are one instance too; and an instance never names
two values.
-/

set_option autoImplicit false
set_option relaxedAutoImplicit false

namespace VectorImage

/-! The values that a tree is made of, targets of uses included. -/

def transformItems (t : Option (Shared Affine)) : List Item := (t.map Item.transform).toList

def NodeGeometry.items : NodeGeometry → List Item
  | .path p => [.path p]
  | .poly g => [.poly g]
  | .rect _ => []
  | .ellipse _ => []

theorem node_not_mem_transformItems (m : Node) (t : Option (Shared Affine)) :
    .node m ∉ transformItems t := by
  cases t <;> simp [transformItems]

theorem NodeGeometry.node_not_mem_items (m : Node) (g : NodeGeometry) : .node m ∉ g.items := by
  cases g <;> simp [items]

mutual
def Node.items : Node → List Item
  | .group inst transform alpha exportId children =>
    .node (.group inst transform alpha exportId children) ::
      (transformItems transform ++ Node.itemsAll children)
  | .clip inst path rule transform =>
    .node (.clip inst path rule transform) :: .path path :: transformItems transform
  | .masked inst mask content =>
    .node (.masked inst mask content) :: (Node.itemsAll mask ++ Node.itemsAll content)
  | .shape inst geometry paint transform =>
    .node (.shape inst geometry paint transform) :: .paint paint ::
      (geometry.items ++ transformItems transform)
  | .image inst leaf => [.node (.image inst leaf)]
  | .text inst leaf => [.node (.text inst leaf)]
  | .use inst targetId target transform =>
    .node (.use inst targetId target transform) :: (transformItems transform ++ Node.items target)

def Node.itemsAll : List Node → List Item
  | [] => []
  | n :: rest => Node.items n ++ Node.itemsAll rest
end

theorem Node.self_mem_items (n : Node) : .node n ∈ n.items := by
  cases n <;> rw [items] <;> exact List.mem_cons_self

theorem Node.items_subset_itemsAll {n : Node} {nodes : List Node} (hn : n ∈ nodes) :
    n.items ⊆ itemsAll nodes := by
  induction nodes with
  | nil => cases hn
  | cons m rest ih =>
    rw [itemsAll]
    rcases List.mem_cons.mp hn with rfl | hn
    · exact List.subset_append_left ..
    · exact List.subset_append_of_subset_right _ (ih hn)

/-- The same value under no instance in particular, a node with all that it is made of. -/
def Item.plain : Item → Item
  | .transform t => .transform t.plain
  | .path p => .path p.plain
  | .poly g => .poly g.plain
  | .paint p => .paint p.plain
  | .node n => .node n.plain

theorem Item.isNode_plain (a : Item) : a.plain.isNode = a.isNode := by cases a <;> rfl

theorem transformItems_plain (t : Option (Shared Affine)) :
    transformItems (t.map Shared.plain) = (transformItems t).map Item.plain := by cases t <;> rfl

theorem NodeGeometry.items_plain (g : NodeGeometry) : g.plain.items = g.items.map Item.plain := by
  cases g <;> rfl

mutual
theorem Node.items_plain (n : Node) : Node.items n.plain = (Node.items n).map Item.plain := by
  cases n with
  | group inst transform alpha exportId children =>
    simp only [Node.plain, Node.items, transformItems_plain, Node.itemsAll_plain children,
      List.map_cons, List.map_append, Item.plain]
  | clip inst path rule transform =>
    simp only [Node.plain, Node.items, transformItems_plain, List.map_cons, Item.plain]
  | masked inst mask content =>
    simp only [Node.plain, Node.items, Node.itemsAll_plain mask, Node.itemsAll_plain content,
      List.map_cons, List.map_append, Item.plain]
  | shape inst geometry paint transform =>
    simp only [Node.plain, Node.items, transformItems_plain, NodeGeometry.items_plain,
      List.map_cons, List.map_append, Item.plain]
  | image inst leaf => simp only [Node.plain, Node.items, List.map_cons, List.map_nil, Item.plain]
  | text inst leaf => simp only [Node.plain, Node.items, List.map_cons, List.map_nil, Item.plain]
  | use inst targetId target transform =>
    simp only [Node.plain, Node.items, transformItems_plain, Node.items_plain target,
      List.map_cons, List.map_append, Item.plain]

theorem Node.itemsAll_plain (nodes : List Node) :
    Node.itemsAll (Node.plainAll nodes) = (Node.itemsAll nodes).map Item.plain := by
  cases nodes with
  | nil => rw [Node.plainAll, Node.itemsAll, List.map_nil]
  | cons n rest =>
    rw [Node.plainAll, Node.itemsAll, Node.items_plain n, Node.itemsAll_plain rest, Node.itemsAll,
      List.map_append]
end

namespace Inventory

variable {items : Inventory}

private theorem transformItems_subset {t : Option (Shared Affine)} (h : items.HasTransform t) :
    transformItems t ⊆ items := by
  intro a ha
  cases t with
  | none => cases ha
  | some m =>
    obtain rfl := List.mem_singleton.mp ha
    exact h m rfl

private theorem geometryItems_subset {g : NodeGeometry} (h : items.HasGeometry g) :
    g.items ⊆ items := by
  intro a ha
  cases g with
  | path p => exact List.mem_singleton.mp ha ▸ h
  | poly g => exact List.mem_singleton.mp ha ▸ h
  | rect g => cases ha
  | ellipse g => cases ha

mutual
/-- What holds the parts of its nodes holds all that they are made of. -/
theorem items_subset (h : ∀ n, .node n ∈ items → items.HasParts n) (n : Node)
    (hn : .node n ∈ items) : n.items ⊆ items := by
  have hparts := h n hn
  cases n with
  | group inst transform alpha exportId children =>
    rw [Node.items]
    exact List.cons_subset.mpr ⟨hn, List.append_subset.mpr
      ⟨transformItems_subset hparts.1, itemsAll_subset h children hparts.2⟩⟩
  | clip inst path rule transform =>
    rw [Node.items]
    exact List.cons_subset.mpr ⟨hn, List.cons_subset.mpr
      ⟨hparts.1, transformItems_subset hparts.2⟩⟩
  | masked inst mask content =>
    rw [Node.items]
    exact List.cons_subset.mpr ⟨hn, List.append_subset.mpr
      ⟨itemsAll_subset h mask hparts.1, itemsAll_subset h content hparts.2⟩⟩
  | shape inst geometry paint transform =>
    rw [Node.items]
    exact List.cons_subset.mpr ⟨hn, List.cons_subset.mpr ⟨hparts.2.1, List.append_subset.mpr
      ⟨geometryItems_subset hparts.1, transformItems_subset hparts.2.2⟩⟩⟩
  | image inst leaf =>
    rw [Node.items]
    exact List.cons_subset.mpr ⟨hn, List.nil_subset _⟩
  | text inst leaf =>
    rw [Node.items]
    exact List.cons_subset.mpr ⟨hn, List.nil_subset _⟩
  | use inst targetId target transform =>
    rw [Node.items]
    exact List.cons_subset.mpr ⟨hn, List.append_subset.mpr
      ⟨transformItems_subset hparts.2, items_subset h target hparts.1⟩⟩

theorem itemsAll_subset (h : ∀ n, .node n ∈ items → items.HasParts n) (nodes : List Node)
    (hnodes : items.HasNodes nodes) : Node.itemsAll nodes ⊆ items := by
  cases nodes with
  | nil =>
    rw [Node.itemsAll]
    exact List.nil_subset _
  | cons n rest =>
    rw [Node.itemsAll]
    exact List.append_subset.mpr ⟨items_subset h n (hnodes n List.mem_cons_self),
      itemsAll_subset h rest fun m hm => hnodes m (List.mem_cons_of_mem n hm)⟩
end

end Inventory

/-! Values of caches that agree are one value if they are equal but for their instances. -/

section Agreement

variable {c d : NodeCache}

theorem shared_eq {α : Type} [Keyed α] {t u : CanonicalTable (Shared α)} (h : t.Agrees u)
    {v w : Shared α} (hv : v ∈ t.entries) (hw : w ∈ u.entries) (hplain : v.plain = w.plain) :
    v = w := by
  have hvalue : v.value = w.value := (Shared.mk.inj hplain).2
  exact h v hv w hw (congrArg (Keyed.key (α := α)) hvalue)

private theorem transform_eq (h : c.Agrees d) {t u : Option (Shared Affine)}
    (ht : ∀ a ∈ transformItems t, c.Has a) (hu : ∀ a ∈ transformItems u, d.Has a)
    (hplain : t.map Shared.plain = u.map Shared.plain) : t = u := by
  cases t with
  | none =>
    cases u with
    | none => rfl
    | some w => cases hplain
  | some v =>
    cases u with
    | none => cases hplain
    | some w =>
      exact congrArg some (shared_eq h.transforms (ht _ List.mem_cons_self)
        (hu _ List.mem_cons_self) (Option.some.inj hplain))

private theorem geometry_eq (h : c.Agrees d) {g k : NodeGeometry} (hg : ∀ a ∈ g.items, c.Has a)
    (hk : ∀ a ∈ k.items, d.Has a) (hplain : g.plain = k.plain) : g = k := by
  cases g with
  | path p =>
    cases k with
    | path q =>
      exact congrArg _ (shared_eq h.paths (hg _ List.mem_cons_self) (hk _ List.mem_cons_self)
        (NodeGeometry.path.inj hplain))
    | _ => cases hplain
  | poly p =>
    cases k with
    | poly q =>
      exact congrArg _ (shared_eq h.polys (hg _ List.mem_cons_self) (hk _ List.mem_cons_self)
        (NodeGeometry.poly.inj hplain))
    | _ => cases hplain
  | rect r =>
    cases k with
    | rect q => exact hplain
    | _ => cases hplain
  | ellipse r =>
    cases k with
    | ellipse q => exact hplain
    | _ => cases hplain

mutual
/-- Nodes of which all is in caches that agree: the parts are one value each, so the keys, which
name the parts by their instances, are the same. -/
theorem Node.eq_of_plain (h : c.Agrees d) (m n : Node) (hm : ∀ a ∈ m.items, c.Has a)
    (hn : ∀ a ∈ n.items, d.Has a) (hplain : m.plain = n.plain) : m = n := by
  have hself := h.nodes m (hm _ m.self_mem_items) n (hn _ n.self_mem_items)
  cases m with
  | group inst transform alpha exportId children =>
    cases n with
    | group inst' transform' alpha' exportId' children' =>
      rw [Node.plain, Node.plain] at hplain
      rw [Node.items, List.forall_mem_cons, List.forall_mem_append] at hm hn
      obtain ⟨-, htransform, rfl, rfl, hchildren⟩ := Node.group.inj hplain
      obtain rfl := transform_eq h hm.2.1 hn.2.1 htransform
      obtain rfl := Node.eq_of_plainAll h children children' hm.2.2 hn.2.2 hchildren
      exact hself rfl
    | _ =>
      rw [Node.plain, Node.plain] at hplain
      cases hplain
  | clip inst path rule transform =>
    cases n with
    | clip inst' path' rule' transform' =>
      rw [Node.plain, Node.plain] at hplain
      rw [Node.items, List.forall_mem_cons, List.forall_mem_cons] at hm hn
      obtain ⟨-, hpath, rfl, htransform⟩ := Node.clip.inj hplain
      obtain rfl := shared_eq h.paths hm.2.1 hn.2.1 hpath
      obtain rfl := transform_eq h hm.2.2 hn.2.2 htransform
      exact hself rfl
    | _ =>
      rw [Node.plain, Node.plain] at hplain
      cases hplain
  | masked inst mask content =>
    cases n with
    | masked inst' mask' content' =>
      rw [Node.plain, Node.plain] at hplain
      rw [Node.items, List.forall_mem_cons, List.forall_mem_append] at hm hn
      obtain ⟨-, hmask, hcontent⟩ := Node.masked.inj hplain
      obtain rfl := Node.eq_of_plainAll h mask mask' hm.2.1 hn.2.1 hmask
      obtain rfl := Node.eq_of_plainAll h content content' hm.2.2 hn.2.2 hcontent
      exact hself rfl
    | _ =>
      rw [Node.plain, Node.plain] at hplain
      cases hplain
  | shape inst geometry paint transform =>
    cases n with
    | shape inst' geometry' paint' transform' =>
      rw [Node.plain, Node.plain] at hplain
      rw [Node.items, List.forall_mem_cons, List.forall_mem_cons, List.forall_mem_append] at hm hn
      obtain ⟨-, hgeometry, hpaint, htransform⟩ := Node.shape.inj hplain
      obtain rfl := geometry_eq h hm.2.2.1 hn.2.2.1 hgeometry
      obtain rfl := shared_eq h.paints hm.2.1 hn.2.1 hpaint
      obtain rfl := transform_eq h hm.2.2.2 hn.2.2.2 htransform
      exact hself rfl
    | _ =>
      rw [Node.plain, Node.plain] at hplain
      cases hplain
  | image inst leaf =>
    cases n with
    | image inst' leaf' =>
      rw [Node.plain, Node.plain] at hplain
      obtain ⟨-, rfl⟩ := Node.image.inj hplain
      exact hself rfl
    | _ =>
      rw [Node.plain, Node.plain] at hplain
      cases hplain
  | text inst leaf =>
    cases n with
    | text inst' leaf' =>
      rw [Node.plain, Node.plain] at hplain
      obtain ⟨-, rfl⟩ := Node.text.inj hplain
      exact hself rfl
    | _ =>
      rw [Node.plain, Node.plain] at hplain
      cases hplain
  | use inst targetId target transform =>
    cases n with
    | use inst' targetId' target' transform' =>
      rw [Node.plain, Node.plain] at hplain
      rw [Node.items, List.forall_mem_cons, List.forall_mem_append] at hm hn
      obtain ⟨-, rfl, htarget, htransform⟩ := Node.use.inj hplain
      obtain rfl := transform_eq h hm.2.1 hn.2.1 htransform
      obtain rfl := Node.eq_of_plain h target target' hm.2.2 hn.2.2 htarget
      exact hself rfl
    | _ =>
      rw [Node.plain, Node.plain] at hplain
      cases hplain

theorem Node.eq_of_plainAll (h : c.Agrees d) (ms ns : List Node)
    (hm : ∀ a ∈ Node.itemsAll ms, c.Has a) (hn : ∀ a ∈ Node.itemsAll ns, d.Has a)
    (hplain : Node.plainAll ms = Node.plainAll ns) : ms = ns := by
  cases ms with
  | nil =>
    cases ns with
    | nil => rfl
    | cons n ns => cases hplain
  | cons m ms =>
    cases ns with
    | nil => cases hplain
    | cons n ns =>
      rw [Node.plainAll, Node.plainAll] at hplain
      rw [Node.itemsAll, List.forall_mem_append] at hm hn
      obtain ⟨hfirst, hrest⟩ := List.cons.inj hplain
      rw [Node.eq_of_plain h m n hm.1 hn.1 hfirst, Node.eq_of_plainAll h ms ns hm.2 hn.2 hrest]
end

/-- One value, if caches that agree cover it in either place and it is not a node that only one of
them shares. -/
theorem NodeCache.Covers.eq_of_plain {shareNodes shareNodes' : Bool} {items items' : Inventory}
    (hc : c.Covers shareNodes items) (hd : d.Covers shareNodes' items') (h : c.Agrees d) {a b : Item}
    (ha : a ∈ items) (hb : b ∈ items')
    (hshared : a.isNode = true → shareNodes = true ∧ shareNodes' = true)
    (hplain : a.plain = b.plain) : a = b := by
  have hsame : b.isNode = a.isNode := by
    rw [← b.isNode_plain, ← hplain, a.isNode_plain]
  have hca := hc.has a ha fun hnode => (hshared hnode).1
  have hdb := hd.has b hb fun hnode => (hshared (hsame ▸ hnode)).2
  cases a with
  | transform t =>
    cases b with
    | transform u => exact congrArg _ (shared_eq h.transforms hca hdb (Item.transform.inj hplain))
    | _ => cases hplain
  | path p =>
    cases b with
    | path q => exact congrArg _ (shared_eq h.paths hca hdb (Item.path.inj hplain))
    | _ => cases hplain
  | poly g =>
    cases b with
    | poly k => exact congrArg _ (shared_eq h.polys hca hdb (Item.poly.inj hplain))
    | _ => cases hplain
  | paint p =>
    cases b with
    | paint q => exact congrArg _ (shared_eq h.paints hca hdb (Item.paint.inj hplain))
    | _ => cases hplain
  | node m =>
    cases b with
    | node n =>
      obtain ⟨hyes, hyes'⟩ := hshared rfl
      have hall : ∀ e ∈ m.items, c.Has e := fun e he =>
        hc.has e (Inventory.items_subset hc.closed m ha he) fun _ => hyes
      have hall' : ∀ e ∈ n.items, d.Has e := fun e he =>
        hd.has e (Inventory.items_subset hd.closed n hb he) fun _ => hyes'
      exact congrArg _ (Node.eq_of_plain h m n hall hall' (Item.node.inj hplain))
    | _ => cases hplain

end Agreement

/-! Builds, one from what the other has left. -/

/-- What a build may rest on: an inventory of all runs that have led to a cache, in which a key has
one value. -/
structure NodeCache.Settled (stamps : List Nat) (known : Inventory) (c : NodeCache) : Prop where
  founded : c.Founded stamps known
  exact : ∀ stamp, (Sharing.start stamp c).Exact

theorem Sharing.Settled.left {stamps : List Nat} {shareNodes : Bool} {seed : NodeCache}
    {known items : Inventory} {s : Sharing} (h : s.Settled stamps shareNodes seed known items) :
    ∃ all, known ⊆ all ∧ items ⊆ all ∧ s.met.Settled stamps all := by
  obtain ⟨all, hknown, hitems, hcoherent⟩ := h.coherent
  exact ⟨all, hknown, hitems, hcoherent.founded, h.exact.start⟩

namespace GraphBuilder

variable {stamps : List Nat} {seed : NodeCache} {known : Inventory} {stamp : Nat}

theorem settled_start (hseed : seed.Settled stamps known) (hstamp : stamp ∉ stamps)
    (shareNodes : Bool) :
    (start stamp shareNodes seed).Holds (Sharing.Settled (stamp :: stamps) shareNodes seed known) [] :=
  holds_start ⟨⟨known, fun _ ha => ha, List.nil_subset _,
    (coherent_start hseed.founded hstamp shareNodes).sharing⟩, rfl, hseed.exact stamp,
    NodeCache.covers_nil _ _⟩

/-- A session of a build keeps it settled, whatever it answers. -/
theorem settled_issueAll (hseed : seed.Settled stamps known) (hstamp : stamp ∉ stamps)
    (shareNodes : Bool) (calls : List Call) :
    ∃ items, (backend.issueAll (.start (.start stamp shareNodes seed)) calls).1.state.Holds
      (Sharing.Settled (stamp :: stamps) shareNodes seed known) items := by
  obtain ⟨items, -, h⟩ := Holds.issueAll (s := .start (.start stamp shareNodes seed))
    (settled_start hseed hstamp shareNodes) (Sharing.settled_law ..) calls
  exact ⟨items, h⟩

end GraphBuilder

theorem NodeCache.Grown.settled {stamps : List Nat} {c : NodeCache} (h : c.Grown stamps) :
    ∃ known, c.Settled stamps known := by
  induction h with
  | empty =>
    obtain ⟨items, hfounded⟩ := NodeCache.Grown.empty.founded
    have hagrees {α : Type} [Keyed α] :
        CanonicalTable.Continues (.empty : CanonicalTable α) .empty :=
      .start CanonicalTable.built_empty (CanonicalTable.agrees_empty _)
    exact ⟨items, hfounded, fun _ => ⟨hagrees, hagrees, hagrees, hagrees, hagrees⟩⟩
  | build hseed hstamp shareNodes calls ih =>
    obtain ⟨known, hsettled⟩ := ih
    obtain ⟨items, h⟩ := GraphBuilder.settled_issueAll hsettled hstamp shareNodes calls
    obtain ⟨all, -, -, hleft⟩ := h.sharing.left
    exact ⟨all, hleft⟩

namespace GraphImage

/-- All shared values and nodes of an image, its root apart. -/
def items (g : GraphImage) : List Item := Node.itemsAll g.root.children

variable {s : Session GraphBuilder} {g : GraphImage}

theorem parts_of_finish (h : GraphBuilder.backend.finish s = .ok g) :
    g.root.children = s.state.root.toList ∧ g.cache = s.state.sharing.met := by
  obtain ⟨_, -, hcomplete⟩ := bind_eq_ok.mp h
  obtain ⟨-, rfl⟩ := GraphBuilder.complete_eq_ok.mp hcomplete
  exact ⟨rfl, rfl⟩

/-- An image is made of what its build holds. -/
theorem items_of_finish (h : GraphBuilder.backend.finish s = .ok g)
    {P : Inventory → Sharing → Prop} {items : Inventory} (hholds : s.state.Holds P items)
    (hclosed : ∀ n, .node n ∈ items → items.HasParts n) : g.items ⊆ items := by
  rw [GraphImage.items, (parts_of_finish h).1]
  exact Inventory.itemsAll_subset hclosed _ hholds.root

/-- It leaves what its build has met. -/
theorem cache_of_finish (h : GraphBuilder.backend.finish s = .ok g) :
    g.cache = s.state.sharing.met :=
  (parts_of_finish h).2

end GraphImage

/-- What a build may start from: nothing, or what a build that finished an image has left. The runs
that led to it, whether it shared nodes, and all that its image is made of. -/
inductive NodeCache.Left : List Nat → Bool → NodeCache → List Item → Prop
  | nothing (shareNodes : Bool) : Left [] shareNodes .empty []
  | image {stamps : List Nat} {seed : NodeCache} (hseed : seed.Grown stamps) {stamp : Nat}
      (hstamp : stamp ∉ stamps) {shareNodes : Bool} {calls : List Call} {g : GraphImage}
      (h : GraphBuilder.backend.finish (GraphBuilder.backend.issueAll
        (.start (.start stamp shareNodes seed)) calls).1 = .ok g) :
    Left (stamp :: stamps) shareNodes g.cache g.items

theorem NodeCache.Left.grown {stamps : List Nat} {shareNodes : Bool} {c : NodeCache}
    {earlier : List Item} (h : c.Left stamps shareNodes earlier) : c.Grown stamps := by
  cases h with
  | nothing => exact .empty
  | image hseed hstamp h =>
    rw [GraphImage.cache_of_finish h]
    exact .build hseed hstamp shareNodes _

/-- It is settled and covers the image it was left with. -/
theorem NodeCache.Left.settled {stamps : List Nat} {shareNodes : Bool} {c : NodeCache}
    {earlier : List Item} (h : c.Left stamps shareNodes earlier) :
    ∃ known items, c.Settled stamps known ∧ items ⊆ known ∧ earlier ⊆ items ∧
      c.Covers shareNodes items := by
  cases h with
  | nothing =>
    obtain ⟨known, hsettled⟩ := NodeCache.Grown.empty.settled
    exact ⟨known, [], hsettled, List.nil_subset _, List.nil_subset _, NodeCache.covers_nil _ _⟩
  | image hseed hstamp h =>
    obtain ⟨known, hsettled⟩ := hseed.settled
    obtain ⟨items, hholds⟩ := GraphBuilder.settled_issueAll hsettled hstamp shareNodes _
    have hitems := GraphImage.items_of_finish h hholds hholds.sharing.covers.closed
    have hcache := GraphImage.cache_of_finish h
    obtain ⟨all, -, hall, hleft⟩ := hholds.sharing.left
    exact ⟨all, items, hcache ▸ hleft, hall, hitems, hcache ▸ hholds.sharing.covers⟩

namespace GraphImage

/-- Of the transforms, paths, point lists and paints that an image is made of, and of those of the
image that its build started from, two are one instance if and only if they are equal. So are two
nodes, if nodes are shared where they come from. -/
theorem same_instance_iff {stamps : List Nat} {shared : Bool} {seed : NodeCache}
    {earlier : List Item} (hseed : seed.Left stamps shared earlier) {stamp : Nat}
    (hstamp : stamp ∉ stamps) {shareNodes : Bool} {calls : List Call} {g : GraphImage}
    (h : ofCalls stamp shareNodes seed calls = .ok g) :
    (∀ a ∈ g.items, ∀ b, b ∈ g.items ∨ b ∈ earlier → a.isNode = false →
      (a.inst = b.inst ↔ a.plain = b.plain)) ∧
    (shareNodes = true → ∀ m n, .node m ∈ g.items →
      .node n ∈ g.items ∨ shared = true ∧ .node n ∈ earlier →
      (m.inst = n.inst ↔ m.plain = n.plain)) := by
  obtain ⟨known, first, hsettled, hfirst, hearlier, hcovers⟩ := hseed.settled
  obtain ⟨renamed, hfinish⟩ := Backend.session_of_replay h
  obtain ⟨items, hholds⟩ := GraphBuilder.settled_issueAll hsettled hstamp shareNodes renamed
  have hitems := items_of_finish hfinish hholds hholds.sharing.covers.closed
  have hs := hholds.sharing
  have hagrees := hs.exact.agrees_seed
  rw [hs.seed] at hagrees
  obtain ⟨all, hknown, hall, hcoherent⟩ := hs.coherent
  -- Values of both images have their places in the inventory that the build ends with.
  have hwithin (a : Item) (ha : a ∈ g.items) (b : Item) (hb : b ∈ g.items)
      (hnode : a.isNode = true → shareNodes = true) : a.inst = b.inst ↔ a.plain = b.plain := by
    refine ⟨fun hinst => ?_, fun hplain => ?_⟩
    · rw [hcoherent.unambiguous a (hall (hitems ha)) b (hall (hitems hb)) hinst]
    · rw [hs.covers.eq_of_plain hs.covers hs.exact.agrees_met (hitems ha) (hitems hb)
        (fun hyes => ⟨hnode hyes, hnode hyes⟩) hplain]
  have hacross (a : Item) (ha : a ∈ g.items) (b : Item) (hb : b ∈ earlier)
      (hnode : a.isNode = true → shareNodes = true ∧ shared = true) :
      a.inst = b.inst ↔ a.plain = b.plain := by
    refine ⟨fun hinst => ?_, fun hplain => ?_⟩
    · rw [hcoherent.unambiguous a (hall (hitems ha)) b (hknown (hfirst (hearlier hb))) hinst]
    · rw [hs.covers.eq_of_plain hcovers hagrees (hitems ha) (hearlier hb) hnode hplain]
  refine ⟨fun a ha b hb hvalue => ?_, fun hyes m n hm hn => ?_⟩
  · rcases hb with hb | hb
    · exact hwithin a ha b hb fun hnode => absurd (hvalue.symm.trans hnode) Bool.noConfusion
    · exact hacross a ha b hb fun hnode => absurd (hvalue.symm.trans hnode) Bool.noConfusion
  · have hnodes : (Item.node m).plain = (Item.node n).plain ↔ m.plain = n.plain :=
      Eq.to_iff (Item.node.injEq _ _)
    refine Iff.trans ?_ hnodes
    rcases hn with hn | ⟨hyes', hn⟩
    · exact hwithin (.node m) hm (.node n) hn fun _ => hyes
    · exact hacross (.node m) hm (.node n) hn fun _ => ⟨hyes, hyes'⟩

end GraphImage

namespace Frame

private def picture : ImageLeaf := ⟨0, ⟨.zero, .zero, .one, .one⟩, none⟩

/-- A picture in a frame. -/
private def framed : List Call :=
  [.init ⟨[⟨1, 1, [0, 0, 0, 255]⟩], [], []⟩, .beginGroup ⟨none, 255, none⟩, .image picture,
    .endGroup]

/-- The framed picture, and next to it the bare one twice. -/
private def hung : List Call := framed ++ [.image picture, .image picture]

private def frame : Node := .group default none 255 none [.image default picture]

private theorem plain_framed : ∃ g, GraphImage.ofCalls 0 false .empty framed = .ok g ∧
    Node.plainAll g.root.children = [frame] :=
  ⟨_, rfl, rfl⟩

private theorem plain_hung : ∃ g, GraphImage.ofCalls 0 false .empty hung = .ok g ∧
    Node.plainAll g.root.children = [frame, .image default picture, .image default picture] :=
  ⟨_, rfl, rfl⟩

end Frame

namespace GraphImage

private theorem mem_items {g : GraphImage} {n : Node} (hn : n ∈ g.root.children) :
    .node n ∈ g.items :=
  Node.items_subset_itemsAll hn n.self_mem_items

/-- A picture is one instance where it hangs twice; its frame is another, the one of the build
before. -/
theorem same_instance_iff_hung : ∃ (g₀ g : GraphImage) (frame₀ frame first second : Node),
    ofCalls 0 true .empty Frame.framed = .ok g₀ ∧ ofCalls 1 true g₀.cache Frame.hung = .ok g ∧
      g₀.root.children = [frame₀] ∧ g.root.children = [frame, first, second] ∧
      frame.inst = frame₀.inst ∧ first.inst = second.inst ∧ frame.inst ≠ first.inst := by
  have hnew (stamp : Nat) : stamp ∉ ([] : List Nat) := List.not_mem_nil
  have hstamp : 1 ∉ [0] := by decide
  -- Builds that share nothing compute; the others are made of the same.
  obtain ⟨u₀, hu₀, hplain₀⟩ := Frame.plain_framed
  obtain ⟨g₀, h₀, halike₀⟩ := alike_of_ofCalls .empty .empty (hnew _) (hnew 0) hu₀ true
  obtain ⟨renamed, hfinish⟩ := Backend.session_of_replay h₀
  have hleft := NodeCache.Left.image .empty (hnew 0) hfinish
  obtain ⟨u, hu, hplain⟩ := Frame.plain_hung
  obtain ⟨g, h, halike⟩ := alike_of_ofCalls .empty hleft.grown (hnew _) hstamp hu true
  rw [halike₀.children, Node.plainAll_eq_map] at hplain₀
  rw [halike.children, Node.plainAll_eq_map] at hplain
  obtain ⟨frame₀, rest₀, hframe₀, hplain₀, hrest₀⟩ := List.map_eq_cons_iff.mp hplain₀
  obtain rfl := List.map_eq_nil_iff.mp hrest₀
  obtain ⟨frame, rest, hframe, hplain, hrest⟩ := List.map_eq_cons_iff.mp hplain
  obtain ⟨first, rest, rfl, hfirst, hrest⟩ := List.map_eq_cons_iff.mp hrest
  obtain ⟨second, rest, rfl, hsecond, hrest⟩ := List.map_eq_cons_iff.mp hrest
  obtain rfl := List.map_eq_nil_iff.mp hrest
  obtain ⟨-, hnodes⟩ := same_instance_iff hleft hstamp h
  have hm (n : Node) (hn : n ∈ [frame, first, second]) : .node n ∈ g.items :=
    mem_items (hframe ▸ hn)
  have hm₀ : .node frame₀ ∈ g₀.items := mem_items (hframe₀ ▸ List.mem_cons_self)
  refine ⟨g₀, g, frame₀, frame, first, second, h₀, h, hframe₀, hframe, ?_, ?_, fun hinst => ?_⟩
  · exact (hnodes rfl frame frame₀ (hm frame (by simp)) (.inr ⟨rfl, hm₀⟩)).mpr
      (hplain.trans hplain₀.symm)
  · exact (hnodes rfl first second (hm first (by simp)) (.inl (hm second (by simp)))).mpr
      (hfirst.trans hsecond.symm)
  · have hsame := (hnodes rfl frame first (hm frame (by simp)) (.inl (hm first (by simp)))).mp hinst
    cases hplain.symm.trans (hsame.trans hfirst)

end GraphImage

end VectorImage
