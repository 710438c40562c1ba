import VectorImage.Proofs.View.Origin

/-!
Which nodes survive pruning. Outside the masks, the leaves and uses that are left are exactly
those whose extent meets the area, under the transform of everything around them, and those in an
exported group that a use left in the tree refers to. They stand in the order they had, under the
same enclosures or copies of them; and nothing else is left that encloses nothing that draws.
-/

set_option autoImplicit false
set_option relaxedAutoImplicit false

namespace VectorImage

/-- The enclosure is an exported group of one of these names. -/
def Enclosure.isNamed (ids : List StringId) (e : Enclosure) : Bool :=
  e.exportId?.any fun id => ids.contains id

/-- A node outside all mask halves, with what encloses it, innermost first. -/
structure Occurrence where
  around : List Enclosure
  node : Node

namespace Occurrence

/-- The transform that the enclosures make up, from the outermost inwards. -/
def transformOf (around : List Enclosure) : Affine :=
  around.foldr (fun e t => e.inside t) .identity

/-- The extent of the node, where it stands, meets the area. -/
def meets (r : Resources) (area : Rect) (o : Occurrence) : Bool :=
  o.node.meets r area (transformOf o.around)

/-- The node stands in an exported group of one of these names. -/
def isWithin (ids : List StringId) (o : Occurrence) : Bool := o.around.any (Enclosure.isNamed ids)

end Occurrence

/-! The nodes outside all mask halves, in paint order; use targets are not entered. -/

mutual
def Node.unmasked (around : List Enclosure) : Node → List Occurrence
  | .group inst transform alpha exportId children =>
    ⟨around, .group inst transform alpha exportId children⟩ ::
      Node.unmaskedAll (.group inst transform alpha exportId :: around) children
  | .masked inst mask content =>
    ⟨around, .masked inst mask content⟩ :: Node.unmaskedAll (.masked inst mask :: around) content
  | .clip inst path rule transform => [⟨around, .clip inst path rule transform⟩]
  | .shape inst geometry paint transform => [⟨around, .shape inst geometry paint transform⟩]
  | .image inst leaf => [⟨around, .image inst leaf⟩]
  | .text inst leaf => [⟨around, .text inst leaf⟩]
  | .use inst targetId target transform => [⟨around, .use inst targetId target transform⟩]

def Node.unmaskedAll (around : List Enclosure) : List Node → List Occurrence
  | [] => []
  | n :: rest => Node.unmasked around n ++ Node.unmaskedAll around rest
end

/-- The nodes of a tree outside all mask halves; the root is not among them. -/
def GraphRoot.unmasked (root : GraphRoot) : List Occurrence := Node.unmaskedAll [] root.children

namespace Node

variable (around : List Enclosure)

@[simp]
theorem unmaskedAll_nil : unmaskedAll around [] = [] := by rw [unmaskedAll]

@[simp]
theorem unmaskedAll_cons (n : Node) (rest : List Node) :
    unmaskedAll around (n :: rest) = unmasked around n ++ unmaskedAll around rest := by
  rw [unmaskedAll]

@[simp]
theorem unmasked_node (e : Enclosure) (nodes : List Node) :
    unmasked around (e.node nodes) =
      ⟨around, e.node nodes⟩ :: unmaskedAll (e :: around) nodes := by
  cases e <;> simp [Enclosure.node, unmasked]

theorem unmasked_leaf {n : Node} (hn : n.isLeaf = true) : unmasked around n = [⟨around, n⟩] := by
  cases n with
  | group => cases hn
  | clip => cases hn
  | masked => cases hn
  | shape => rw [unmasked]
  | image => rw [unmasked]
  | text => rw [unmasked]
  | use => rw [unmasked]

theorem unmasked_clip {n : Node} (hn : n.isDrawable = false) :
    unmasked around n = [⟨around, n⟩] := by
  cases n with
  | clip => rw [unmasked]
  | _ => cases hn

theorem isLeaf_of_clip {n : Node} (hn : n.isDrawable = false) : n.isLeaf = false := by
  cases n <;> simp_all [isLeaf, isDrawable]

end Node

/-! Whatever holds of the enclosures around a list holds of those around its nodes. -/

mutual
theorem Node.isWithin_unmasked {ids : List StringId} {around : List Enclosure} {n : Node}
    (h : around.any (Enclosure.isNamed ids) = true) :
    ∀ o ∈ Node.unmasked around n, o.isWithin ids = true := by
  intro o ho
  cases n with
  | group inst transform alpha exportId children =>
    rw [Node.unmasked, List.mem_cons] at ho
    rcases ho with rfl | ho
    · exact h
    · exact Node.isWithin_unmaskedAll (by rw [List.any_cons, h, Bool.or_true]) o ho
  | masked inst mask content =>
    rw [Node.unmasked, List.mem_cons] at ho
    rcases ho with rfl | ho
    · exact h
    · exact Node.isWithin_unmaskedAll (by rw [List.any_cons, h, Bool.or_true]) o ho
  | clip inst path rule transform =>
    rw [Node.unmasked, List.mem_singleton] at ho
    exact ho ▸ h
  | shape inst geometry paint transform =>
    rw [Node.unmasked, List.mem_singleton] at ho
    exact ho ▸ h
  | image inst leaf =>
    rw [Node.unmasked, List.mem_singleton] at ho
    exact ho ▸ h
  | text inst leaf =>
    rw [Node.unmasked, List.mem_singleton] at ho
    exact ho ▸ h
  | use inst targetId target transform =>
    rw [Node.unmasked, List.mem_singleton] at ho
    exact ho ▸ h

theorem Node.isWithin_unmaskedAll {ids : List StringId} {around : List Enclosure}
    {nodes : List Node} (h : around.any (Enclosure.isNamed ids) = true) :
    ∀ o ∈ Node.unmaskedAll around nodes, o.isWithin ids = true := by
  intro o ho
  cases nodes with
  | nil =>
    rw [Node.unmaskedAll] at ho
    cases ho
  | cons n rest =>
    rw [Node.unmaskedAll, List.mem_append] at ho
    rcases ho with ho | ho
    · exact Node.isWithin_unmasked h o ho
    · exact Node.isWithin_unmaskedAll h o ho
end

/-- An enclosure that is left: itself, or its copy as an instance of the run `stamp`. -/
inductive Enclosure.Remains (stamp : Nat) (e : Enclosure) : Enclosure → Prop
  | same : Remains stamp e e
  | copy (place : List Nat) : Remains stamp e (e.withInst ⟨stamp, place⟩)

/-- A node that is left where it was: the same instance, under its enclosures or their copies. -/
structure Occurrence.Remains (stamp : Nat) (o left : Occurrence) : Prop where
  node : left.node = o.node
  around : List.Forall₂ (Enclosure.Remains stamp) o.around left.around

section Remains

variable {stamp : Nat} {e e' : Enclosure} {around around' : List Enclosure} {o o' : Occurrence}

theorem Enclosure.Remains.withInst (h : e.Remains stamp e') : ∃ inst, e' = e.withInst inst := by
  cases h with
  | same => exact ⟨e.inst, e.withInst_inst.symm⟩
  | copy place => exact ⟨_, rfl⟩

/-- Copies make up the same transform. -/
theorem transformOf_of_remains (h : List.Forall₂ (Enclosure.Remains stamp) around around') :
    Occurrence.transformOf around' = Occurrence.transformOf around := by
  induction h with
  | nil => rfl
  | cons he _ ih =>
    obtain ⟨inst, rfl⟩ := he.withInst
    simp only [Occurrence.transformOf, List.foldr_cons, Enclosure.inside_withInst] at ih ⊢
    rw [ih]

/-- Copies have the same names. -/
theorem any_isNamed_of_remains (ids : List StringId)
    (h : List.Forall₂ (Enclosure.Remains stamp) around around') :
    around'.any (Enclosure.isNamed ids) = around.any (Enclosure.isNamed ids) := by
  induction h with
  | nil => rfl
  | cons he _ ih =>
    obtain ⟨inst, rfl⟩ := he.withInst
    simp [Enclosure.isNamed, ih]

theorem Occurrence.Remains.meets (h : o.Remains stamp o') (r : Resources) (area : Rect) :
    o'.meets r area = o.meets r area := by
  rw [Occurrence.meets, h.node, transformOf_of_remains h.around, Occurrence.meets]

theorem Occurrence.Remains.isWithin (h : o.Remains stamp o') (ids : List StringId) :
    o'.isWithin ids = o.isWithin ids := any_isNamed_of_remains ids h.around

end Remains

/-! Nodes that are left as they are remain, whatever becomes of the enclosures around them. -/

mutual
theorem Node.remains_unmasked {stamp : Nat} {around around' : List Enclosure} (n : Node)
    (h : List.Forall₂ (Enclosure.Remains stamp) around around') :
    List.Forall₂ (Occurrence.Remains stamp) (Node.unmasked around n)
      (Node.unmasked around' n) := by
  cases n with
  | group inst transform alpha exportId children =>
    rw [Node.unmasked, Node.unmasked]
    exact .cons ⟨rfl, h⟩ (Node.remains_unmaskedAll children (.cons .same h))
  | masked inst mask content =>
    rw [Node.unmasked, Node.unmasked]
    exact .cons ⟨rfl, h⟩ (Node.remains_unmaskedAll content (.cons .same h))
  | clip inst path rule transform =>
    rw [Node.unmasked, Node.unmasked]
    exact .cons ⟨rfl, h⟩ .nil
  | shape inst geometry paint transform =>
    rw [Node.unmasked, Node.unmasked]
    exact .cons ⟨rfl, h⟩ .nil
  | image inst leaf =>
    rw [Node.unmasked, Node.unmasked]
    exact .cons ⟨rfl, h⟩ .nil
  | text inst leaf =>
    rw [Node.unmasked, Node.unmasked]
    exact .cons ⟨rfl, h⟩ .nil
  | use inst targetId target transform =>
    rw [Node.unmasked, Node.unmasked]
    exact .cons ⟨rfl, h⟩ .nil

theorem Node.remains_unmaskedAll {stamp : Nat} {around around' : List Enclosure}
    (nodes : List Node) (h : List.Forall₂ (Enclosure.Remains stamp) around around') :
    List.Forall₂ (Occurrence.Remains stamp) (Node.unmaskedAll around nodes)
      (Node.unmaskedAll around' nodes) := by
  cases nodes with
  | nil =>
    rw [Node.unmaskedAll, Node.unmaskedAll]
    exact .nil
  | cons n rest =>
    rw [Node.unmaskedAll, Node.unmaskedAll]
    exact List.rel_append (Node.remains_unmasked n h) (Node.remains_unmaskedAll rest h)
end

namespace Pruning

variable {c : Pruning} {t : Affine} {nodes kept : List Node} {around around' : List Enclosure}

/-- The leaves and uses that a pass leaves outside the masks. -/
def retains (c : Pruning) (o : Occurrence) : Bool :=
  o.node.isLeaf && (o.meets c.resources c.area || o.isWithin c.pinned)

private theorem isPinned_eq (e : Enclosure) : c.isPinned e.exportId? = e.isNamed c.pinned := by
  unfold isPinned Enclosure.isNamed
  cases e.exportId? <;> rfl

/-- Clips alone hold no leaf. -/
private theorem filter_isLeaf_of_clips (h : nodes.any Node.isDrawable = false) :
    ((Node.unmaskedAll around nodes).filter fun o => o.node.isLeaf) = [] := by
  induction nodes with
  | nil => simp
  | cons n rest ih =>
    rw [List.any_cons, Bool.or_eq_false_iff] at h
    rw [Node.unmaskedAll_cons, Node.unmasked_clip around h.1, List.filter_append, ih h.2]
    simp [Node.isLeaf_of_clip h.1]

/-- In a group that is kept whole all leaves and uses are retained. -/
private theorem filter_retains_of_pinned (h : around.any (Enclosure.isNamed c.pinned) = true) :
    (Node.unmaskedAll around nodes).filter c.retains =
      (Node.unmaskedAll around nodes).filter fun o => o.node.isLeaf := by
  refine List.filter_congr fun o ho => ?_
  rw [retains, Node.isWithin_unmaskedAll h o ho, Bool.or_true, Bool.and_true]

/-- Outside the groups that are kept whole a pass leaves the leaves and uses that it retains, as
they are and where they are. -/
theorem Sifts.survivors (h : c.Sifts t nodes kept) (ht : t = Occurrence.transformOf around)
    (hfree : around.any (Enclosure.isNamed c.pinned) = false)
    (hremains : List.Forall₂ (Enclosure.Remains c.stamp) around around') :
    List.Forall₂ (Occurrence.Remains c.stamp) ((Node.unmaskedAll around nodes).filter c.retains)
      ((Node.unmaskedAll around' kept).filter fun o => o.node.isLeaf) := by
  induction h generalizing around around' with
  | nil t => simp
  | clip hclip _ ih =>
    rw [Node.unmaskedAll_cons, Node.unmaskedAll_cons, Node.unmasked_clip _ hclip,
      Node.unmasked_clip _ hclip, List.filter_append, List.filter_append]
    simpa [retains, Node.isLeaf_of_clip hclip] using ih ht hfree hremains
  | @seen t n rest kept hleaf hmeets _ ih =>
    have hretains : c.retains ⟨around, n⟩ = true := by
      simp [retains, hleaf, Occurrence.meets, ← ht, hmeets]
    rw [Node.unmaskedAll_cons, Node.unmaskedAll_cons, Node.unmasked_leaf _ hleaf,
      Node.unmasked_leaf _ hleaf]
    simp only [List.cons_append, List.nil_append, List.filter_cons, hretains, hleaf, if_true]
    exact .cons ⟨rfl, hremains⟩ (ih ht hfree hremains)
  | @unseen t n rest kept hleaf hmeets _ ih =>
    have hretains : c.retains ⟨around, n⟩ = false := by
      simp [retains, Occurrence.meets, Occurrence.isWithin, ← ht, hmeets, hfree]
    rw [Node.unmaskedAll_cons, Node.unmasked_leaf _ hleaf]
    simp only [List.cons_append, List.nil_append, List.filter_cons, hretains]
    exact ih ht hfree hremains
  | @whole t e nodes rest kept hpinned _ ih =>
    have hwhole : (e :: around).any (Enclosure.isNamed c.pinned) = true := by
      rw [List.any_cons, ← isPinned_eq, hpinned, Bool.true_or]
    have hinner := Node.remains_unmaskedAll nodes (.cons (.same (e := e)) hremains)
    have hretains : c.retains ⟨around, e.node nodes⟩ = false := by simp [retains]
    simp only [Node.unmaskedAll_cons, Node.unmasked_node, List.cons_append, List.filter_cons,
      List.filter_append, Enclosure.isLeaf_node, hretains, Bool.false_eq_true, if_false,
      filter_retains_of_pinned hwhole]
    refine List.rel_append (List.rel_filter ?_ hinner) (ih ht hfree hremains)
    intro o o' ho
    show o.node.isLeaf = true ↔ o'.node.isLeaf = true
    rw [ho.node]
  | @remade t e e' nodes inner rest kept hopen hinner hdraws hremade _ ihInner ih =>
    have he : e.Remains c.stamp e' := by
      cases hremade with
      | same => exact .same
      | copy place => exact .copy place
    have hretains : c.retains ⟨around, e.node nodes⟩ = false := by simp [retains]
    simp only [Node.unmaskedAll_cons, Node.unmasked_node, List.cons_append, List.filter_cons,
      List.filter_append, Enclosure.isLeaf_node, hretains, Bool.false_eq_true, if_false]
    refine List.rel_append (ihInner ?_ ?_ (.cons he hremains)) (ih ht hfree hremains)
    · rw [ht]
      rfl
    · rw [List.any_cons, ← isPinned_eq, hopen, Bool.false_or, hfree]
  | @barren t e nodes inner rest kept hopen hinner hdraws _ ihInner ih =>
    have hcopies : List.Forall₂ (Enclosure.Remains c.stamp) (e :: around) (e :: around') :=
      .cons .same hremains
    have hnone := ihInner (by rw [ht]; rfl)
      (by rw [List.any_cons, ← isPinned_eq, hopen, Bool.false_or, hfree]) hcopies
    rw [filter_isLeaf_of_clips hdraws, List.forall₂_nil_right_iff] at hnone
    have hretains : c.retains ⟨around, e.node nodes⟩ = false := by simp [retains]
    simp only [Node.unmaskedAll_cons, Node.unmasked_node, List.cons_append, List.filter_cons,
      List.filter_append, hretains, Bool.false_eq_true, if_false, hnone, List.nil_append]
    exact ih ht hfree hremains

/-- Whatever encloses nothing that draws is kept whole, or in a group that is. -/
theorem Sifts.fruitful (h : c.Sifts t nodes kept) {o : Occurrence}
    (ho : o ∈ Node.unmaskedAll around kept) {e : Enclosure} {inner : List Node}
    (hnode : o.node = e.node inner) :
    e.isNamed c.pinned = true ∨ o.isWithin c.pinned = true ∨
      inner.any Node.isDrawable = true := by
  induction h generalizing around with
  | nil t => simp at ho
  | @clip t n rest kept hclip _ ih =>
    rw [Node.unmaskedAll_cons, Node.unmasked_clip _ hclip, List.singleton_append,
      List.mem_cons] at ho
    rcases ho with rfl | ho
    · obtain rfl : n = e.node inner := hnode
      simp at hclip
    · exact ih ho
  | @seen t n rest kept hleaf _ _ ih =>
    rw [Node.unmaskedAll_cons, Node.unmasked_leaf _ hleaf, List.singleton_append,
      List.mem_cons] at ho
    rcases ho with rfl | ho
    · obtain rfl : n = e.node inner := hnode
      simp at hleaf
    · exact ih ho
  | unseen _ _ _ ih => exact ih ho
  | @whole t e' nodes rest kept hpinned _ ih =>
    rw [Node.unmaskedAll_cons, Node.unmasked_node, List.cons_append, List.mem_cons,
      List.mem_append] at ho
    rcases ho with rfl | ho | ho
    · obtain ⟨rfl, rfl⟩ := Enclosure.node_inj.mp hnode
      exact Or.inl (isPinned_eq _ ▸ hpinned)
    · refine Or.inr (Or.inl (Node.isWithin_unmaskedAll ?_ o ho))
      rw [List.any_cons, ← isPinned_eq, hpinned, Bool.true_or]
    · exact ih ho
  | remade hopen hinner hdraws hremade _ ihInner ih =>
    rw [Node.unmaskedAll_cons, Node.unmasked_node, List.cons_append, List.mem_cons,
      List.mem_append] at ho
    rcases ho with rfl | ho | ho
    · obtain ⟨rfl, rfl⟩ := Enclosure.node_inj.mp hnode
      exact Or.inr (Or.inr hdraws)
    · exact ihInner ho
    · exact ih ho
  | barren _ _ _ _ _ ih => exact ih ho

end Pruning

namespace GraphImage

/-- What pruning an image to an area leaves of it, copies being instances of the run `copies`. -/
structure PrunedTo (g : GraphImage) (area : Rect) (copies : Nat) (root : GraphRoot) : Prop where
  /-- The leaves and uses outside the masks are, one by one and in order, those of the image that
  meet the area or stand in a group that a use left in the tree refers to. -/
  survivors : List.Forall₂ (Occurrence.Remains copies)
    (g.root.unmasked.filter fun o =>
      o.node.isLeaf && (o.meets g.resources area || o.isWithin root.targets))
    (root.unmasked.filter fun o => o.node.isLeaf)
  /-- A leaf or use that meets the area is left. -/
  complete : ∀ o ∈ g.root.unmasked, o.node.isLeaf = true → o.meets g.resources area = true →
    ∃ left ∈ root.unmasked, o.Remains copies left
  /-- A leaf or use that is left meets the area, outside the groups that uses left refer to. -/
  sound : ∀ left ∈ root.unmasked, left.node.isLeaf = true → left.isWithin root.targets = false →
    left.meets g.resources area = true
  /-- Whatever encloses other nodes encloses something that draws, but for those groups and what
  is in them. -/
  fruitful : ∀ left ∈ root.unmasked, ∀ e nodes, left.node = Enclosure.node e nodes →
    e.isNamed root.targets = false → left.isWithin root.targets = false →
      ∃ n ∈ nodes, n.isDrawable = true

variable {g : GraphImage} {area : Rect} {copies : Nat} {root : GraphRoot}

/-- The survivors taken one by one. -/
private theorem prunedTo_of_survivors
    (hsurvivors : List.Forall₂ (Occurrence.Remains copies)
      (g.root.unmasked.filter fun o =>
        o.node.isLeaf && (o.meets g.resources area || o.isWithin root.targets))
      (root.unmasked.filter fun o => o.node.isLeaf))
    (hfruitful : ∀ left ∈ root.unmasked, ∀ e nodes, left.node = Enclosure.node e nodes →
      e.isNamed root.targets = false → left.isWithin root.targets = false →
        ∃ n ∈ nodes, n.isDrawable = true) : g.PrunedTo area copies root := by
  refine ⟨hsurvivors, ?_, ?_, hfruitful⟩
  · intro o ho hleaf hmeets
    have hmem : o ∈ g.root.unmasked.filter fun o =>
        o.node.isLeaf && (o.meets g.resources area || o.isWithin root.targets) := by
      simp [ho, hleaf, hmeets]
    obtain ⟨left, hleft, hremains⟩ := exists_related hsurvivors hmem
    exact ⟨left, List.mem_of_mem_filter hleft, hremains⟩
  · intro left hleft hleaf houtside
    have hmem : left ∈ root.unmasked.filter fun o => o.node.isLeaf := by simp [hleft, hleaf]
    obtain ⟨o, ho, hremains⟩ := exists_related hsurvivors.flip hmem
    obtain ⟨-, hretained⟩ := List.mem_filter.mp ho
    rw [← hremains.meets, ← hremains.isWithin, houtside, Bool.or_false] at hretained
    exact (Bool.and_eq_true_iff.mp hretained).2

/-- Groups of one of these names and of one of those are the same groups. -/
private theorem isNamed_congr {ids ids' : List StringId} (h : ∀ id, id ∈ ids ↔ id ∈ ids') :
    Enclosure.isNamed ids = Enclosure.isNamed ids' := by
  funext e
  unfold Enclosure.isNamed
  cases e.exportId? with
  | none => rfl
  | some id => simp [h id]

/-- Whatever pruning gives is pruned to the area. -/
theorem prunedTo_of_prune {viewport : Rect} {tolerance : Binary64}
    (h : g.prune copies viewport tolerance = .ok root) :
    g.PrunedTo (viewport.abs.inflate tolerance tolerance) copies root := by
  obtain ⟨c, hlast⟩ := Pruning.exists_lastPass h
  obtain ⟨inner, hinner⟩ := Pruning.sifts_pass hlast.pass
  -- the last pass keeps whole exactly what uses left in the tree refer to
  have hnamed : Enclosure.isNamed c.pinned = Enclosure.isNamed root.targets := by
    refine isNamed_congr fun id => ⟨fun hid => ?_, hlast.targets id⟩
    rcases hlast.pinned id hid with hid | hid
    · cases hid
    · exact hid
  have hwithin (o : Occurrence) : o.isWithin c.pinned = o.isWithin root.targets := by
    rw [Occurrence.isWithin, hnamed, Occurrence.isWithin]
  have hretains : c.retains = fun o => o.node.isLeaf &&
      (o.meets g.resources (viewport.abs.inflate tolerance tolerance) ||
        o.isWithin root.targets) := by
    funext o
    rw [Pruning.retains, hwithin, hlast.widens.resources, hlast.widens.area]
    rfl
  have hstamp : c.stamp = copies := hlast.stamp
  have hremains : List.Forall₂ (Enclosure.Remains c.stamp) [] [] := .nil
  have hsurvivors := hinner.sifts.survivors (by rfl) (by rfl) hremains
  rw [hretains, hstamp] at hsurvivors
  have hchildren := hinner.children
  refine prunedTo_of_survivors ?_ ?_
  · cases hdraws : inner.any Node.isDrawable with
    | true =>
      rw [hdraws, if_pos rfl] at hchildren
      rw [GraphRoot.unmasked, GraphRoot.unmasked, hchildren]
      exact hsurvivors
    | false =>
      rw [hdraws, if_neg Bool.false_ne_true] at hchildren
      rw [Pruning.filter_isLeaf_of_clips hdraws] at hsurvivors
      rw [GraphRoot.unmasked, GraphRoot.unmasked, hchildren]
      simpa using hsurvivors
  · intro left hleft e nodes hnode hnotNamed houtside
    have hmem : left ∈ Node.unmaskedAll [] inner := by
      rw [GraphRoot.unmasked, hchildren] at hleft
      split at hleft
      · exact hleft
      · simp at hleft
    rcases hinner.sifts.fruitful hmem hnode with hpinned | hpinned | hdraws
    · rw [hnamed, hnotNamed] at hpinned
      cases hpinned
    · rw [hwithin, houtside] at hpinned
      cases hpinned
    · exact List.any_eq_true.mp hdraws

/-- Every tree that can come about can be pruned to every viewport with every margin around it,
and what is left of it is what meets the area, with what is in the groups that uses refer to. -/
theorem prunes_to_area (hg : g.Reachable) (copies : Nat) (viewport : Rect)
    (tolerance : Binary64) : ∃ root, g.prune copies viewport tolerance = .ok root ∧
      g.PrunedTo (viewport.abs.inflate tolerance tolerance) copies root := by
  obtain ⟨root, hroot⟩ := hg.prune_progress copies viewport tolerance
  exact ⟨root, hroot, prunedTo_of_prune hroot⟩

end GraphImage

/-! A badge far from the window, used near it. -/

namespace FarBadge

private def picture (left right : Binary64) : ImageLeaf :=
  ⟨0, ⟨left, .zero, right, .ofNat 10⟩, none⟩

/-- The badge and one more picture lie outside the window, and the use moves the badge into it. -/
private def calls : List Call :=
  [.init ⟨[⟨1, 1, [0, 0, 0, 255]⟩], ["badge"], []⟩, .beginGroup ⟨none, 255, some 0⟩,
    .image (picture (.ofNat 90) (.ofNat 100)), .endGroup, .image (picture .zero (.ofNat 10)),
    .image (picture (.ofNat 80) (.ofNat 90)),
    .use ⟨0, some (.translate (Binary64.ofNat 90).neg .zero)⟩]

private def window : Rect := ⟨.zero, .zero, .ofNat 20, .ofNat 20⟩

private theorem ofCalls_calls : ∃ g, GraphImage.ofCalls 0 false .empty calls = .ok g := by
  have haccepted : (GraphImage.ofCalls 0 false .empty calls).toBool = true := by decide +kernel
  exact toBool_eq_true.mp haccepted

end FarBadge

namespace GraphImage

theorem prunes_to_area_farBadge : ∃ g root,
    ofCalls 0 false .empty FarBadge.calls = .ok g ∧ g.prune 1 FarBadge.window .zero = .ok root ∧
      g.PrunedTo (FarBadge.window.abs.inflate .zero .zero) 1 root := by
  obtain ⟨g, hg⟩ := FarBadge.ofCalls_calls
  have hreachable : g.Reachable := .replayed .empty (List.not_mem_nil : 0 ∉ []) hg
  obtain ⟨root, hroot, hpruned⟩ := prunes_to_area hreachable 1 FarBadge.window .zero
  exact ⟨g, root, hg, hroot, hpruned⟩

end GraphImage

end VectorImage
