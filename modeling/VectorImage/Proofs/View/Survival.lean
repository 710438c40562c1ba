import Mathlib.Data.List.Forall2
import VectorImage.Proofs.View.Sifting

/-!
What a pass of pruning leaves of a tree, without the area it is pruned to. Nodes are kept, dropped
or made again around what is left in them; a node that is dropped holds no group that is to be
kept whole, unless the group is in a mask. What is left ends in the order it had.
-/

set_option autoImplicit false
set_option relaxedAutoImplicit false

namespace VectorImage

namespace Node

/-- A masked node of the nodes has this mask. -/
def HasMask (nodes mask : List Node) : Prop :=
  ∃ inst content, .masked inst mask content ∈ finishedAll nodes

theorem hasMask_append {first rest mask : List Node} :
    HasMask (first ++ rest) mask ↔ HasMask first mask ∨ HasMask rest mask := by
  simp only [HasMask, finishedAll_append, List.mem_append, exists_or]

theorem hasMask_cons {n : Node} {rest mask : List Node} :
    HasMask (n :: rest) mask ↔ HasMask [n] mask ∨ HasMask rest mask := by
  rw [← hasMask_append, List.singleton_append]

theorem hasMask_group {inst : Instance} {transform : Option (Shared Affine)} {alpha : UInt8}
    {exportId : Option StringId} {children mask : List Node} :
    HasMask [.group inst transform alpha exportId children] mask ↔ HasMask children mask := by
  simp [HasMask, finished]

theorem hasMask_masked {inst : Instance} {mask content mask' : List Node} :
    HasMask [.masked inst mask content] mask' ↔
      (HasMask mask mask' ∨ HasMask content mask') ∨ mask' = mask := by
  simp only [HasMask, finishedAll_cons, finishedAll_nil, List.append_nil, finished,
    List.mem_append, List.mem_singleton, exists_or]
  refine or_congr_right ⟨?_, ?_⟩
  · rintro ⟨inst', content', he⟩
    cases he
    rfl
  · rintro rfl
    exact ⟨inst, content, rfl⟩

/-- A group in a mask is a group of the tree. -/
theorem HasMask.names_subset {nodes mask : List Node} (h : HasMask nodes mask) :
    names (finishedAll mask) ⊆ names (finishedAll nodes) := by
  obtain ⟨inst, content, hmem⟩ := h
  exact Node.names_subset fun m hm =>
    finishedAll_subset hmem (finishedAll_mask_subset inst mask content hm)

/-- A group of this name is in a mask of the nodes. -/
def Masks (nodes : List Node) (id : StringId) : Prop :=
  ∃ mask, HasMask nodes mask ∧ id ∈ names (finishedAll mask)

theorem Masks.mono {nodes nodes' : List Node}
    (h : ∀ mask, HasMask nodes mask → HasMask nodes' mask) {id : StringId}
    (hid : Masks nodes id) : Masks nodes' id := by
  obtain ⟨mask, hmask, hname⟩ := hid
  exact ⟨mask, h mask hmask, hname⟩

end Node

namespace Pruning

/-- The groups among the nodes that are to be kept whole are in masks. -/
def Spares (c : Pruning) (nodes : List Node) : Prop :=
  ∀ id ∈ c.pinned, id ∈ Node.names (Node.finishedAll nodes) → Node.Masks nodes id

/-- What a pass may leave of a list of nodes. -/
inductive Prunes (c : Pruning) : List Node → List Node → Prop
  | nil : Prunes c [] []
  | keep (n : Node) {rest kept : List Node} (hrest : Prunes c rest kept) :
    Prunes c (n :: rest) (n :: kept)
  | drop {nodes rest kept : List Node} (hspares : c.Spares nodes) (hrest : Prunes c rest kept) :
    Prunes c (nodes ++ rest) kept
  | group (inst inst' : Instance) (transform : Option (Shared Affine)) (alpha : UInt8)
      {exportId : Option StringId} {children inner rest kept : List Node}
      (hpinned : c.isPinned exportId = false) (hchildren : Prunes c children inner)
      (hrest : Prunes c rest kept) :
    Prunes c (.group inst transform alpha exportId children :: rest)
      (.group inst' transform alpha exportId inner :: kept)
  | masked (inst inst' : Instance) (mask : List Node) {content inner rest kept : List Node}
      (hcontent : Prunes c content inner) (hrest : Prunes c rest kept) :
    Prunes c (.masked inst mask content :: rest) (.masked inst' mask inner :: kept)

variable {c : Pruning} {nodes nodes' kept kept' : List Node}

theorem Prunes.refl (nodes : List Node) : Prunes c nodes nodes := by
  induction nodes with
  | nil => exact .nil
  | cons n rest ih => exact .keep n ih

theorem Prunes.append (h : Prunes c nodes kept) (h' : Prunes c nodes' kept') :
    Prunes c (nodes ++ nodes') (kept ++ kept') := by
  induction h with
  | nil => exact h'
  | keep n hrest ih => exact .keep n ih
  | drop hspares hrest ih =>
    rw [List.append_assoc]
    exact .drop hspares ih
  | group inst inst' transform alpha hpinned hchildren hrest _ ih =>
    exact .group inst inst' transform alpha hpinned hchildren ih
  | masked inst inst' mask hcontent hrest _ ih => exact .masked inst inst' mask hcontent ih

/-- Dropping nodes altogether. -/
theorem Prunes.clear (h : c.Spares nodes) : Prunes c nodes [] := by
  have hdrop := Prunes.drop h (.nil (c := c))
  rwa [List.append_nil] at hdrop

/-! What is dropped spares the groups that are to be kept whole. -/

theorem spares_of_names (h : Node.names (Node.finishedAll nodes) = []) : c.Spares nodes := by
  intro id _ hid
  rw [h] at hid
  cases hid

theorem Spares.append (h : c.Spares nodes) (h' : c.Spares nodes') : c.Spares (nodes ++ nodes') := by
  intro id hpinned hid
  rw [Node.finishedAll_append, Node.names_append, List.mem_append] at hid
  rcases hid with hid | hid
  · exact (h id hpinned hid).mono fun mask hmask => Node.hasMask_append.mpr (Or.inl hmask)
  · exact (h' id hpinned hid).mono fun mask hmask => Node.hasMask_append.mpr (Or.inr hmask)

/-- A group that is kept whole for its own sake is not dropped. -/
theorem Spares.group (h : c.Spares nodes) {exportId : Option StringId}
    (hpinned : c.isPinned exportId = false) (inst : Instance)
    (transform : Option (Shared Affine)) (alpha : UInt8) :
    c.Spares [.group inst transform alpha exportId nodes] := by
  intro id hid hname
  rw [Node.finishedAll_cons, Node.finishedAll_nil, List.append_nil, Node.names_finished_group,
    List.mem_append] at hname
  rcases hname with hname | hname
  · exact (h id hid hname).mono fun mask hmask => Node.hasMask_group.mpr hmask
  · obtain rfl : exportId = some id := Option.mem_toList.mp hname
    simp [isPinned, hid] at hpinned

theorem Spares.masked (h : c.Spares nodes) (inst : Instance) (mask : List Node) :
    c.Spares [.masked inst mask nodes] := by
  intro id hid hname
  rw [Node.finishedAll_cons, Node.finishedAll_nil, List.append_nil, Node.names_finished_masked,
    List.mem_append] at hname
  rcases hname with hname | hname
  · exact ⟨mask, Node.hasMask_masked.mpr (Or.inr rfl), hname⟩
  · exact (h id hid hname).mono fun _ hmask =>
      Node.hasMask_masked.mpr (Or.inl (Or.inr hmask))

/-- What a pass leaves of a list, and what may be said if nothing of it draws. -/
theorem Sifts.prunes {t : Affine} (h : c.Sifts t nodes kept) :
    c.Prunes nodes kept ∧ (kept.any Node.isDrawable = false → c.Spares nodes) := by
  have hleaf {n : Node} (hn : Node.finished n = [n]) (hname : n.exportId? = none) :
      c.Spares [n] := by
    refine spares_of_names ?_
    simp [hn, hname]
  induction h with
  | nil t => exact ⟨.nil, fun _ => spares_of_names rfl⟩
  | @clip t n rest kept hclip hrest ih =>
    refine ⟨.keep n ih.1, fun hnone => ?_⟩
    rw [List.any_cons, Bool.or_eq_false_iff] at hnone
    have hspares : c.Spares [n] := by
      cases n with
      | clip inst path rule transform => exact hleaf (by rw [Node.finished]) rfl
      | _ => cases hclip
    exact hspares.append (ih.2 hnone.2)
  | @seen t n rest kept hn hmeets hrest ih =>
    refine ⟨.keep n ih.1, fun hnone => ?_⟩
    cases n <;> simp [Node.isLeaf, Node.isDrawable] at hn hnone
  | @unseen t n rest kept hn hmeets hrest ih =>
    have hspares : c.Spares [n] := by
      cases n with
      | shape inst geometry paint transform => exact hleaf (by rw [Node.finished]) rfl
      | image inst leaf => exact hleaf (by rw [Node.finished]) rfl
      | text inst leaf => exact hleaf (by rw [Node.finished]) rfl
      | use inst targetId target transform => exact hleaf (by rw [Node.finished]) rfl
      | _ => cases hn
    exact ⟨.drop hspares ih.1, fun hnone => hspares.append (ih.2 hnone)⟩
  | whole hpinned hrest ih => exact ⟨.keep _ ih.1, fun hnone => by simp at hnone⟩
  | @remade t e e' nodes inner rest kept hfree hinner hdraws hremade hrest ihInner ih =>
    refine ⟨?_, fun hnone => by simp at hnone⟩
    obtain ⟨inst', rfl⟩ := hremade.withInst
    cases e with
    | group inst transform alpha exportId =>
      exact .group inst inst' transform alpha hfree ihInner.1 ih.1
    | masked inst mask => exact .masked inst inst' mask ihInner.1 ih.1
  | @barren t e nodes inner rest kept hfree hinner hdraws hrest ihInner ih =>
    have hspares : c.Spares [e.node nodes] := by
      cases e with
      | group inst transform alpha exportId =>
        exact (ihInner.2 hdraws).group hfree inst transform alpha
      | masked inst mask => exact (ihInner.2 hdraws).masked inst mask
    exact ⟨.drop hspares ih.1, fun hnone => hspares.append (ih.2 hnone)⟩

/-- A pass over a tree. -/
theorem prunes_pass {source pruned : GraphRoot} (h : c.pass source = .ok pruned) :
    c.Prunes source.children pruned.children := by
  obtain ⟨inner, hsifts, hchildren, -⟩ := sifts_pass h
  obtain ⟨hprunes, hspares⟩ := hsifts.prunes
  rw [hchildren]
  split
  · exact hprunes
  · next hnone => exact .clear (hspares (Bool.eq_false_iff.mpr hnone))

/-- A node that is left and the node it is made of. -/
inductive Leaves (c : Pruning) : Node → Node → Prop
  | same (n : Node) : Leaves c n n
  | group (inst inst' : Instance) (transform : Option (Shared Affine)) (alpha : UInt8)
      {exportId : Option StringId} (children inner : List Node)
      (hpinned : c.isPinned exportId = false) :
    Leaves c (.group inst' transform alpha exportId inner)
      (.group inst transform alpha exportId children)
  | masked (inst inst' : Instance) (mask content inner : List Node) :
    Leaves c (.masked inst' mask inner) (.masked inst mask content)

variable {m n : Node}

theorem Leaves.exportId? (h : c.Leaves m n) : m.exportId? = n.exportId? := by
  cases h <;> rfl

theorem Leaves.targetId? (h : c.Leaves m n) : m.targetId? = n.targetId? := by
  cases h <;> rfl

/-- Uses are not made again. -/
theorem Leaves.eq_of_use {inst : Instance} {targetId : StringId} {target : Node}
    {transform : Option (Shared Affine)} (h : c.Leaves (.use inst targetId target transform) n) :
    n = .use inst targetId target transform := by
  cases h
  rfl

/-- A group that is kept whole is not made again. -/
theorem Leaves.eq_of_pinned (h : c.Leaves m n) {id : StringId} (hname : m.exportId? = some id)
    (hid : id ∈ c.pinned) : m = n := by
  cases h with
  | same => rfl
  | masked inst inst' mask content inner => cases hname
  | group inst inst' transform alpha children inner hpinned =>
    obtain rfl : _ = some id := hname
    simp [isPinned, hid] at hpinned

section Sublists

variable {α β : Type} {R : α → β → Prop}

private theorem sublist_append {l₁ l₂ : List α} {r₁ r₂ : List β} (h : List.SublistForall₂ R l₁ r₁)
    (h' : List.SublistForall₂ R l₂ r₂) : List.SublistForall₂ R (l₁ ++ l₂) (r₁ ++ r₂) := by
  obtain ⟨l, hl, hsub⟩ := List.sublistForall₂_iff.mp h
  obtain ⟨l', hl', hsub'⟩ := List.sublistForall₂_iff.mp h'
  exact List.sublistForall₂_iff.mpr ⟨l ++ l', List.rel_append hl hl', hsub.append hsub'⟩

/-- Where an element of the shorter list comes from. -/
theorem sublist_split {before after : List α} {a : α} {l : List β}
    (h : List.SublistForall₂ R (before ++ a :: after) l) :
    ∃ first b rest, l = first ++ b :: rest ∧ R a b ∧ List.SublistForall₂ R before first ∧
      List.SublistForall₂ R after rest := by
  generalize hwhole : before ++ a :: after = whole at h
  induction h generalizing before with
  | nil => cases before <;> cases hwhole
  | @cons x y l₁ l₂ hxy hrest ih =>
    cases before with
    | nil =>
      obtain ⟨rfl, rfl⟩ := List.cons.inj hwhole
      exact ⟨[], y, l₂, rfl, hxy, .nil, hrest⟩
    | cons z before =>
      obtain ⟨rfl, htail⟩ := List.cons.inj hwhole
      obtain ⟨first, b, rest, rfl, hab, hfirst, hafter⟩ := ih htail
      exact ⟨y :: first, b, rest, rfl, hab, .cons hxy hfirst, hafter⟩
  | @cons_right y l₁ l₂ hrest ih =>
    obtain ⟨first, b, rest, rfl, hab, hfirst, hafter⟩ := ih hwhole
    exact ⟨y :: first, b, rest, rfl, hab, .cons_right hfirst, hafter⟩

theorem sublist_mem {l : List α} {r : List β} (h : List.SublistForall₂ R l r) {a : α}
    (ha : a ∈ l) : ∃ b ∈ r, R a b := by
  obtain ⟨before, after, rfl⟩ := List.append_of_mem ha
  obtain ⟨first, b, rest, rfl, hab, -, -⟩ := sublist_split h
  exact ⟨b, List.mem_append_right first List.mem_cons_self, hab⟩

end Sublists

variable {nodes kept : List Node}

/-- What is left ends in the order it had. -/
theorem Prunes.leaves (h : c.Prunes nodes kept) :
    List.SublistForall₂ c.Leaves (Node.finishedAll kept) (Node.finishedAll nodes) := by
  have hrefl : Std.Refl c.Leaves := ⟨Leaves.same⟩
  induction h with
  | nil => exact .nil
  | keep n hrest ih =>
    rw [Node.finishedAll_cons, Node.finishedAll_cons]
    exact sublist_append (List.Sublist.refl _).sublistForall₂ ih
  | @drop nodes rest kept hspares hrest ih =>
    rw [Node.finishedAll_append]
    exact sublist_append (.nil (l := Node.finishedAll nodes)) ih
  | group inst inst' transform alpha hpinned hchildren hrest ihChildren ih =>
    rw [Node.finishedAll_cons, Node.finishedAll_cons, Node.finished, Node.finished]
    exact sublist_append
      (sublist_append ihChildren (.cons (.group inst inst' transform alpha _ _ hpinned) .nil)) ih
  | masked inst inst' mask hcontent hrest ihContent ih =>
    rw [Node.finishedAll_cons, Node.finishedAll_cons, Node.finished, Node.finished]
    exact sublist_append
      (sublist_append (sublist_append (List.Sublist.refl _).sublistForall₂ ihContent)
        (.cons (.masked inst inst' mask _ _) .nil)) ih

/-- The calls of what is left are some of those before, in order. -/
theorem Prunes.calls_sublist (h : c.Prunes nodes kept) :
    (Node.callsAll kept).Sublist (Node.callsAll nodes) := by
  induction h with
  | nil => exact List.Sublist.refl _
  | keep n hrest ih =>
    rw [Node.callsAll_cons, Node.callsAll_cons]
    exact (List.Sublist.refl _).append ih
  | @drop nodes rest kept hspares hrest ih =>
    rw [Node.callsAll_append]
    exact List.sublist_append_of_sublist_right ih
  | group inst inst' transform alpha hpinned hchildren hrest ihChildren ih =>
    rw [Node.callsAll_cons, Node.callsAll_cons, Node.calls, Node.calls]
    exact ((ihChildren.append (List.Sublist.refl _)).cons_cons _).append ih
  | masked inst inst' mask hcontent hrest ihContent ih =>
    rw [Node.callsAll_cons, Node.callsAll_cons, Node.calls, Node.calls]
    have hinner := (ihContent.append (List.Sublist.refl [Call.endMask])).cons_cons Call.maskContent
    exact (((List.Sublist.refl _).append hinner).cons_cons _).append ih

private theorem names_of_leaves {ms ns : List Node} (h : List.Forall₂ c.Leaves ms ns) :
    Node.names ms = Node.names ns := by
  induction h with
  | nil => rfl
  | cons hleaves _ ih =>
    simp only [Node.names, List.filterMap_cons, hleaves.exportId?] at ih ⊢
    rw [ih]

/-- The groups that are left had their names before, in the same order. -/
theorem Prunes.names_sublist (h : c.Prunes nodes kept) :
    (Node.names (Node.finishedAll kept)).Sublist (Node.names (Node.finishedAll nodes)) := by
  obtain ⟨l, hl, hsub⟩ := List.sublistForall₂_iff.mp h.leaves
  rw [names_of_leaves hl]
  exact hsub.filterMap _

theorem Prunes.names (h : c.Prunes nodes kept) :
    Node.names (Node.finishedAll kept) ⊆ Node.names (Node.finishedAll nodes) :=
  h.names_sublist.subset

/-- A group that is to be kept whole is left, unless it is in a mask. -/
theorem Prunes.survives (h : c.Prunes nodes kept) {id : StringId} (hid : id ∈ c.pinned)
    (hname : id ∈ Node.names (Node.finishedAll nodes)) :
    id ∈ Node.names (Node.finishedAll kept) ∨ Node.Masks nodes id := by
  induction h with
  | nil => cases hname
  | keep n hrest ih =>
    rw [Node.finishedAll_cons, Node.names_append, List.mem_append] at hname ⊢
    rcases hname with hname | hname
    · exact Or.inl (Or.inl hname)
    · rcases ih hname with hleft | hmask
      · exact Or.inl (Or.inr hleft)
      · exact Or.inr (hmask.mono fun _ h => Node.hasMask_cons.mpr (Or.inr h))
  | @drop nodes rest kept hspares hrest ih =>
    rw [Node.finishedAll_append, Node.names_append, List.mem_append] at hname
    rcases hname with hname | hname
    · exact Or.inr ((hspares id hid hname).mono fun _ h => Node.hasMask_append.mpr (Or.inl h))
    · rcases ih hname with hleft | hmask
      · exact Or.inl hleft
      · exact Or.inr (hmask.mono fun _ h => Node.hasMask_append.mpr (Or.inr h))
  | group inst inst' transform alpha hpinned hchildren hrest ihChildren ih =>
    rw [Node.finishedAll_cons, Node.names_append, Node.names_finished_group, List.mem_append,
      List.mem_append] at hname ⊢
    rcases hname with (hname | hname) | hname
    · rcases ihChildren hname with hleft | hmask
      · exact Or.inl (Or.inl (Or.inl hleft))
      · exact Or.inr (hmask.mono fun _ h =>
          Node.hasMask_cons.mpr (Or.inl (Node.hasMask_group.mpr h)))
    · exact Or.inl (Or.inl (Or.inr hname))
    · rcases ih hname with hleft | hmask
      · exact Or.inl (Or.inr hleft)
      · exact Or.inr (hmask.mono fun _ h => Node.hasMask_cons.mpr (Or.inr h))
  | masked inst inst' mask hcontent hrest ihContent ih =>
    rw [Node.finishedAll_cons, Node.names_append, Node.names_finished_masked, List.mem_append,
      List.mem_append] at hname ⊢
    rcases hname with (hname | hname) | hname
    · exact Or.inl (Or.inl (Or.inl hname))
    · rcases ihContent hname with hleft | hmask
      · exact Or.inl (Or.inl (Or.inr hleft))
      · exact Or.inr (hmask.mono fun _ h =>
          Node.hasMask_cons.mpr (Or.inl (Node.hasMask_masked.mpr (Or.inl (Or.inr h)))))
    · rcases ih hname with hleft | hmask
      · exact Or.inl (Or.inr hleft)
      · exact Or.inr (hmask.mono fun _ h => Node.hasMask_cons.mpr (Or.inr h))

/-- Where no name is used twice, a mask with a group that is left is a mask of what is left. -/
theorem Prunes.hasMask (h : c.Prunes nodes kept)
    (hdistinct : (Node.names (Node.finishedAll nodes)).Nodup) {id : StringId}
    (hname : id ∈ Node.names (Node.finishedAll kept)) {mask : List Node}
    (hmask : Node.HasMask nodes mask) (hid : id ∈ Node.names (Node.finishedAll mask)) :
    Node.HasMask kept mask := by
  have happart {first rest : List StringId} (hnodup : (first ++ rest).Nodup)
      (hfirst : id ∈ first) (hrest : id ∈ rest) : False :=
    (List.nodup_append.mp hnodup).2.2 id hfirst id hrest rfl
  induction h with
  | nil => cases hname
  | @keep n rest kept hrest ih =>
    rw [Node.finishedAll_cons, Node.names_append] at hdistinct hname
    have hdistinct' := (List.nodup_append.mp hdistinct).2.1
    rcases Node.hasMask_cons.mp hmask with hmask | hmask
    · exact Node.hasMask_cons.mpr (Or.inl hmask)
    · rcases List.mem_append.mp hname with hname | hname
      · exact (happart hdistinct hname (hmask.names_subset hid)).elim
      · exact Node.hasMask_cons.mpr (Or.inr (ih hdistinct' hname hmask))
  | @drop nodes rest kept hspares hrest ih =>
    rw [Node.finishedAll_append, Node.names_append] at hdistinct
    have hdistinct' := (List.nodup_append.mp hdistinct).2.1
    rcases Node.hasMask_append.mp hmask with hmask | hmask
    · exact (happart hdistinct (hmask.names_subset hid) (hrest.names hname)).elim
    · exact ih hdistinct' hname hmask
  | group inst inst' transform alpha hpinned hchildren hrest ihChildren ih =>
    rw [Node.finishedAll_cons, Node.names_append, Node.names_finished_group] at hdistinct hname
    obtain ⟨hown, hdistinct', -⟩ := List.nodup_append.mp hdistinct
    have hinner := (List.nodup_append.mp hown).1
    rcases Node.hasMask_cons.mp hmask with hmask | hmask
    · have hmask := Node.hasMask_group.mp hmask
      have hchild := hmask.names_subset hid
      rcases List.mem_append.mp hname with hname | hname
      · rcases List.mem_append.mp hname with hname | hname
        · exact Node.hasMask_cons.mpr
            (Or.inl (Node.hasMask_group.mpr (ihChildren hinner hname hmask)))
        · exact (happart hown hchild hname).elim
      · exact (happart hdistinct (List.mem_append_left _ hchild) (hrest.names hname)).elim
    · have hlater := hmask.names_subset hid
      rcases List.mem_append.mp hname with hname | hname
      · rcases List.mem_append.mp hname with hname | hname
        · exact (happart hdistinct (List.mem_append_left _ (hchildren.names hname)) hlater).elim
        · exact (happart hdistinct (List.mem_append_right _ hname) hlater).elim
      · exact Node.hasMask_cons.mpr (Or.inr (ih hdistinct' hname hmask))
  | masked inst inst' first hcontent hrest ihContent ih =>
    rw [Node.finishedAll_cons, Node.names_append, Node.names_finished_masked] at hdistinct hname
    obtain ⟨hown, hdistinct', -⟩ := List.nodup_append.mp hdistinct
    have hinner := (List.nodup_append.mp hown).2.1
    rcases Node.hasMask_cons.mp hmask with hmask | hmask
    · rcases Node.hasMask_masked.mp hmask with (hmask | hmask) | rfl
      · exact Node.hasMask_cons.mpr (Or.inl (Node.hasMask_masked.mpr (Or.inl (Or.inl hmask))))
      · have hchild := hmask.names_subset hid
        rcases List.mem_append.mp hname with hname | hname
        · rcases List.mem_append.mp hname with hname | hname
          · exact (happart hown hname hchild).elim
          · exact Node.hasMask_cons.mpr
              (Or.inl (Node.hasMask_masked.mpr (Or.inl (Or.inr (ihContent hinner hname hmask)))))
        · exact (happart hdistinct (List.mem_append_right _ hchild) (hrest.names hname)).elim
      · exact Node.hasMask_cons.mpr (Or.inl (Node.hasMask_masked.mpr (Or.inr rfl)))
    · have hlater := hmask.names_subset hid
      rcases List.mem_append.mp hname with hname | hname
      · rcases List.mem_append.mp hname with hname | hname
        · exact (happart hdistinct (List.mem_append_left _ hname) hlater).elim
        · exact (happart hdistinct (List.mem_append_right _ (hcontent.names hname)) hlater).elim
      · exact Node.hasMask_cons.mpr (Or.inr (ih hdistinct' hname hmask))

end Pruning

end VectorImage
