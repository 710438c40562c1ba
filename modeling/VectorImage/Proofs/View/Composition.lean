import VectorImage.Proofs.View.Origin

/-!
Pruning twice. Pruning to an area and then to a smaller one gives what pruning to the smaller one
alone gives: a group that the smaller area keeps whole was kept whole before, since the uses left
in the smaller area were left in the larger one. A second pruning to the same area changes nothing.
-/

set_option autoImplicit false
set_option relaxedAutoImplicit false

namespace VectorImage

/-- No side of the area `s` lies outside the area `r`, and every side of both is a number. -/
structure Rect.Covers (r s : Rect) : Prop where
  left : r.x0.le s.x0 = true
  top : r.y0.le s.y0 = true
  right : s.x1.le r.x1 = true
  bottom : s.y1.le r.y1 = true

/-- What meets an area meets every area that covers it. -/
theorem Rect.Covers.overlaps {r s b : Rect} (h : r.Covers s) (hb : b.overlaps s = true) :
    b.overlaps r = true := by
  simp only [Rect.overlaps, Bool.and_eq_true] at hb ⊢
  obtain ⟨⟨⟨hright, hleft⟩, hbottom⟩, htop⟩ := hb
  exact ⟨⟨⟨Binary64.le_trans hright h.right, Binary64.le_trans h.left hleft⟩,
    Binary64.le_trans hbottom h.bottom⟩, Binary64.le_trans h.top htop⟩

/-- Lists of structurally equal nodes: the same nodes, but that groups and masked nodes may be
other instances. -/
inductive Node.StructEq : List Node → List Node → Prop
  | nil : StructEq [] []
  | same (n : Node) {rest rest' : List Node} (hrest : StructEq rest rest') :
    StructEq (n :: rest) (n :: rest')
  | enclosed (e : Enclosure) (inst : Instance) {nodes nodes' rest rest' : List Node}
      (hinner : StructEq nodes nodes') (hrest : StructEq rest rest') :
    StructEq (e.node nodes :: rest) ((e.withInst inst).node nodes' :: rest')

namespace Node.StructEq

variable {nodes nodes' : List Node}

theorem refl (nodes : List Node) : StructEq nodes nodes := by
  induction nodes with
  | nil => exact .nil
  | cons n rest ih => exact .same n ih

theorem symm (h : StructEq nodes nodes') : StructEq nodes' nodes := by
  induction h with
  | nil => exact .nil
  | same n _ ih => exact .same n ih
  | enclosed e inst _ _ ihInner ih =>
    have hback := StructEq.enclosed (e.withInst inst) e.inst ihInner ih
    rwa [Enclosure.withInst_withInst, Enclosure.withInst_inst] at hback

theorem thins (h : StructEq nodes nodes') : Pruning.Thins nodes nodes' := by
  induction h with
  | nil => exact .nil
  | same n _ ih => exact .keep n ih
  | enclosed e inst _ _ ihInner ih => exact .enclosed e inst ihInner ih

theorem any_isDrawable (h : StructEq nodes nodes') :
    nodes.any Node.isDrawable = nodes'.any Node.isDrawable :=
  Bool.eq_iff_iff.mpr ⟨h.symm.thins.any_isDrawable, h.thins.any_isDrawable⟩

end Node.StructEq

/-- Structurally equal trees use the same groups. -/
theorem GraphRoot.mem_targets_of_structEq {root root' : GraphRoot}
    (h : Node.StructEq root.children root'.children) (id : StringId) :
    id ∈ root.targets ↔ id ∈ root'.targets := by
  have himp {root root' : GraphRoot} (h : Node.StructEq root.children root'.children)
      (hid : id ∈ root.targets) : id ∈ root'.targets := by
    obtain ⟨n, hn, htarget⟩ := GraphRoot.mem_targets.mp hid
    exact GraphRoot.mem_targets.mpr
      ⟨n, h.symm.thins.mem_leaf (Node.isLeaf_of_targetId? htarget) hn, htarget⟩
  exact ⟨himp h, himp h.symm⟩

/-- A node is a clip, a leaf or use, or an enclosure. -/
theorem Node.clip_or_leaf_or_node (n : Node) :
    n.isDrawable = false ∨ n.isLeaf = true ∨ ∃ e nodes, n = Enclosure.node e nodes := by
  cases n with
  | group inst transform alpha exportId children =>
    exact Or.inr (Or.inr ⟨.group inst transform alpha exportId, children, rfl⟩)
  | masked inst mask content => exact Or.inr (Or.inr ⟨.masked inst mask, content, rfl⟩)
  | clip => exact Or.inl rfl
  | shape => exact Or.inr (Or.inl rfl)
  | image => exact Or.inr (Or.inl rfl)
  | text => exact Or.inr (Or.inl rfl)
  | use => exact Or.inr (Or.inl rfl)

theorem Enclosure.sizeOf_lt_node (e : Enclosure) (nodes : List Node) :
    sizeOf nodes < sizeOf (e.node nodes) := by
  cases e <;> simp only [Enclosure.node, Node.group.sizeOf_spec, Node.masked.sizeOf_spec] <;> omega

namespace Pruning

variable {c c' d : Pruning} {t : Affine} {nodes nodes' kept kept' left left' tail tail' : List Node}

/-- Prunings to one area that keep the same groups whole. Their copies may have other stamps. -/
structure Agrees (c c' : Pruning) : Prop where
  resources : c'.resources = c.resources
  area : c'.area = c.area
  pinned : ∀ id, id ∈ c'.pinned ↔ id ∈ c.pinned

theorem Agrees.isPinned (h : c.Agrees c') (exportId : Option StringId) :
    c'.isPinned exportId = c.isPinned exportId := by
  cases exportId with
  | none => rfl
  | some id => simp [Pruning.isPinned, h.pinned id]

/-! One area after another: what the first pass of two leaves is pruned as if it had never been in
more. -/

/-- An enclosure and a copy of it around nodes that are left with the same. -/
private theorem Outcome.structEq (hagrees : c.Agrees c') {e : Enclosure} {inst : Instance}
    (hwhole : c.isPinned e.exportId? = true → Node.StructEq nodes nodes')
    (hinner : ∀ inner inner' : List Node, c.Sifts (e.inside t) nodes inner →
      c'.Sifts (e.inside t) nodes' inner' → Node.StructEq inner inner')
    (h : c.Outcome t e nodes left) (h' : c'.Outcome t (e.withInst inst) nodes' left')
    (htail : Node.StructEq tail tail') : Node.StructEq (left ++ tail) (left' ++ tail') := by
  have hpinned := hagrees.isPinned e.exportId?
  cases h with
  | whole hkeep =>
    cases h' with
    | whole => exact .enclosed e inst (hwhole hkeep) htail
    | remade hfree => simp [hpinned, hkeep] at hfree
    | barren hfree => simp [hpinned, hkeep] at hfree
  | @remade _ inner hfree hsifts hdraws hremade =>
    obtain ⟨i, rfl⟩ := hremade.withInst
    cases h' with
    | whole hkeep => simp [hpinned, hfree] at hkeep
    | @remade _ inner' _ hsifts' _ hremade' =>
      obtain ⟨j, rfl⟩ := hremade'.withInst
      rw [Enclosure.inside_withInst] at hsifts'
      have hequal := Node.StructEq.enclosed (e.withInst i) j (hinner _ _ hsifts hsifts') htail
      rw [Enclosure.withInst_withInst] at hequal ⊢
      exact hequal
    | barren _ hsifts' hnone =>
      rw [Enclosure.inside_withInst] at hsifts'
      rw [← (hinner _ _ hsifts hsifts').any_isDrawable, hdraws] at hnone
      cases hnone
  | barren hfree hsifts hnone =>
    cases h' with
    | whole hkeep => simp [hpinned, hfree] at hkeep
    | remade _ hsifts' hdraws' =>
      rw [Enclosure.inside_withInst] at hsifts'
      rw [(hinner _ _ hsifts hsifts').any_isDrawable, hdraws'] at hnone
      cases hnone
    | barren => exact htail

/-- What a pass leaves of a list is determined, but for the instances of the copies. -/
theorem Sifts.unique (hagrees : c.Agrees c') {t : Affine} {nodes left left' : List Node}
    (h : c.Sifts t nodes left) (h' : c'.Sifts t nodes left') : Node.StructEq left left' := by
  match nodes with
  | [] =>
    rw [h.of_nil, h'.of_nil]
    exact .nil
  | n :: rest =>
    rcases n.clip_or_leaf_or_node with hclip | hleaf | ⟨e, nodes, rfl⟩
    · obtain ⟨tail, htail, rfl⟩ := h.of_clip hclip
      obtain ⟨tail', htail', rfl⟩ := h'.of_clip hclip
      exact .same n (htail.unique hagrees htail')
    · obtain ⟨tail, htail, rfl⟩ := h.of_leaf hleaf
      obtain ⟨tail', htail', rfl⟩ := h'.of_leaf hleaf
      have hrest := htail.unique hagrees htail'
      rw [hagrees.resources, hagrees.area]
      split
      · exact .same n hrest
      · exact hrest
    · obtain ⟨left, tail, hout, htail, rfl⟩ := h.of_node
      obtain ⟨left', tail', hout', htail', rfl⟩ := h'.of_node
      have hless := e.sizeOf_lt_node nodes
      rw [← e.withInst_inst] at hout'
      refine hout.structEq hagrees (fun _ => .refl nodes) ?_ hout' (htail.unique hagrees htail')
      intro inner inner' hinner hinner'
      exact hinner.unique hagrees hinner'
termination_by sizeOf nodes

/-- What is left of a list after two passes, of which the first keeps more, is what is left of it
after the second alone. -/
private theorem Sifts.structEq_after (hbroadens : c.Broadens d) (hagrees : c.Agrees c')
    (h : d.Sifts t nodes kept) (hleft : c.Sifts t nodes left) (hleft' : c'.Sifts t kept left') :
    Node.StructEq left left' := by
  have hfree {exportId : Option StringId} (hd : d.isPinned exportId = false) :
      c.isPinned exportId = false := by
    by_contra hpinned
    rw [hbroadens.isPinned (Bool.not_eq_false _ ▸ hpinned)] at hd
    cases hd
  induction h generalizing left left' with
  | nil t =>
    rw [hleft.of_nil, hleft'.of_nil]
    exact .nil
  | clip hclip _ ih =>
    obtain ⟨tail, htail, rfl⟩ := hleft.of_clip hclip
    obtain ⟨tail', htail', rfl⟩ := hleft'.of_clip hclip
    exact .same _ (ih htail htail')
  | seen hleaf _ _ ih =>
    obtain ⟨tail, htail, rfl⟩ := hleft.of_leaf hleaf
    obtain ⟨tail', htail', rfl⟩ := hleft'.of_leaf hleaf
    rw [hagrees.resources, hagrees.area]
    split
    · exact .same _ (ih htail htail')
    · exact ih htail htail'
  | unseen hleaf hmeets _ ih =>
    obtain ⟨tail, htail, rfl⟩ := hleft.of_leaf hleaf
    have hunseen : ¬ Node.meets c.resources c.area _ _ = true := fun hseen =>
      Bool.false_ne_true (hmeets.symm.trans (hbroadens.meets hseen))
    rw [if_neg hunseen]
    exact ih htail hleft'
  | @whole t e nodes _ _ hpinned _ ih =>
    -- what is whole after the first pass is pruned by the second from scratch
    obtain ⟨left, tail, hout, htail, rfl⟩ := hleft.of_node
    obtain ⟨left', tail', hout', htail', rfl⟩ := hleft'.of_node
    rw [← e.withInst_inst] at hout'
    exact hout.structEq hagrees (fun _ => .refl nodes)
      (fun _ _ hinner hinner' => hinner.unique hagrees hinner') hout' (ih htail htail')
  | @remade _ e _ _ _ _ _ hd _ _ hremade _ ihInner ih =>
    obtain ⟨i, rfl⟩ := hremade.withInst
    obtain ⟨left, tail, hout, htail, rfl⟩ := hleft.of_node
    obtain ⟨left', tail', hout', htail', rfl⟩ := hleft'.of_node
    refine hout.structEq hagrees (fun hpinned => ?_)
      (fun _ _ hinner hinner' => ihInner hinner hinner') hout' (ih htail htail')
    rw [hfree hd] at hpinned
    cases hpinned
  | barren hd hinnerOuter hnone _ _ ih =>
    obtain ⟨left, tail, hout, htail, rfl⟩ := hleft.of_node
    cases hout with
    | whole hpinned =>
      rw [hfree hd] at hpinned
      cases hpinned
    | remade _ hinner hdraws =>
      rw [(hinner.mono hbroadens hinnerOuter).any_isDrawable hdraws] at hnone
      cases hnone
    | barren => exact ih htail hleft'

variable {source outer pruned pruned' result result' : GraphRoot}

private theorem structEq_of_pass (hbroadens : c.Broadens d) (hagrees : c.Agrees c')
    (houter : d.pass source = .ok outer) (h : c.pass source = .ok pruned)
    (h' : c'.pass outer = .ok pruned') : Node.StructEq pruned.children pruned'.children := by
  obtain ⟨first, hfirst⟩ := sifts_pass houter
  obtain ⟨inner, hinner⟩ := sifts_pass h
  obtain ⟨inner', hinner'⟩ := sifts_pass h'
  have hsifts' := hinner'.sifts
  rw [hfirst.children] at hsifts'
  rw [hinner.children, hinner'.children]
  cases hdraws : first.any Node.isDrawable with
  | false =>
    -- nothing that draws was left, so that there is nothing to be left again
    have hnone : inner.any Node.isDrawable = false := by
      by_contra hsome
      rw [(hinner.sifts.mono hbroadens hfirst.sifts).any_isDrawable (Bool.not_eq_false _ ▸ hsome)]
        at hdraws
      cases hdraws
    rw [hdraws, if_neg Bool.false_ne_true] at hsifts'
    rw [hsifts'.of_nil, hnone]
    exact .nil
  | true =>
    rw [if_pos hdraws] at hsifts'
    have hequal := hfirst.sifts.structEq_after hbroadens hagrees hinner.sifts hsifts'
    rw [hequal.any_isDrawable]
    split
    · exact hequal
    · exact .nil

/-- Prunings that agree still agree when what their passes have left uses the same groups. -/
theorem Agrees.pin {source' : GraphRoot} (h : c.Agrees c') (hpass : c.pass source = .ok pruned)
    (hpass' : c'.pass source' = .ok pruned')
    (htargets : ∀ id, id ∈ pruned.targets ↔ id ∈ pruned'.targets) :
    (c'.unpinned source' pruned' = [] ↔ c.unpinned source pruned = []) ∧
      (c.pin (c.unpinned source pruned)).Agrees (c'.pin (c'.unpinned source' pruned')) := by
  have hunpinned (id : StringId) :
      id ∈ c'.unpinned source' pruned' ↔ id ∈ c.unpinned source pruned := by
    rw [mem_unpinned hpass, mem_unpinned hpass', h.pinned id, htargets]
  refine ⟨?_, h.resources, h.area, fun id => ?_⟩
  · simp only [List.eq_nil_iff_forall_not_mem, hunpinned]
  · simp only [Pruning.pin, List.mem_append, hunpinned, h.pinned]

/-- Prunings of a tree, and of what a pass has left of it, go on alike as long as they keep whole
no groups that the pass has not. -/
private theorem structEq_of_run (houter : d.pass source = .ok outer)
    (htargets : outer.targets ⊆ d.pinned) (hbroadens : c.Broadens d) (hagrees : c.Agrees c')
    (h : c.run source = .ok result) (h' : c'.run outer = .ok result') :
    Node.StructEq result.children result'.children := by
  induction hn : c.remaining source using Nat.strongRecOn generalizing c c' with
  | ind n ih =>
    rw [run] at h h'
    obtain ⟨pruned, hpass, h⟩ := bind_eq_ok.mp h
    obtain ⟨pruned', hpass', h'⟩ := bind_eq_ok.mp h'
    have hequal := structEq_of_pass hbroadens hagrees houter hpass hpass'
    obtain ⟨hnil, hpin⟩ :=
      hagrees.pin hpass hpass' (GraphRoot.mem_targets_of_structEq hequal)
    split at h
    · next hdone =>
      rw [dif_pos (hnil.mpr hdone)] at h'
      cases h
      cases h'
      exact hequal
    · next hmore =>
      rw [dif_neg (mt hnil.mp hmore)] at h'
      refine ih _ (hn ▸ c.remaining_pin_lt source pruned hmore) ?_ hpin h h' rfl
      refine ⟨hbroadens.resources, hbroadens.area, ?_⟩
      intro id hid
      rcases List.mem_append.mp hid with hid | hid
      · exact htargets (targets_mono hbroadens hpass houter ((mem_unpinned hpass).mp hid).1)
      · exact hbroadens.pinned hid

/-! What a pass leaves is kept as it is by every pass to the same area that keeps the same groups
whole. -/

private theorem prune_node (e : Enclosure) (nodes : List Node) (place : List Nat) :
    Node.prune c t place (e.node nodes) =
      if c.isPinned e.exportId? then .ok .keep
      else (Node.pruneAll c (e.inside t) place 0 nodes).map fun l =>
        l.close fun inner => (e.withInst ⟨c.stamp, place⟩).node inner := by
  cases e with
  | group inst transform alpha exportId =>
    rw [Enclosure.node, Node.prune]
    rfl
  | masked inst mask =>
    rw [Enclosure.node, Node.prune]
    rfl

private theorem prune_seen {n : Node} (hleaf : n.isLeaf = true)
    (hmeets : n.meets c.resources c.area t = true) (place : List Nat) :
    Node.prune c t place n = .ok .keep := by
  have htest : c.test t n = .ok .keep := by
    rw [Node.meets] at hmeets
    rw [test]
    split at hmeets
    · next b hextent =>
      rw [hextent]
      exact congrArg Except.ok (if_pos hmeets)
    · cases hmeets
  cases n with
  | shape => rwa [Node.prune]
  | image => rwa [Node.prune]
  | text => rwa [Node.prune]
  | use => rwa [Node.prune]
  | _ => cases hleaf

private theorem Sifts.pruneAll (h : c.Sifts t nodes kept) (hagrees : c.Agrees c')
    (place : List Nat) (i : Nat) :
    Node.pruneAll c' t place i kept = .ok ⟨kept, false, kept.any Node.isDrawable⟩ := by
  have hcons {t : Affine} {n : Node} {rest : List Node} {place : List Nat} {i : Nat}
      (hn : Node.prune c' t (place ++ [i]) n = .ok .keep)
      (hrest : Node.pruneAll c' t place (i + 1) rest =
        .ok ⟨rest, false, rest.any Node.isDrawable⟩) :
      Node.pruneAll c' t place i (n :: rest) =
        .ok ⟨n :: rest, false, (n :: rest).any Node.isDrawable⟩ := by
    rw [Node.pruneAll]
    exact bind_eq_ok.mpr ⟨.keep, hn, bind_eq_ok.mpr ⟨_, hrest, rfl⟩⟩
  induction h generalizing place i with
  | nil => rw [Node.pruneAll, List.any_nil]
  | @clip _ n _ _ hclip _ ih =>
    refine hcons ?_ (ih place (i + 1))
    cases n with
    | clip => rw [Node.prune]
    | _ => cases hclip
  | seen hleaf hmeets _ ih =>
    refine hcons (prune_seen hleaf ?_ _) (ih place (i + 1))
    rwa [hagrees.resources, hagrees.area]
  | unseen _ _ _ ih => exact ih place i
  | whole hpinned _ ih =>
    refine hcons ?_ (ih place (i + 1))
    rw [prune_node, hagrees.isPinned, if_pos hpinned]
  | @remade _ e _ _ inner _ _ hfree _ hdraws hremade _ ihInner ih =>
    obtain ⟨inst, rfl⟩ := hremade.withInst
    refine hcons ?_ (ih place (i + 1))
    rw [prune_node, hagrees.isPinned, Enclosure.exportId?_withInst, if_neg (by simp [hfree]),
      Enclosure.inside_withInst, ihInner]
    simp [Except.map, PrunedList.close, hdraws]
  | barren _ _ _ _ _ ih => exact ih place i

/-- A pass over the result of another changes nothing if anything is left. -/
private theorem pass_pass (h : c.pass source = .ok outer) (hagrees : c.Agrees c')
    (hsome : outer.children ≠ []) : c'.pass outer = .ok outer := by
  obtain ⟨inner, hinner⟩ := sifts_pass h
  have hchildren := hinner.children
  split at hchildren
  · next hdraws =>
    rw [pass, hchildren, hinner.sifts.pruneAll hagrees]
    simp [Bind.bind, Except.bind, Pure.pure, Except.pure, hdraws]
  · exact absurd hchildren hsome

/-- A second run leaves a tree as the first has left it. -/
private theorem run_run (hpinned : c.pinned = []) (hagrees : c.Agrees c')
    (h : c.run source = .ok outer) (h' : c'.run outer = .ok result)
    (hequal : Node.StructEq outer.children result.children) (hsome : outer.children ≠ []) :
    result = outer := by
  obtain ⟨d, hlast⟩ := exists_lastPass h
  obtain ⟨d', hlast'⟩ := exists_lastPass h'
  have hpinned' : c'.pinned = [] :=
    List.eq_nil_iff_forall_not_mem.mpr fun id hid => by simp [hagrees.pinned, hpinned] at hid
  have hsame : d.Agrees d' := by
    refine ⟨?_, ?_, fun id => ?_⟩
    · rw [hlast'.widens.resources, hagrees.resources, hlast.widens.resources]
    · rw [hlast'.widens.area, hagrees.area, hlast.widens.area]
    · rw [hlast.mem_pinned hpinned, hlast'.mem_pinned hpinned',
        GraphRoot.mem_targets_of_structEq hequal]
  have hpass := pass_pass hlast.pass hsame hsome
  exact Except.ok.inj (hlast'.pass.symm.trans hpass)

end Pruning

namespace GraphImage

variable {g : GraphImage} {inner outer : Rect} {innerTolerance outerTolerance : Binary64}

/-- Pruning composes. An image pruned to an area, and then to one that it covers, is structurally
equal to the image pruned to the second area alone; where the areas are the same, the second pruning
changes nothing, and gives the tree itself again unless it is empty. -/
theorem prunes_compose (hg : g.Reachable)
    (hcovers : (outer.abs.inflate outerTolerance outerTolerance).Covers
      (inner.abs.inflate innerTolerance innerTolerance)) (copies₁ copies₂ copies₃ : Nat) :
    ∃ v w u : GraphImage, g.withViewport copies₁ outer true outerTolerance = .ok v ∧
      v.withViewport copies₂ inner true innerTolerance = .ok w ∧
      g.withViewport copies₃ inner true innerTolerance = .ok u ∧
      Node.StructEq u.root.children w.root.children ∧
      (inner.abs.inflate innerTolerance innerTolerance =
          outer.abs.inflate outerTolerance outerTolerance →
        Node.StructEq v.root.children w.root.children ∧
          (v.root.children ≠ [] → w.root = v.root)) := by
  obtain ⟨first, hfirst⟩ := hg.prune_progress copies₁ outer outerTolerance
  have hv : g.withViewport copies₁ outer true outerTolerance =
      .ok { g with document := g.document.showing outer, root := first } :=
    bind_eq_ok.mpr ⟨first, hfirst, rfl⟩
  obtain ⟨second, hsecond⟩ := (hg.viewed hv).prune_progress copies₂ inner innerTolerance
  have hagain : (g.pruning copies₂ inner innerTolerance).run first = .ok second := hsecond
  obtain ⟨direct, hdirect⟩ := hg.prune_progress copies₃ inner innerTolerance
  obtain ⟨d, hlast⟩ := Pruning.exists_lastPass hfirst
  have hequal {copies : Nat} {root : GraphRoot}
      (h : g.prune copies inner innerTolerance = .ok root) :
      Node.StructEq root.children second.children := by
    refine Pruning.structEq_of_run hlast.pass hlast.targets ?_ ?_ h hagain
    · refine ⟨hlast.widens.resources, fun r hr => ?_, List.nil_subset _⟩
      rw [hlast.widens.area]
      exact hcovers.overlaps hr
    · exact ⟨rfl, rfl, fun _ => Iff.rfl⟩
  refine ⟨_, _, _, hv, bind_eq_ok.mpr ⟨second, hsecond, rfl⟩,
    bind_eq_ok.mpr ⟨direct, hdirect, rfl⟩, hequal hdirect, fun harea => ?_⟩
  have hsame : g.prune copies₁ inner innerTolerance = .ok first := by
    rw [prune, pruning, harea]
    exact hfirst
  have hagrees : (g.pruning copies₁ inner innerTolerance).Agrees
      (g.pruning copies₂ inner innerTolerance) := ⟨rfl, rfl, fun _ => Iff.rfl⟩
  exact ⟨hequal hsame,
    fun hsome => Pruning.run_run rfl hagrees hsame hagain (hequal hsame) hsome⟩

end GraphImage

/-! A badge seen through a window and through a narrower one. -/

namespace NarrowerWindow

private def picture (left right : Binary64) : Call :=
  .image ⟨0, ⟨left, .zero, right, .ofNat 10⟩, none⟩

/-- The use moves the badge into the wider window only. -/
private def calls : List Call :=
  [.init ⟨[⟨1, 1, [0, 0, 0, 255]⟩], ["badge"], []⟩, .beginGroup ⟨none, 255, some 0⟩,
    picture (.ofNat 90) (.ofNat 100), .endGroup, .beginGroup ⟨none, 128, none⟩,
    picture .zero (.ofNat 10), picture (.ofNat 40) (.ofNat 50), .endGroup,
    .use ⟨0, some (.translate (Binary64.ofNat 60).neg .zero)⟩]

private def window (right : Binary64) : Rect := ⟨.zero, .zero, right, .ofNat 20⟩

private theorem ofCalls_calls : ∃ g, GraphImage.ofCalls 0 false .empty calls = .ok g := by
  have haccepted : (GraphImage.ofCalls 0 false .empty calls).toBool = true := by decide +kernel
  exact toBool_eq_true.mp haccepted

private theorem window_covers : ((window (.ofNat 60)).abs.inflate .one .one).Covers
    ((window (.ofNat 20)).abs.inflate .zero .zero) := by
  constructor <;> decide +kernel

end NarrowerWindow

namespace GraphImage

theorem prunes_compose_narrowerWindow : ∃ g v w u : GraphImage,
    ofCalls 0 false .empty NarrowerWindow.calls = .ok g ∧
      g.withViewport 1 (NarrowerWindow.window (.ofNat 60)) true .one = .ok v ∧
      v.withViewport 2 (NarrowerWindow.window (.ofNat 20)) true .zero = .ok w ∧
      g.withViewport 3 (NarrowerWindow.window (.ofNat 20)) true .zero = .ok u ∧
      Node.StructEq u.root.children w.root.children := by
  obtain ⟨g, hg⟩ := NarrowerWindow.ofCalls_calls
  have hreachable : g.Reachable := .replayed .empty (List.not_mem_nil : 0 ∉ []) hg
  obtain ⟨v, w, u, hv, hw, hu, hequal, -⟩ :=
    prunes_compose hreachable NarrowerWindow.window_covers 1 2 3
  exact ⟨g, v, w, u, hg, hv, hw, hu, hequal⟩

end GraphImage

end VectorImage
