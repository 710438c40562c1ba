import VectorImage.Proofs.Graph.Likeness
import VectorImage.Proofs.View.Composition

/-!
Pruning trees that are alike. Which nodes a pass leaves does not depend on instances, so what is
left of trees that are alike is alike; and then the same groups are kept whole by the next pass.
-/

set_option autoImplicit false
set_option relaxedAutoImplicit false

namespace VectorImage

mutual
theorem Node.bounds_plain (r : Resources) (t : Affine) (n : Node) :
    Node.bounds r t n.plain = Node.bounds r t n := by
  cases n with
  | group inst transform alpha exportId children =>
    simp only [Node.plain, Node.bounds, sharedValue_plain, Node.boundsAll_plain r _ _ children]
  | clip inst path rule transform => simp only [Node.plain, Node.bounds]
  | masked inst mask content =>
    simp only [Node.plain, Node.bounds, Node.boundsAll_plain r _ _ content]
  | shape inst geometry paint transform =>
    simp only [Node.plain, Node.bounds, sharedValue_plain, NodeGeometry.value_plain, Shared.plain]
  | image inst leaf => simp only [Node.plain, Node.bounds]
  | text inst leaf => simp only [Node.plain, Node.bounds]
  | use inst targetId target transform =>
    simp only [Node.plain, Node.bounds, sharedValue_plain, Node.bounds_plain r _ target]

theorem Node.boundsAll_plain (r : Resources) (t : Affine) (covered : Option Rect)
    (nodes : List Node) :
    Node.boundsAll r t covered (Node.plainAll nodes) = Node.boundsAll r t covered nodes := by
  cases nodes with
  | nil => rw [Node.plainAll]
  | cons n rest =>
    simp only [Node.plainAll, Node.boundsAll, Node.bounds_plain r t n,
      Node.boundsAll_plain r t _ rest]
end

@[simp]
theorem Node.isLeaf_plain (n : Node) : n.plain.isLeaf = n.isLeaf := by
  cases n <;> rw [plain] <;> rfl

@[simp]
theorem Node.meets_plain (r : Resources) (area : Rect) (t : Affine) (n : Node) :
    n.plain.meets r area t = n.meets r area t := by
  rw [meets, meets, bounds_plain]

namespace Enclosure

def plain : Enclosure → Enclosure
  | .group _ transform alpha exportId =>
    .group default (transform.map Shared.plain) alpha exportId
  | .masked _ mask => .masked default (Node.plainAll mask)

variable {e e' : Enclosure} {nodes nodes' : List Node}

theorem plain_node (e : Enclosure) (nodes : List Node) :
    (e.node nodes).plain = e.plain.node (Node.plainAll nodes) := by
  cases e <;> simp only [node, plain, Node.plain]

@[simp]
theorem exportId?_plain (e : Enclosure) : e.plain.exportId? = e.exportId? := by cases e <;> rfl

@[simp]
theorem inside_plain (e : Enclosure) (t : Affine) : e.plain.inside t = e.inside t := by
  cases e <;> simp only [plain, inside, sharedValue_plain]

@[simp]
theorem plain_withInst (e : Enclosure) (i : Instance) : (e.withInst i).plain = e.plain := by
  cases e <;> rfl

/-- What is like an enclosure around nodes is one around nodes that are alike. -/
theorem of_plain_node {n : Node} (h : n.plain = (e.node nodes).plain) :
    ∃ (e' : Enclosure) (nodes' : List Node), n = e'.node nodes' ∧ e'.plain = e.plain ∧
      Node.plainAll nodes' = Node.plainAll nodes := by
  rw [plain_node] at h
  cases n with
  | group inst transform alpha exportId children =>
    have hnode : (Enclosure.group inst transform alpha exportId).plain.node
        (Node.plainAll children) = e.plain.node (Node.plainAll nodes) := plain_node _ _ ▸ h
    obtain ⟨he, hnodes⟩ := node_inj.mp hnode
    exact ⟨_, _, rfl, he, hnodes⟩
  | masked inst mask content =>
    have hnode : (Enclosure.masked inst mask).plain.node
        (Node.plainAll content) = e.plain.node (Node.plainAll nodes) := plain_node _ _ ▸ h
    obtain ⟨he, hnodes⟩ := node_inj.mp hnode
    exact ⟨_, _, rfl, he, hnodes⟩
  | _ =>
    rw [Node.plain] at h
    cases e <;> cases h

end Enclosure

namespace Pruning

variable {c c' : Pruning} {t : Affine} {nodes nodes' kept kept' : List Node}

private theorem exists_cons_of_plainAll {n : Node} {rest : List Node}
    (h : Node.plainAll (n :: rest) = Node.plainAll nodes') :
    ∃ n' rest', nodes' = n' :: rest' ∧ n'.plain = n.plain ∧
      Node.plainAll rest' = Node.plainAll rest := by
  cases nodes' with
  | nil => cases h
  | cons n' rest' =>
    obtain ⟨hn, hrest⟩ := List.cons.inj h
    exact ⟨n', rest', rfl, hn.symm, hrest.symm⟩

/-- What may be left of enclosures that are alike. -/
private theorem Outcome.alike (hagrees : c.Agrees c') {e e' : Enclosure} (he : e'.plain = e.plain)
    (hnodes : Node.plainAll nodes' = Node.plainAll nodes)
    (hinner : ∀ inner inner' : List Node, c.Sifts (e.inside t) nodes inner →
      c'.Sifts (e.inside t) nodes' inner' → Node.plainAll inner = Node.plainAll inner')
    (h : c.Outcome t e nodes kept) (h' : c'.Outcome t e' nodes' kept') :
    Node.plainAll kept = Node.plainAll kept' := by
  have hpinned : c'.isPinned e'.exportId? = c.isPinned e.exportId? := by
    rw [hagrees.isPinned, ← e'.exportId?_plain, he, e.exportId?_plain]
  have hinside : e'.inside t = e.inside t := by
    rw [← e'.inside_plain, he, e.inside_plain]
  have hdraws {inner inner' : List Node} (hsifts : c.Sifts (e.inside t) nodes inner)
      (hsifts' : c'.Sifts (e'.inside t) nodes' inner') :
      inner.any Node.isDrawable = inner'.any Node.isDrawable := by
    rw [← Node.any_isDrawable_plainAll, hinner _ _ hsifts (hinside ▸ hsifts'), Node.any_isDrawable_plainAll]
  cases h with
  | whole hkeep =>
    cases h' with
    | whole =>
      simp only [Node.plainAll, Enclosure.plain_node, he, hnodes]
    | remade hfree =>
      rw [hpinned, hkeep] at hfree
      cases hfree
    | barren hfree =>
      rw [hpinned, hkeep] at hfree
      cases hfree
  | remade hfree hsifts hsome hremade =>
    obtain ⟨i, rfl⟩ := hremade.withInst
    cases h' with
    | whole hkeep =>
      rw [hpinned, hfree] at hkeep
      cases hkeep
    | remade _ hsifts' _ hremade' =>
      obtain ⟨j, rfl⟩ := hremade'.withInst
      simp only [Node.plainAll, Enclosure.plain_node, Enclosure.plain_withInst, he,
        hinner _ _ hsifts (hinside ▸ hsifts')]
    | barren _ hsifts' hnone =>
      rw [← hdraws hsifts hsifts', hsome] at hnone
      cases hnone
  | barren hfree hsifts hnone =>
    cases h' with
    | whole hkeep =>
      rw [hpinned, hfree] at hkeep
      cases hkeep
    | remade _ hsifts' hsome =>
      rw [← hdraws hsifts hsifts', hnone] at hsome
      cases hsome
    | barren => rfl

/-- What a pass leaves of lists that are alike is alike. -/
theorem Sifts.alike (hagrees : c.Agrees c') {t : Affine} {nodes nodes' kept kept' : List Node}
    (h : c.Sifts t nodes kept) (h' : c'.Sifts t nodes' kept')
    (hnodes : Node.plainAll nodes = Node.plainAll nodes') :
    Node.plainAll kept = Node.plainAll kept' := by
  match nodes with
  | [] =>
    cases nodes' with
    | nil => rw [h.of_nil, h'.of_nil]
    | cons n' rest' => cases hnodes
  | n :: rest =>
    obtain ⟨n', rest', rfl, hn, hrest⟩ := exists_cons_of_plainAll hnodes
    rcases n.clip_or_leaf_or_node with hclip | hleaf | ⟨e, nodes, rfl⟩
    · obtain ⟨tail, htail, rfl⟩ := h.of_clip hclip
      rw [← Node.isDrawable_plain, ← hn, Node.isDrawable_plain] at hclip
      obtain ⟨tail', htail', rfl⟩ := h'.of_clip hclip
      rw [Node.plainAll, Node.plainAll, hn, htail.alike hagrees htail' hrest.symm]
    · obtain ⟨tail, htail, rfl⟩ := h.of_leaf hleaf
      rw [← Node.isLeaf_plain, ← hn, Node.isLeaf_plain] at hleaf
      obtain ⟨tail', htail', rfl⟩ := h'.of_leaf hleaf
      have htails := htail.alike hagrees htail' hrest.symm
      rw [hagrees.resources, hagrees.area, ← n'.meets_plain, hn, n.meets_plain]
      split
      · rw [Node.plainAll, Node.plainAll, hn, htails]
      · exact htails
    · obtain ⟨e', nodes', rfl, he, hinner⟩ := Enclosure.of_plain_node hn
      obtain ⟨left, tail, hout, htail, rfl⟩ := h.of_node
      obtain ⟨left', tail', hout', htail', rfl⟩ := h'.of_node
      have hless := e.sizeOf_lt_node nodes
      rw [Node.plainAll_append, Node.plainAll_append, htail.alike hagrees htail' hrest.symm]
      congr 1
      exact hout.alike hagrees he hinner
        (fun _ _ hsifts hsifts' => hsifts.alike hagrees hsifts' hinner.symm) hout'
termination_by sizeOf nodes

variable {source source' pruned pruned' : GraphRoot}

private theorem alike_of_pass (hagrees : c.Agrees c')
    (hsource : Node.plainAll source.children = Node.plainAll source'.children)
    (h : c.pass source = .ok pruned) (h' : c'.pass source' = .ok pruned') :
    Node.plainAll pruned.children = Node.plainAll pruned'.children := by
  obtain ⟨inner, hinner⟩ := sifts_pass h
  obtain ⟨inner', hinner'⟩ := sifts_pass h'
  have halike := hinner.sifts.alike hagrees hinner'.sifts hsource
  rw [hinner.children, hinner'.children, ← Node.any_isDrawable_plainAll inner, halike,
    Node.any_isDrawable_plainAll inner']
  split
  · exact halike
  · rfl

private theorem targets_of_alike
    (h : Node.plainAll source.children = Node.plainAll source'.children) :
    source.targets = source'.targets := by
  have htargets (root : GraphRoot) :
      root.targets = (Node.visited root.toNode.plain).filterMap Node.targetId? := by
    rw [GraphRoot.targets, Node.visited_plain, List.filterMap_map]
    simp only [Function.comp_def, Node.targetId?_plain]
  rw [htargets, htargets, GraphRoot.toNode, GraphRoot.toNode, Node.plain, Node.plain, h]

/-- Prunings of trees that are alike to one area leave trees that are alike. -/
theorem alike_of_run (hagrees : c.Agrees c')
    (hsource : Node.plainAll source.children = Node.plainAll source'.children)
    (h : c.run source = .ok pruned) (h' : c'.run source' = .ok pruned') :
    Node.plainAll pruned.children = Node.plainAll pruned'.children := by
  induction hn : c.remaining source using Nat.strongRecOn generalizing c c' with
  | ind n ih =>
    rw [run] at h h'
    obtain ⟨first, hpass, h⟩ := bind_eq_ok.mp h
    obtain ⟨first', hpass', h'⟩ := bind_eq_ok.mp h'
    have hequal := alike_of_pass hagrees hsource hpass hpass'
    obtain ⟨hnil, hpin⟩ := hagrees.pin hpass hpass'
      fun id => by rw [targets_of_alike hequal]
    split at h
    · next hdone =>
      rw [dif_pos (hnil.mpr hdone)] at h'
      cases h
      cases h'
      exact hequal
    · next hmore =>
      rw [dif_neg (mt hnil.mp hmore)] at h'
      exact ih _ (hn ▸ c.remaining_pin_lt source first hmore) hpin h h' rfl

end Pruning

namespace GraphImage

variable {g g' v v' : GraphImage}

/-- Images that are alike are alike when they are pruned to one viewport. -/
theorem Alike.withViewport (h : g.Alike g') {copies copies' : Nat} {viewport : Rect}
    {tolerance : Binary64} (hv : g.withViewport copies viewport true tolerance = .ok v)
    (hv' : g'.withViewport copies' viewport true tolerance = .ok v') : v.Alike v' := by
  obtain ⟨root, hroot, hv⟩ := bind_eq_ok.mp hv
  obtain ⟨root', hroot', hv'⟩ := bind_eq_ok.mp hv'
  cases hv
  cases hv'
  have hagrees : (g.pruning copies viewport tolerance).Agrees
      (g'.pruning copies' viewport tolerance) := ⟨h.resources.symm, rfl, fun _ => Iff.rfl⟩
  exact ⟨by rw [h.document], h.tables, h.gradients,
    Pruning.alike_of_run hagrees h.children hroot hroot'⟩

end GraphImage

end VectorImage
