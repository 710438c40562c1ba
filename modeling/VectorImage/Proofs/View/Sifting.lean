import VectorImage.Proofs.Graph.Order
import VectorImage.Proofs.Outcome
import VectorImage.View.Prune

/-!
What a pass of pruning does to a list of nodes, and nothing else. Leaves and uses go by whether
their extent meets the area, clips stay, a group that is kept whole stays as it is, and every
other group or masked node is left around what is left in it, unless nothing in it draws. The more
groups are kept whole, the more is left.
-/

set_option autoImplicit false
set_option relaxedAutoImplicit false

namespace VectorImage

namespace Node

/-- Leaves and uses, whose extents decide what is left. -/
def isLeaf : Node → Bool
  | .shape _ _ _ _ => true
  | .image _ _ => true
  | .text _ _ => true
  | .use _ _ _ _ => true
  | _ => false

/-- Under the transform, the node has an extent and it meets the area. -/
def meets (r : Resources) (area : Rect) (t : Affine) (n : Node) : Bool :=
  match n.bounds r t with
  | .ok (some b) => b.overlaps area
  | _ => false

end Node

/-- A group or a masked node apart from the nodes that are drawn in it. -/
inductive Enclosure
  | group (inst : Instance) (transform : Option (Shared Affine)) (alpha : UInt8)
      (exportId : Option StringId)
  | masked (inst : Instance) (mask : List Node)

namespace Enclosure

/-- The node that encloses these nodes. -/
def node : Enclosure → List Node → Node
  | .group inst transform alpha exportId, nodes => .group inst transform alpha exportId nodes
  | .masked inst mask, nodes => .masked inst mask nodes

/-- The same enclosure as another instance. -/
def withInst (inst : Instance) : Enclosure → Enclosure
  | .group _ transform alpha exportId => .group inst transform alpha exportId
  | .masked _ mask => .masked inst mask

def inst : Enclosure → Instance
  | .group inst _ _ _ => inst
  | .masked inst _ => inst

def exportId? : Enclosure → Option StringId
  | .group _ _ _ exportId => exportId
  | .masked _ _ => none

/-- The transform in the enclosure, given the one around it. -/
def inside (t : Affine) : Enclosure → Affine
  | .group _ transform _ _ => t.after (sharedValue transform)
  | .masked _ _ => t

/-- The nodes of the mask half. -/
def mask : Enclosure → List Node
  | .group _ _ _ _ => []
  | .masked _ mask => mask

variable (e : Enclosure) (i j : Instance) (t : Affine) (nodes : List Node)

@[simp]
theorem withInst_inst : e.withInst e.inst = e := by cases e <;> rfl

@[simp]
theorem withInst_withInst : (e.withInst i).withInst j = e.withInst j := by cases e <;> rfl

@[simp]
theorem exportId?_withInst : (e.withInst i).exportId? = e.exportId? := by cases e <;> rfl

@[simp]
theorem inside_withInst : (e.withInst i).inside t = e.inside t := by cases e <;> rfl

@[simp]
theorem mask_withInst : (e.withInst i).mask = e.mask := by cases e <;> rfl

@[simp]
theorem isLeaf_node : (e.node nodes).isLeaf = false := by cases e <;> rfl

@[simp]
theorem isDrawable_node : (e.node nodes).isDrawable = true := by cases e <;> rfl

@[simp]
theorem targetId?_node : (e.node nodes).targetId? = none := by cases e <;> rfl

@[simp]
theorem finished_node : Node.finished (e.node nodes) =
    Node.finishedAll e.mask ++ Node.finishedAll nodes ++ [e.node nodes] := by
  cases e <;> simp [node, mask, Node.finished]

theorem node_inj {e e' : Enclosure} {nodes nodes' : List Node} :
    e.node nodes = e'.node nodes' ↔ e = e' ∧ nodes = nodes' := by
  cases e <;> cases e' <;> simp [node, and_assoc]

end Enclosure

/-- What is left of a node. -/
def Pruned.left (n : Node) : Pruned → List Node
  | .keep => [n]
  | .drop => []
  | .replace m => [m]

theorem PrunedList.nodes_cons (n : Node) (l : PrunedList) (p : Pruned) :
    (PrunedList.cons n l p).nodes = p.left n ++ l.nodes := by
  cases p <;> rfl

namespace Pruning

/-! The nodes that a list is left with are thinned out: some are gone, and what encloses others may
be a new instance. -/

inductive Thins : List Node → List Node → Prop
  | nil : Thins [] []
  | keep (n : Node) {rest kept : List Node} (hrest : Thins rest kept) : Thins (n :: rest) (n :: kept)
  | drop (n : Node) {rest kept : List Node} (hrest : Thins rest kept) : Thins (n :: rest) kept
  | enclosed (e : Enclosure) (inst : Instance) {nodes inner rest kept : List Node}
      (hinner : Thins nodes inner) (hrest : Thins rest kept) :
    Thins (e.node nodes :: rest) ((e.withInst inst).node inner :: kept)

section Thins

variable {nodes kept : List Node}

/-- Nothing is left of a list that is thinned out altogether. -/
theorem Thins.none (nodes : List Node) : Thins nodes [] := by
  induction nodes with
  | nil => exact .nil
  | cons n rest ih => exact .drop n ih

/-- If anything that is left draws, something did before. -/
theorem Thins.any_isDrawable (h : Thins nodes kept) (hkept : kept.any Node.isDrawable = true) :
    nodes.any Node.isDrawable = true := by
  induction h with
  | nil => exact hkept
  | keep n hrest ih =>
    rw [List.any_cons, Bool.or_eq_true] at hkept ⊢
    exact hkept.imp_right ih
  | drop n hrest ih => simp [ih hkept]
  | enclosed e inst hinner hrest ihInner ih => simp

/-- Leaves and uses that are left are what they were. -/
theorem Thins.mem_leaf (h : Thins nodes kept) {n : Node} (hleaf : n.isLeaf = true)
    (hn : n ∈ Node.finishedAll kept) : n ∈ Node.finishedAll nodes := by
  induction h with
  | nil => exact hn
  | keep m hrest ih =>
    rw [Node.finishedAll_cons, List.mem_append] at hn ⊢
    exact hn.imp_right ih
  | drop m hrest ih =>
    rw [Node.finishedAll_cons]
    exact List.mem_append_right _ (ih hn)
  | enclosed e inst hinner hrest ihInner ih =>
    have hne {e' : Enclosure} {nodes' : List Node} : n ≠ e'.node nodes' := by
      rintro rfl
      simp at hleaf
    simp only [Node.finishedAll_cons, Enclosure.finished_node, Enclosure.mask_withInst,
      List.mem_append, List.mem_singleton, hne, or_false] at hn ⊢
    exact Or.imp (Or.imp_right ihInner) ih hn

end Thins

/-- What encloses nodes that are left: itself if nothing in it has changed, and otherwise a copy
of the pass. -/
inductive Remade (c : Pruning) (e : Enclosure) (nodes : List Node) : Enclosure → List Node → Prop
  | same : Remade c e nodes e nodes
  | copy (place : List Nat) (inner : List Node) :
    Remade c e nodes (e.withInst ⟨c.stamp, place⟩) inner

theorem Remade.withInst {c : Pruning} {e e' : Enclosure} {nodes inner : List Node}
    (h : c.Remade e nodes e' inner) : ∃ inst, e' = e.withInst inst := by
  cases h with
  | same => exact ⟨e.inst, e.withInst_inst.symm⟩
  | copy place inner => exact ⟨_, rfl⟩

/-- What a pass leaves of a list of nodes under a transform. -/
inductive Sifts (c : Pruning) : Affine → List Node → List Node → Prop
  | nil (t : Affine) : Sifts c t [] []
  | clip {t : Affine} {n : Node} {rest kept : List Node} (hclip : n.isDrawable = false)
      (hrest : Sifts c t rest kept) : Sifts c t (n :: rest) (n :: kept)
  | seen {t : Affine} {n : Node} {rest kept : List Node} (hleaf : n.isLeaf = true)
      (hmeets : n.meets c.resources c.area t = true) (hrest : Sifts c t rest kept) :
    Sifts c t (n :: rest) (n :: kept)
  | unseen {t : Affine} {n : Node} {rest kept : List Node} (hleaf : n.isLeaf = true)
      (hmeets : n.meets c.resources c.area t = false) (hrest : Sifts c t rest kept) :
    Sifts c t (n :: rest) kept
  | whole {t : Affine} {e : Enclosure} {nodes rest kept : List Node}
      (hpinned : c.isPinned e.exportId? = true) (hrest : Sifts c t rest kept) :
    Sifts c t (e.node nodes :: rest) (e.node nodes :: kept)
  | remade {t : Affine} {e e' : Enclosure} {nodes inner rest kept : List Node}
      (hfree : c.isPinned e.exportId? = false) (hinner : Sifts c (e.inside t) nodes inner)
      (hdraws : inner.any Node.isDrawable = true) (hremade : c.Remade e nodes e' inner)
      (hrest : Sifts c t rest kept) :
    Sifts c t (e.node nodes :: rest) (e'.node inner :: kept)
  | barren {t : Affine} {e : Enclosure} {nodes inner rest kept : List Node}
      (hfree : c.isPinned e.exportId? = false) (hinner : Sifts c (e.inside t) nodes inner)
      (hdraws : inner.any Node.isDrawable = false) (hrest : Sifts c t rest kept) :
    Sifts c t (e.node nodes :: rest) kept

variable {c d : Pruning} {t : Affine} {nodes rest kept : List Node} {n : Node} {e : Enclosure}

theorem Sifts.append {nodes' kept' : List Node} (h : c.Sifts t nodes kept)
    (h' : c.Sifts t nodes' kept') : c.Sifts t (nodes ++ nodes') (kept ++ kept') := by
  induction h with
  | nil t => exact h'
  | clip hclip _ ih => exact .clip hclip (ih h')
  | seen hleaf hmeets _ ih => exact .seen hleaf hmeets (ih h')
  | unseen hleaf hmeets _ ih => exact .unseen hleaf hmeets (ih h')
  | whole hpinned _ ih => exact .whole hpinned (ih h')
  | remade hfree hinner hdraws hremade _ _ ih => exact .remade hfree hinner hdraws hremade (ih h')
  | barren hfree hinner hdraws _ _ ih => exact .barren hfree hinner hdraws (ih h')

theorem Sifts.thins (h : c.Sifts t nodes kept) : Thins nodes kept := by
  induction h with
  | nil t => exact .nil
  | clip _ _ ih => exact .keep _ ih
  | seen _ _ _ ih => exact .keep _ ih
  | unseen _ _ _ ih => exact .drop _ ih
  | whole _ _ ih => exact .keep _ ih
  | remade _ _ _ hremade _ ihInner ih =>
    obtain ⟨inst, rfl⟩ := hremade.withInst
    exact .enclosed _ inst ihInner ih
  | barren _ _ _ _ _ ih => exact .drop _ ih

/-! What is left of a list, read off its first node. -/

theorem Sifts.of_nil (h : c.Sifts t [] kept) : kept = [] := by
  cases h
  rfl

theorem Sifts.of_clip (h : c.Sifts t (n :: rest) kept) (hclip : n.isDrawable = false) :
    ∃ tail, c.Sifts t rest tail ∧ kept = n :: tail := by
  cases h with
  | clip _ hrest => exact ⟨_, hrest, rfl⟩
  | seen hleaf => cases n <;> simp [Node.isLeaf, Node.isDrawable] at hleaf hclip
  | unseen hleaf => cases n <;> simp [Node.isLeaf, Node.isDrawable] at hleaf hclip
  | whole => simp at hclip
  | remade => simp at hclip
  | barren => simp at hclip

theorem Sifts.of_leaf (h : c.Sifts t (n :: rest) kept) (hleaf : n.isLeaf = true) :
    ∃ tail, c.Sifts t rest tail ∧
      kept = if n.meets c.resources c.area t then n :: tail else tail := by
  cases h with
  | clip hclip => cases n <;> simp [Node.isLeaf, Node.isDrawable] at hleaf hclip
  | seen _ hmeets hrest => exact ⟨_, hrest, by simp [hmeets]⟩
  | unseen _ hmeets hrest => exact ⟨_, hrest, by simp [hmeets]⟩
  | whole => simp at hleaf
  | remade => simp at hleaf
  | barren => simp at hleaf

/-- What may be left of an enclosure, before what is left of the rest. -/
inductive Outcome (c : Pruning) (t : Affine) (e : Enclosure) (nodes : List Node) :
    List Node → Prop
  | whole (hpinned : c.isPinned e.exportId? = true) : Outcome c t e nodes [e.node nodes]
  | remade {e' : Enclosure} {inner : List Node} (hfree : c.isPinned e.exportId? = false)
      (hinner : c.Sifts (e.inside t) nodes inner) (hdraws : inner.any Node.isDrawable = true)
      (hremade : c.Remade e nodes e' inner) : Outcome c t e nodes [e'.node inner]
  | barren {inner : List Node} (hfree : c.isPinned e.exportId? = false)
      (hinner : c.Sifts (e.inside t) nodes inner) (hdraws : inner.any Node.isDrawable = false) :
    Outcome c t e nodes []

theorem Sifts.of_node (h : c.Sifts t (e.node nodes :: rest) kept) :
    ∃ left tail, c.Outcome t e nodes left ∧ c.Sifts t rest tail ∧ kept = left ++ tail := by
  generalize hlist : e.node nodes :: rest = list at h
  cases h with
  | nil => cases hlist
  | clip hclip =>
    obtain ⟨rfl, rfl⟩ := List.cons.inj hlist
    simp at hclip
  | seen hleaf =>
    obtain ⟨rfl, rfl⟩ := List.cons.inj hlist
    simp at hleaf
  | unseen hleaf =>
    obtain ⟨rfl, rfl⟩ := List.cons.inj hlist
    simp at hleaf
  | whole hpinned hrest =>
    obtain ⟨hnode, rfl⟩ := List.cons.inj hlist
    obtain ⟨rfl, rfl⟩ := Enclosure.node_inj.mp hnode
    exact ⟨_, _, .whole hpinned, hrest, rfl⟩
  | remade hfree hinner hdraws hremade hrest =>
    obtain ⟨hnode, rfl⟩ := List.cons.inj hlist
    obtain ⟨rfl, rfl⟩ := Enclosure.node_inj.mp hnode
    exact ⟨_, _, .remade hfree hinner hdraws hremade, hrest, rfl⟩
  | barren hfree hinner hdraws hrest =>
    obtain ⟨hnode, rfl⟩ := List.cons.inj hlist
    obtain ⟨rfl, rfl⟩ := Enclosure.node_inj.mp hnode
    exact ⟨_, _, .barren hfree hinner hdraws, hrest, rfl⟩

/-- A pruning that keeps whole what another keeps whole, to the same area. -/
structure Widens (c d : Pruning) : Prop where
  resources : d.resources = c.resources
  area : d.area = c.area
  pinned : c.pinned ⊆ d.pinned

/-- A pruning that keeps whole what another keeps whole, to an area that meets whatever the area of
the other meets. -/
structure Broadens (c d : Pruning) : Prop where
  resources : d.resources = c.resources
  area : ∀ r : Rect, r.overlaps c.area = true → r.overlaps d.area = true
  pinned : c.pinned ⊆ d.pinned

theorem Widens.broadens (h : c.Widens d) : c.Broadens d :=
  ⟨h.resources, fun _ hoverlaps => h.area ▸ hoverlaps, h.pinned⟩

theorem Broadens.isPinned (h : c.Broadens d) {exportId : Option StringId}
    (hpinned : c.isPinned exportId = true) : d.isPinned exportId = true := by
  cases exportId with
  | none => cases hpinned
  | some id =>
    simp only [Pruning.isPinned, List.contains_eq_mem, decide_eq_true_eq] at hpinned ⊢
    exact h.pinned hpinned

theorem Broadens.meets (h : c.Broadens d) (hmeets : n.meets c.resources c.area t = true) :
    n.meets d.resources d.area t = true := by
  rw [Node.meets] at hmeets ⊢
  rw [h.resources]
  split at hmeets
  · exact h.area _ hmeets
  · cases hmeets

/-- Keeping more groups whole, and looking further, leaves more. -/
theorem Sifts.mono {kept' : List Node} (hbroadens : c.Broadens d) (h : c.Sifts t nodes kept)
    (h' : d.Sifts t nodes kept') : Thins kept' kept := by
  induction h generalizing kept' with
  | nil t =>
    rw [h'.of_nil]
    exact .nil
  | clip hclip _ ih =>
    obtain ⟨tail, htail, rfl⟩ := h'.of_clip hclip
    exact .keep _ (ih htail)
  | seen hleaf hmeets _ ih =>
    obtain ⟨tail, htail, rfl⟩ := h'.of_leaf hleaf
    rw [if_pos (hbroadens.meets hmeets)]
    exact .keep _ (ih htail)
  | unseen hleaf _ _ ih =>
    obtain ⟨tail, htail, rfl⟩ := h'.of_leaf hleaf
    split
    · exact .drop _ (ih htail)
    · exact ih htail
  | whole hpinned _ ih =>
    obtain ⟨left, tail, hleft, htail, rfl⟩ := h'.of_node
    cases hleft with
    | whole => exact .keep _ (ih htail)
    | remade hfree => simp [hbroadens.isPinned hpinned] at hfree
    | barren hfree => simp [hbroadens.isPinned hpinned] at hfree
  | @remade _ e _ _ _ _ _ _ hinner hdraws hremade _ ihInner ih =>
    obtain ⟨left, tail, hleft, htail, rfl⟩ := h'.of_node
    obtain ⟨i, rfl⟩ := hremade.withInst
    cases hleft with
    | whole => exact .enclosed _ i hinner.thins (ih htail)
    | remade _ hinner' _ hremade' =>
      obtain ⟨j, rfl⟩ := hremade'.withInst
      have hthins := Thins.enclosed (e.withInst j) i (ihInner hinner') (ih htail)
      rwa [Enclosure.withInst_withInst] at hthins
    | barren _ hinner' hnone =>
      rw [(ihInner hinner').any_isDrawable hdraws] at hnone
      cases hnone
  | barren _ _ _ _ _ ih =>
    obtain ⟨left, tail, hleft, htail, rfl⟩ := h'.of_node
    cases hleft with
    | whole => exact .drop _ (ih htail)
    | remade => exact .drop _ (ih htail)
    | barren => exact ih htail

/-! A pass over a node or a list of nodes leaves what the rules say. -/

/-- What pruning makes of a single node. -/
structure SiftsTo (c : Pruning) (t : Affine) (n : Node) (p : Pruned) : Prop where
  sifts : c.Sifts t [n] (p.left n)
  replaced : ∀ m, p = .replace m → m.isDrawable = true

/-- What pruning makes of a list. -/
structure SiftsAll (c : Pruning) (t : Affine) (nodes : List Node) (l : PrunedList) : Prop where
  sifts : c.Sifts t nodes l.nodes
  drawable : l.drawable = l.nodes.any Node.isDrawable
  unchanged : l.changed = false → l.nodes = nodes

private theorem test_sifts {p : Pruned} (hleaf : n.isLeaf = true) (h : c.test t n = .ok p) :
    c.SiftsTo t n p := by
  have hkeep (hmeets : n.meets c.resources c.area t = true) : c.SiftsTo t n .keep :=
    ⟨.seen hleaf hmeets (.nil t), nofun⟩
  have hdrop (hmeets : n.meets c.resources c.area t = false) : c.SiftsTo t n .drop :=
    ⟨.unseen hleaf hmeets (.nil t), nofun⟩
  obtain ⟨extent, hextent, h⟩ := bind_eq_ok.mp h
  cases extent with
  | none =>
    cases h
    exact hdrop (by rw [Node.meets, hextent])
  | some b =>
    have hmeets : n.meets c.resources c.area t = b.overlaps c.area := by
      rw [Node.meets, hextent]
    dsimp only at h
    split at h
    · next hoverlap =>
      cases h
      exact hkeep (hmeets.trans hoverlap)
    · next hoverlap =>
      cases h
      exact hdrop (hmeets.trans (Bool.eq_false_iff.mpr hoverlap))

private theorem SiftsAll.cons {p : Pruned} {l : PrunedList} (hn : c.SiftsTo t n p)
    (hrest : c.SiftsAll t rest l) : c.SiftsAll t (n :: rest) (.cons n l p) := by
  refine ⟨?_, ?_, ?_⟩
  · rw [PrunedList.nodes_cons]
    exact hn.sifts.append hrest.sifts
  · have hdrawable := hrest.drawable
    cases p with
    | keep => simp [PrunedList.cons, hdrawable]
    | drop => exact hdrawable
    | replace m => simp [PrunedList.cons, hn.replaced m rfl]
  · intro hunchanged
    cases p with
    | keep => exact congrArg (n :: ·) (hrest.unchanged hunchanged)
    | drop => cases hunchanged
    | replace m => cases hunchanged

/-- An enclosure is kept, dropped or copied around what is left in it. -/
private theorem SiftsAll.close {l : PrunedList} (h : c.SiftsAll (e.inside t) nodes l)
    (hfree : c.isPinned e.exportId? = false) (place : List Nat) :
    c.SiftsTo t (e.node nodes) (l.close fun inner => (e.withInst ⟨c.stamp, place⟩).node inner) := by
  have hdrawable := h.drawable
  unfold PrunedList.close
  cases hdraws : l.drawable with
  | false => exact ⟨.barren hfree h.sifts (hdrawable ▸ hdraws) (.nil t), nofun⟩
  | true =>
    rw [hdraws] at hdrawable
    cases hchanged : l.changed with
    | false =>
      have hsifts := h.sifts
      rw [h.unchanged hchanged] at hsifts hdrawable
      exact ⟨.remade hfree hsifts hdrawable.symm .same (.nil t), nofun⟩
    | true =>
      refine ⟨.remade hfree h.sifts hdrawable.symm (.copy place l.nodes) (.nil t), ?_⟩
      intro m hm
      obtain rfl := Pruned.replace.inj hm
      simp

end Pruning

mutual
theorem Node.sifts_prune {c : Pruning} {t : Affine} {place : List Nat} {n : Node} {p : Pruned}
    (h : Node.prune c t place n = .ok p) : c.SiftsTo t n p := by
  cases n with
  | group inst transform alpha exportId children =>
    rw [Node.prune] at h
    split at h
    · next hpinned =>
      cases h
      exact ⟨.whole (e := .group inst transform alpha exportId) hpinned (.nil t), nofun⟩
    · next hpinned =>
      obtain ⟨l, hl, h⟩ := bind_eq_ok.mp h
      cases h
      exact (Node.sifts_pruneAll hl).close (e := .group inst transform alpha exportId)
        (Bool.eq_false_iff.mpr hpinned) place
  | masked inst mask content =>
    rw [Node.prune] at h
    obtain ⟨l, hl, h⟩ := bind_eq_ok.mp h
    cases h
    exact (Node.sifts_pruneAll hl).close (e := .masked inst mask) rfl place
  | clip inst path rule transform =>
    rw [Node.prune] at h
    cases h
    exact ⟨.clip rfl (.nil t), nofun⟩
  | shape inst geometry paint transform =>
    rw [Node.prune] at h
    exact Pruning.test_sifts rfl h
  | image inst leaf =>
    rw [Node.prune] at h
    exact Pruning.test_sifts rfl h
  | text inst leaf =>
    rw [Node.prune] at h
    exact Pruning.test_sifts rfl h
  | use inst targetId target transform =>
    rw [Node.prune] at h
    exact Pruning.test_sifts rfl h

theorem Node.sifts_pruneAll {c : Pruning} {t : Affine} {place : List Nat} {i : Nat}
    {nodes : List Node} {l : PrunedList} (h : Node.pruneAll c t place i nodes = .ok l) :
    c.SiftsAll t nodes l := by
  cases nodes with
  | nil =>
    rw [Node.pruneAll] at h
    cases h
    exact ⟨.nil t, rfl, fun _ => rfl⟩
  | cons n rest =>
    rw [Node.pruneAll] at h
    obtain ⟨p, hp, h⟩ := bind_eq_ok.mp h
    obtain ⟨l', hl', h⟩ := bind_eq_ok.mp h
    cases h
    exact Pruning.SiftsAll.cons (Node.sifts_prune hp) (Node.sifts_pruneAll hl')
end

namespace Pruning

variable {c d : Pruning} {source pruned result : GraphRoot}

/-- What a pass leaves of a tree: of a tree in which nothing draws any more, nothing. -/
structure SiftsRoot (c : Pruning) (source pruned : GraphRoot) (inner : List Node) : Prop where
  sifts : c.Sifts .identity source.children inner
  children : pruned.children = if inner.any Node.isDrawable then inner else []
  root : pruned = source ∨ pruned.inst = ⟨c.stamp, []⟩

theorem sifts_pass (h : c.pass source = .ok pruned) : ∃ inner, c.SiftsRoot source pruned inner := by
  obtain ⟨l, hl, h⟩ := bind_eq_ok.mp h
  have hsifts := Node.sifts_pruneAll hl
  have hdrawable := hsifts.drawable
  suffices hroot : pruned.children = (if l.nodes.any Node.isDrawable then l.nodes else []) ∧
      (pruned = source ∨ pruned.inst = ⟨c.stamp, []⟩) from
    ⟨l.nodes, hsifts.sifts, hroot.1, hroot.2⟩
  cases hdraws : l.drawable with
  | false =>
    rw [hdraws] at h hdrawable
    cases h
    exact ⟨by simp [← hdrawable], Or.inr rfl⟩
  | true =>
    rw [hdraws] at h hdrawable
    rw [← hdrawable, if_pos rfl]
    cases hchanged : l.changed with
    | false =>
      rw [hchanged] at h
      cases h
      exact ⟨(hsifts.unchanged hchanged).symm, Or.inl rfl⟩
    | true =>
      rw [hchanged] at h
      cases h
      exact ⟨rfl, Or.inr rfl⟩

end Pruning

end VectorImage
