import VectorImage.Proofs.View.Origin

/-!
What pruning does not change it does not copy. A node of the pruned tree is a node of the source,
instance and all, or the copy of a group or masked node in which something was dropped; a copy has
the attributes and the mask of what it stands for. The root, too, is the source's own when nothing
was dropped, unless it is empty: an empty root draws nothing and is renewed.
-/

set_option autoImplicit false
set_option relaxedAutoImplicit false

namespace VectorImage

namespace Node

/-- How many nodes there are, those inside others and in masks included. -/
def count (nodes : List Node) : Nat := (finishedAll nodes).length

@[simp]
theorem count_nil : count [] = 0 := by simp [count]

@[simp]
theorem count_append (first rest : List Node) : count (first ++ rest) = count first + count rest := by
  simp [count]

theorem count_cons (n : Node) (rest : List Node) : count (n :: rest) = count [n] + count rest :=
  count_append [n] rest

@[simp]
theorem count_enclosed (e : Enclosure) (nodes : List Node) :
    count [e.node nodes] = count e.mask + count nodes + 1 := by
  simp [count, Nat.add_assoc]

theorem count_pos (n : Node) : 0 < count [n] := by
  simp only [count, finishedAll_cons, finishedAll_nil, List.append_nil]
  exact List.length_pos_of_mem (mem_finished_self n)

theorem count_eq_zero {nodes : List Node} : count nodes = 0 ↔ nodes = [] := by
  cases nodes with
  | nil => simp
  | cons n rest =>
    have hpos := count_pos n
    rw [count_cons]
    simp only [reduceCtorEq, iff_false]
    omega

end Node

namespace Pruning

/-- The nodes that are left, each beside the node that it was: itself, or, if something in it was
dropped, a copy with the same attributes and the same mask. -/
inductive Shares (copies : Nat) : List Node → List Node → Prop
  | nil : Shares copies [] []
  | same (n : Node) {rest kept : List Node} (hrest : Shares copies rest kept) :
    Shares copies (n :: rest) (n :: kept)
  | dropped (n : Node) {rest kept : List Node} (hrest : Shares copies rest kept) :
    Shares copies (n :: rest) kept
  | copied (e : Enclosure) (place : List Nat) {nodes inner rest kept : List Node}
      (hinner : Shares copies nodes inner) (hfewer : Node.count inner < Node.count nodes)
      (hrest : Shares copies rest kept) :
    Shares copies (e.node nodes :: rest) ((e.withInst ⟨copies, place⟩).node inner :: kept)

variable {copies : Nat} {nodes kept : List Node}

theorem Shares.none (nodes : List Node) : Shares copies nodes [] := by
  induction nodes with
  | nil => exact .nil
  | cons n rest ih => exact .dropped n ih

theorem Shares.append {nodes' kept' : List Node} (h : Shares copies nodes kept)
    (h' : Shares copies nodes' kept') : Shares copies (nodes ++ nodes') (kept ++ kept') := by
  induction h with
  | nil => exact h'
  | same n _ ih => exact .same n ih
  | dropped n _ ih => exact .dropped n ih
  | copied e place hinner hfewer _ _ ih => exact .copied e place hinner hfewer ih

/-- Nothing is added. -/
theorem Shares.count_le (h : Shares copies nodes kept) : Node.count kept ≤ Node.count nodes := by
  induction h with
  | nil => exact Nat.le_refl _
  | @same n rest kept _ ih =>
    rw [Node.count_cons n kept, Node.count_cons n rest]
    omega
  | @dropped n rest kept _ ih =>
    rw [Node.count_cons n rest]
    omega
  | @copied e place nodes inner rest kept _ _ _ ihInner ih =>
    rw [Node.count_cons _ kept, Node.count_cons _ rest, Node.count_enclosed, Node.count_enclosed,
      Enclosure.mask_withInst]
    omega

/-- Every node that is left is a node of the source or one of the copies. -/
theorem Shares.own (h : Shares copies nodes kept) :
    ∀ n ∈ Node.finishedAll kept, n.inst.stamp = copies ∨ n ∈ Node.finishedAll nodes := by
  induction h with
  | nil => exact fun n hn => Or.inr hn
  | same m _ ih =>
    intro n hn
    rw [Node.finishedAll_cons, List.mem_append] at hn ⊢
    rcases hn with hn | hn
    · exact Or.inr (Or.inl hn)
    · exact (ih n hn).imp_right Or.inr
  | dropped m _ ih =>
    intro n hn
    rw [Node.finishedAll_cons, List.mem_append]
    exact (ih n hn).imp_right Or.inr
  | copied e place _ _ _ ihInner ih =>
    intro n hn
    simp only [Node.finishedAll_cons, Enclosure.finished_node, Enclosure.mask_withInst,
      List.mem_append, List.mem_singleton] at hn ⊢
    rcases hn with ((hn | hn) | rfl) | hn
    · exact Or.inr (Or.inl (Or.inl (Or.inl hn)))
    · exact (ihInner n hn).imp_right fun hn => Or.inl (Or.inl (Or.inr hn))
    · exact Or.inl (by cases e <;> rfl)
    · exact (ih n hn).imp_right Or.inr

/-! A pass over a node or a list of nodes. -/

variable {c : Pruning} {n : Node} {p : Pruned} {l : PrunedList}

/-- What becomes of a node: anything but keeping it drops something. -/
structure SharesTo (c : Pruning) (n : Node) (p : Pruned) : Prop where
  shares : Shares c.stamp [n] (p.left n)
  fewer : p ≠ .keep → Node.count (p.left n) < Node.count [n]

/-- What becomes of a list: it has changed only if something was dropped. -/
structure SharesAll (c : Pruning) (nodes : List Node) (l : PrunedList) : Prop where
  shares : Shares c.stamp nodes l.nodes
  fewer : l.changed = true → Node.count l.nodes < Node.count nodes

theorem SharesTo.keep (n : Node) : c.SharesTo n .keep := ⟨.same n .nil, fun h => absurd rfl h⟩

theorem SharesTo.drop (n : Node) : c.SharesTo n .drop := by
  refine ⟨.dropped n .nil, fun _ => ?_⟩
  rw [Pruned.left, Node.count_nil]
  exact Node.count_pos n

theorem SharesAll.cons {rest : List Node} (hn : c.SharesTo n p) (hrest : c.SharesAll rest l) :
    c.SharesAll (n :: rest) (.cons n l p) := by
  refine ⟨?_, fun hchanged => ?_⟩
  · rw [PrunedList.nodes_cons]
    exact hn.shares.append hrest.shares
  · have hle := hrest.shares.count_le
    rw [PrunedList.nodes_cons, Node.count_append, Node.count_cons]
    cases p with
    | keep =>
      have hfewer := hrest.fewer hchanged
      rw [Pruned.left]
      omega
    | drop =>
      have hfewer := hn.fewer nofun
      omega
    | replace m =>
      have hfewer := hn.fewer nofun
      omega

/-- An enclosure is copied only if the list in it has changed. -/
theorem SharesAll.close (h : c.SharesAll nodes l) (e : Enclosure) (place : List Nat) :
    c.SharesTo (e.node nodes)
      (l.close fun inner => (e.withInst ⟨c.stamp, place⟩).node inner) := by
  unfold PrunedList.close
  split
  · exact .drop _
  · split
    · exact .keep _
    · next hchanged =>
      have hfewer : Node.count l.nodes < Node.count nodes := h.fewer (by simpa using hchanged)
      refine ⟨.copied e place h.shares hfewer .nil, fun _ => ?_⟩
      rw [Pruned.left, Node.count_enclosed, Node.count_enclosed, Enclosure.mask_withInst]
      omega

theorem test_shares {t : Affine} (h : c.test t n = .ok p) : c.SharesTo n p := by
  obtain ⟨extent, -, h⟩ := bind_eq_ok.mp h
  cases extent with
  | none =>
    cases h
    exact .drop n
  | some b =>
    dsimp only at h
    split at h
    · cases h
      exact .keep n
    · cases h
      exact .drop n

end Pruning

mutual
theorem Node.shares_prune {c : Pruning} {t : Affine} {place : List Nat} {n : Node} {p : Pruned}
    (h : Node.prune c t place n = .ok p) : c.SharesTo n p := by
  cases n with
  | group inst transform alpha exportId children =>
    rw [Node.prune] at h
    split at h
    · cases h
      exact .keep _
    · obtain ⟨l, hl, h⟩ := bind_eq_ok.mp h
      cases h
      exact (Node.shares_pruneAll hl).close (.group inst transform alpha exportId) place
  | masked inst mask content =>
    rw [Node.prune] at h
    obtain ⟨l, hl, h⟩ := bind_eq_ok.mp h
    cases h
    exact (Node.shares_pruneAll hl).close (.masked inst mask) place
  | clip inst path rule transform =>
    rw [Node.prune] at h
    cases h
    exact .keep _
  | shape inst geometry paint transform =>
    rw [Node.prune] at h
    exact Pruning.test_shares h
  | image inst leaf =>
    rw [Node.prune] at h
    exact Pruning.test_shares h
  | text inst leaf =>
    rw [Node.prune] at h
    exact Pruning.test_shares h
  | use inst targetId target transform =>
    rw [Node.prune] at h
    exact Pruning.test_shares h

theorem Node.shares_pruneAll {c : Pruning} {t : Affine} {place : List Nat} {i : Nat}
    {nodes : List Node} {l : PrunedList} (h : Node.pruneAll c t place i nodes = .ok l) :
    c.SharesAll nodes l := by
  cases nodes with
  | nil =>
    rw [Node.pruneAll] at h
    cases h
    exact ⟨.nil, nofun⟩
  | cons n rest =>
    rw [Node.pruneAll] at h
    obtain ⟨p, hp, h⟩ := bind_eq_ok.mp h
    obtain ⟨l', hl', h⟩ := bind_eq_ok.mp h
    cases h
    exact (Node.shares_pruneAll hl').cons (Node.shares_prune hp)
end

namespace Pruning

/-- What a pruned tree shares with its source, the new instances being stamped `copies`. -/
structure SharesRoot (copies : Nat) (source result : GraphRoot) : Prop where
  children : Shares copies source.children result.children
  own : ∀ n ∈ Node.finishedAll result.children,
    n.inst.stamp = copies ∨ n ∈ Node.finishedAll source.children
  /-- Where no node was dropped the root is the source's own. -/
  unchanged : Node.count result.children = Node.count source.children → source.children ≠ [] →
    result = source
  /-- Where a node was dropped the root is new. An empty root is new, too. -/
  renewed : Node.count result.children < Node.count source.children ∨ source.children = [] →
    result.inst = ⟨copies, []⟩

variable {c : Pruning} {source result : GraphRoot}

theorem shares_pass (h : c.pass source = .ok result) : SharesRoot c.stamp source result := by
  obtain ⟨l, hl, h⟩ := bind_eq_ok.mp h
  have hshares := Node.shares_pruneAll hl
  have hsifts := Node.sifts_pruneAll hl
  have hnone : Shares c.stamp source.children [] := .none _
  cases hdraws : l.drawable with
  | false =>
    -- nothing draws any more, and the root is left without children
    obtain rfl : result = ⟨⟨c.stamp, []⟩, []⟩ := by
      rw [hdraws] at h
      exact (pure_eq_ok.mp h).symm
    refine ⟨hnone, hnone.own, fun hcount hne => ?_, fun _ => rfl⟩
    exact absurd (Node.count_eq_zero.mp hcount.symm) hne
  | true =>
    cases hchanged : l.changed with
    | true =>
      have hfewer := hshares.fewer hchanged
      obtain rfl : result = ⟨⟨c.stamp, []⟩, l.nodes⟩ := by
        rw [hdraws, hchanged] at h
        exact (pure_eq_ok.mp h).symm
      refine ⟨hshares.shares, hshares.shares.own, fun hcount => ?_, fun _ => rfl⟩
      exact absurd hcount (Nat.ne_of_lt hfewer)
    | false =>
      obtain rfl : result = source := by
        rw [hdraws, hchanged] at h
        exact (pure_eq_ok.mp h).symm
      have hkept := hshares.shares
      rw [hsifts.unchanged hchanged] at hkept
      refine ⟨hkept, hkept.own, fun _ _ => rfl, ?_⟩
      rintro (hfewer | hempty)
      · exact absurd hfewer (Nat.lt_irrefl _)
      · have hdrawable := hsifts.drawable
        rw [hdraws, hsifts.unchanged hchanged, hempty] at hdrawable
        cases hdrawable

end Pruning

namespace GraphImage

open Pruning

variable {g : GraphImage}

/-- Pruning shares what it does not change. Every node of the pruned tree is the source's own
instance unless something below it was dropped; then it is a copy with the same attributes and the
same mask. The root is the source's own if no node at all was dropped and there is one; otherwise it
is new. -/
theorem prunes_in_place (hg : g.Reachable) (copies : Nat) (viewport : Rect) (tolerance : Binary64) :
    ∃ root, g.prune copies viewport tolerance = .ok root ∧ SharesRoot copies g.root root := by
  obtain ⟨root, hroot⟩ := hg.prune_progress copies viewport tolerance
  obtain ⟨d, hlast⟩ := exists_lastPass hroot
  have hstamp : d.stamp = copies := hlast.stamp
  have hshares := shares_pass hlast.pass
  rw [hstamp] at hshares
  exact ⟨root, hroot, hshares⟩

end GraphImage

/-! A masked group of which half is seen. -/

namespace HalfSeen

private def picture (left right : Binary64) : Call :=
  .image ⟨0, ⟨left, .zero, right, .ofNat 10⟩, none⟩

private def calls : List Call :=
  [.init ⟨[⟨1, 1, [0, 0, 0, 255]⟩], [], []⟩, .beginGroup ⟨none, 128, none⟩,
    picture .zero (.ofNat 10), .endGroup, .beginMask, picture .zero (.ofNat 10), .maskContent,
    .beginGroup ⟨none, 255, none⟩, picture .zero (.ofNat 10), picture (.ofNat 90) (.ofNat 100),
    .endGroup, .endMask]

private def window : Rect := ⟨.zero, .zero, .ofNat 20, .ofNat 20⟩

private theorem ofCalls_calls : ∃ g, GraphImage.ofCalls 0 false .empty calls = .ok g := by
  have haccepted : (GraphImage.ofCalls 0 false .empty calls).toBool = true := by decide +kernel
  exact toBool_eq_true.mp haccepted

end HalfSeen

namespace GraphImage

theorem prunes_in_place_halfSeen : ∃ g root,
    ofCalls 0 false .empty HalfSeen.calls = .ok g ∧ g.prune 1 HalfSeen.window .zero = .ok root ∧
      Pruning.SharesRoot 1 g.root root := by
  obtain ⟨g, hg⟩ := HalfSeen.ofCalls_calls
  have hreachable : g.Reachable := .replayed .empty (List.not_mem_nil : 0 ∉ []) hg
  obtain ⟨root, hroot, hshares⟩ := prunes_in_place hreachable 1 HalfSeen.window .zero
  exact ⟨g, root, hg, hroot, hshares⟩

/-- Of an image without a tree nothing can be dropped, and yet its root is renewed. -/
theorem exists_renewed_root : ∃ g root,
    ofCalls 0 false .empty [.init ⟨[], [], []⟩] = .ok g ∧
      g.prune 1 ⟨.zero, .zero, .ofNat 10, .ofNat 10⟩ .zero = .ok root ∧
      Node.count root.children = Node.count g.root.children ∧ root ≠ g.root := by
  have hg : ∃ g, ofCalls 0 false .empty [.init ⟨[], [], []⟩] = .ok g ∧
      g.root = ⟨⟨0, []⟩, []⟩ := ⟨_, rfl, rfl⟩
  obtain ⟨g, hg, hroot⟩ := hg
  have hpass : (g.pruning 1 ⟨.zero, .zero, .ofNat 10, .ofNat 10⟩ .zero).pass g.root =
      .ok ⟨⟨1, []⟩, []⟩ := by
    rw [hroot, Pruning.pass, Node.pruneAll]
    rfl
  refine ⟨g, ⟨⟨1, []⟩, []⟩, hg, Pruning.run_of_pass hpass ?_, ?_, ?_⟩
  · rw [hroot]
    rfl
  · rw [hroot]
  · rw [hroot]
    simp

end GraphImage

end VectorImage
