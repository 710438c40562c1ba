import VectorImage.Proofs.Drawing.Step
import VectorImage.Proofs.Graph.Regularity
import VectorImage.Proofs.View.Survival

/-!
Pruning a regular image always gives a tree: every node has an extent, so every pass goes through.
The last pass keeps whole those groups that the uses left by it refer to, and no others.
-/

set_option autoImplicit false
set_option relaxedAutoImplicit false

namespace VectorImage

variable {g : GraphImage}

/-! Every node of a regular image has an extent, under any transform. -/

mutual
theorem Node.bounds_progress (hg : g.Regular) (n : Node)
    (hn : Node.finished n ⊆ Node.finishedAll g.root.children) (t : Affine) :
    ∃ extent, Node.bounds g.resources t n = .ok extent := by
  cases n with
  | group inst transform alpha exportId children =>
    rw [Node.finished] at hn
    rw [Node.bounds]
    exact Node.boundsAll_progress hg children (fun m hm => hn (List.mem_append_left _ hm)) _ none
  | masked inst mask content =>
    rw [Node.finished, List.append_assoc] at hn
    rw [Node.bounds]
    exact Node.boundsAll_progress hg content
      (fun m hm => hn (List.mem_append_right _ (List.mem_append_left _ hm))) t none
  | clip inst path rule transform =>
    rw [Node.bounds]
    exact ⟨none, rfl⟩
  | shape inst geometry paint transform =>
    rw [Node.bounds]
    exact ⟨_, rfl⟩
  | image inst leaf =>
    rw [Node.bounds]
    exact ⟨_, rfl⟩
  | text inst leaf =>
    obtain ⟨-, htext, -⟩ := hg.within _ (hn (Node.mem_finished_self _))
    have hsize : leaf.text.toNat < g.resources.strings.size := htext
    obtain ⟨text, -, hvalue⟩ := Resources.lookup_progress .string hsize
    rw [Node.bounds]
    exact ⟨_, bind_eq_ok.mpr ⟨text, hvalue, rfl⟩⟩
  | use inst targetId target transform =>
    obtain ⟨before, after, hsplit⟩ := List.append_of_mem (hn (Node.mem_finished_self _))
    obtain ⟨hmem, -⟩ := hg.grounded before inst targetId target transform after hsplit
    rw [Node.bounds]
    refine Node.bounds_progress hg target (Node.finishedAll_subset ?_) _
    rw [hsplit]
    exact List.mem_append_left _ hmem

theorem Node.boundsAll_progress (hg : g.Regular) (nodes : List Node)
    (hnodes : Node.finishedAll nodes ⊆ Node.finishedAll g.root.children) (t : Affine)
    (covered : Option Rect) :
    ∃ extent, Node.boundsAll g.resources t covered nodes = .ok extent := by
  cases nodes with
  | nil =>
    rw [Node.boundsAll]
    exact ⟨covered, rfl⟩
  | cons n rest =>
    rw [Node.finishedAll_cons] at hnodes
    have hrest (covered : Option Rect) := Node.boundsAll_progress hg rest
      (fun m hm => hnodes (List.mem_append_right _ hm)) t covered
    obtain ⟨extent, hextent⟩ :=
      Node.bounds_progress hg n (fun m hm => hnodes (List.mem_append_left _ hm)) t
    rw [Node.boundsAll, hextent]
    cases extent with
    | none => exact hrest covered
    | some b => exact hrest _
end

/-- Every leaf and use among the nodes, the masks aside or not, has an extent. -/
def Node.Measured (r : Resources) (nodes : List Node) : Prop :=
  ∀ n ∈ nodes, n.isLeaf = true → ∀ t, ∃ extent, Node.bounds r t n = .ok extent

theorem GraphImage.Regular.measured (hg : g.Regular) :
    Node.Measured g.resources (Node.finishedAll g.root.children) := by
  intro n hn _ t
  exact Node.bounds_progress hg n (Node.finishedAll_subset hn) t

/-! So every node can be pruned. -/

variable {c d : Pruning}

private theorem Pruning.test_progress {n : Node} {t : Affine}
    (hn : ∃ extent, Node.bounds c.resources t n = .ok extent) : ∃ p, c.test t n = .ok p := by
  obtain ⟨extent, hextent⟩ := hn
  rw [Pruning.test, hextent]
  cases extent with
  | none => exact ⟨.drop, rfl⟩
  | some b => exact ⟨_, rfl⟩

mutual
theorem Node.prune_progress (n : Node) (hn : Node.Measured c.resources (Node.finished n))
    (t : Affine) (place : List Nat) : ∃ p, Node.prune c t place n = .ok p := by
  cases n with
  | group inst transform alpha exportId children =>
    rw [Node.finished] at hn
    rw [Node.prune]
    split
    · exact ⟨.keep, rfl⟩
    · obtain ⟨l, hl⟩ := Node.pruneAll_progress children
        (fun m hm => hn m (List.mem_append_left _ hm)) (t.after (sharedValue transform)) place 0
      exact ⟨_, bind_eq_ok.mpr ⟨l, hl, rfl⟩⟩
  | masked inst mask content =>
    rw [Node.finished, List.append_assoc] at hn
    obtain ⟨l, hl⟩ := Node.pruneAll_progress content
      (fun m hm => hn m (List.mem_append_right _ (List.mem_append_left _ hm))) t place 0
    rw [Node.prune]
    exact ⟨_, bind_eq_ok.mpr ⟨l, hl, rfl⟩⟩
  | clip inst path rule transform =>
    rw [Node.prune]
    exact ⟨.keep, rfl⟩
  | shape inst geometry paint transform =>
    rw [Node.prune]
    exact Pruning.test_progress (hn _ (Node.mem_finished_self _) rfl t)
  | image inst leaf =>
    rw [Node.prune]
    exact Pruning.test_progress (hn _ (Node.mem_finished_self _) rfl t)
  | text inst leaf =>
    rw [Node.prune]
    exact Pruning.test_progress (hn _ (Node.mem_finished_self _) rfl t)
  | use inst targetId target transform =>
    rw [Node.prune]
    exact Pruning.test_progress (hn _ (Node.mem_finished_self _) rfl t)

theorem Node.pruneAll_progress (nodes : List Node)
    (hnodes : Node.Measured c.resources (Node.finishedAll nodes)) (t : Affine) (place : List Nat)
    (i : Nat) : ∃ l, Node.pruneAll c t place i nodes = .ok l := by
  cases nodes with
  | nil =>
    rw [Node.pruneAll]
    exact ⟨_, rfl⟩
  | cons n rest =>
    rw [Node.finishedAll_cons] at hnodes
    obtain ⟨p, hp⟩ := Node.prune_progress n (fun m hm => hnodes m (List.mem_append_left _ hm)) t
      (place ++ [i])
    obtain ⟨l, hl⟩ := Node.pruneAll_progress rest
      (fun m hm => hnodes m (List.mem_append_right _ hm)) t place (i + 1)
    rw [Node.pruneAll]
    exact ⟨_, bind_eq_ok.mpr ⟨p, hp, bind_eq_ok.mpr ⟨l, hl, rfl⟩⟩⟩
end

namespace Pruning

theorem pass_progress {source : GraphRoot}
    (hsource : Node.Measured c.resources (Node.finishedAll source.children)) :
    ∃ pruned, c.pass source = .ok pruned := by
  obtain ⟨l, hl⟩ := Node.pruneAll_progress source.children hsource .identity [] 0
  exact ⟨_, bind_eq_ok.mpr ⟨l, hl, rfl⟩⟩

/-- A pass that leaves nothing more to be kept whole is the last. -/
theorem run_of_pass {source pruned : GraphRoot} (hpass : c.pass source = .ok pruned)
    (hdone : c.unpinned source pruned = []) : c.run source = .ok pruned := by
  rw [run]
  refine bind_eq_ok.mpr ⟨pruned, hpass, ?_⟩
  rw [dif_pos hdone]
  rfl

/-- After any other pass the targets that are left are kept whole as well. -/
theorem run_of_pin {source pruned result : GraphRoot} (hpass : c.pass source = .ok pruned)
    (hmore : c.unpinned source pruned ≠ [])
    (hrun : (c.pin (c.unpinned source pruned)).run source = .ok result) :
    c.run source = .ok result := by
  rw [run]
  refine bind_eq_ok.mpr ⟨pruned, hpass, ?_⟩
  rw [dif_neg hmore]
  exact hrun

/-- Where every leaf and use has an extent, the passes come to an end. -/
theorem run_progress {source : GraphRoot}
    (hsource : Node.Measured c.resources (Node.finishedAll source.children)) :
    ∃ pruned, c.run source = .ok pruned := by
  -- each further pass keeps whole the target of one more use at least
  induction hn : c.remaining source using Nat.strongRecOn generalizing c with
  | ind n ih =>
    obtain ⟨pruned, hpass⟩ := pass_progress hsource
    by_cases hdone : c.unpinned source pruned = []
    · exact ⟨pruned, run_of_pass hpass hdone⟩
    · have hless := c.remaining_pin_lt source pruned hdone
      obtain ⟨result, hrun⟩ := ih _ (hn ▸ hless) (c := c.pin _) hsource rfl
      exact ⟨result, run_of_pin hpass hdone hrun⟩

end Pruning

theorem GraphRoot.mem_targets {root : GraphRoot} {id : StringId} :
    id ∈ root.targets ↔ ∃ n ∈ Node.finishedAll root.children, n.targetId? = some id := by
  rw [targets, List.mem_filterMap]
  constructor
  · rintro ⟨n, hn, hid⟩
    rw [toNode, Node.visited, List.mem_cons] at hn
    rcases hn with rfl | hn
    · cases hid
    · exact ⟨n, Node.mem_finishedAll.mpr hn, hid⟩
  · rintro ⟨n, hn, hid⟩
    refine ⟨n, ?_, hid⟩
    rw [toNode, Node.visited]
    exact List.mem_cons_of_mem _ (Node.mem_finishedAll.mp hn)

/-- A use is a leaf. -/
theorem Node.isLeaf_of_targetId? {n : Node} {id : StringId}
    (h : n.targetId? = some id) : n.isLeaf = true := by
  cases n with
  | use => rfl
  | _ => cases h

/-- The leaves and uses that a pass leaves were there before. -/
theorem Pruning.leaf_of_pass {source pruned : GraphRoot} (h : c.pass source = .ok pruned) {n : Node}
    (hn : n ∈ Node.finishedAll pruned.children) (hleaf : n.isLeaf = true) :
    n ∈ Node.finishedAll source.children := by
  obtain ⟨inner, hinner⟩ := sifts_pass h
  rw [hinner.children] at hn
  split at hn
  · exact hinner.sifts.thins.mem_leaf hleaf hn
  · simp at hn

theorem Pruning.targets_of_pass {source pruned : GraphRoot} (h : c.pass source = .ok pruned) :
    pruned.targets ⊆ source.targets := by
  intro id hid
  obtain ⟨n, hn, htarget⟩ := GraphRoot.mem_targets.mp hid
  exact GraphRoot.mem_targets.mpr
    ⟨n, leaf_of_pass h hn (Node.isLeaf_of_targetId? htarget), htarget⟩

/-- What a pass would have kept whole besides: the targets of uses that it leaves. -/
theorem Pruning.mem_unpinned {source pruned : GraphRoot} (h : c.pass source = .ok pruned)
    {id : StringId} : id ∈ c.unpinned source pruned ↔ id ∈ pruned.targets ∧ id ∉ c.pinned := by
  have hsource : id ∈ pruned.targets → id ∈ source.targets := fun hid => targets_of_pass h hid
  simp only [unpinned, List.mem_filter, Bool.and_eq_true, List.contains_eq_mem,
    decide_eq_true_eq, Bool.not_eq_true', decide_eq_false_iff_not]
  exact ⟨fun hid => hid.2, fun hid => ⟨hsource hid.1, hid⟩⟩

/-- After the last pass every use that is left refers to a group kept whole. -/
theorem Pruning.pinned_of_unpinned {source pruned : GraphRoot} (hpass : c.pass source = .ok pruned)
    (h : c.unpinned source pruned = []) : pruned.targets ⊆ c.pinned := by
  intro id hid
  by_contra hfree
  exact List.not_mem_nil (h ▸ (mem_unpinned hpass).mpr ⟨hid, hfree⟩)

namespace Pruning

variable {source pruned result : GraphRoot}

/-- What a pass leaves is what a pass leaves that keeps more groups whole or looks further, thinned
out. -/
theorem thins_mono (hbroadens : c.Broadens d) (h : c.pass source = .ok pruned)
    (h' : d.pass source = .ok result) : Thins result.children pruned.children := by
  obtain ⟨inner, hinner⟩ := sifts_pass h
  obtain ⟨inner', hinner'⟩ := sifts_pass h'
  have hthins := hinner.sifts.mono hbroadens hinner'.sifts
  rw [hinner.children, hinner'.children]
  cases hdraws : inner.any Node.isDrawable with
  | false => exact .none _
  | true =>
    rw [if_pos (hthins.any_isDrawable hdraws)]
    exact hthins

/-- Uses that a pass leaves are left by every pass that keeps more groups whole or looks further. -/
theorem targets_mono (hbroadens : c.Broadens d) (h : c.pass source = .ok pruned)
    (h' : d.pass source = .ok result) : pruned.targets ⊆ result.targets := by
  intro id hid
  obtain ⟨n, hn, htarget⟩ := GraphRoot.mem_targets.mp hid
  have hleaf := Node.isLeaf_of_targetId? htarget
  exact GraphRoot.mem_targets.mpr ⟨n, (thins_mono hbroadens h h').mem_leaf hleaf hn, htarget⟩

/-- The pass whose result is the result of a pruning: it keeps whole, besides the groups given,
exactly those that uses left by it refer to. -/
structure LastPass (c : Pruning) (source result : GraphRoot) (d : Pruning) : Prop where
  widens : c.Widens d
  stamp : d.stamp = c.stamp
  pass : d.pass source = .ok result
  pinned : ∀ id ∈ d.pinned, id ∈ c.pinned ∨ id ∈ result.targets
  targets : ∀ id ∈ result.targets, id ∈ d.pinned

/-- Where no group is given to be kept whole, the last pass keeps those whole that are used. -/
theorem LastPass.mem_pinned (h : c.LastPass source result d) (hpinned : c.pinned = [])
    {id : StringId} : id ∈ d.pinned ↔ id ∈ result.targets := by
  refine ⟨fun hid => ?_, h.targets id⟩
  rcases h.pinned id hid with hgiven | hused
  · rw [hpinned] at hgiven
    cases hgiven
  · exact hused

/-- A pass that leaves nothing more to be kept whole is the last. -/
theorem LastPass.of_pass (hpass : c.pass source = .ok result)
    (hdone : c.unpinned source result = []) : c.LastPass source result c :=
  ⟨⟨rfl, rfl, List.Subset.refl _⟩, rfl, hpass, fun _ hid => Or.inl hid,
    fun _ hid => pinned_of_unpinned hpass hdone hid⟩

/-- The last pass after the targets that a pass leaves are kept whole as well. -/
theorem LastPass.of_pin (hpass : c.pass source = .ok pruned)
    (hlast : (c.pin (c.unpinned source pruned)).LastPass source result d) :
    c.LastPass source result d := by
  have hwidens : c.Widens d := by
    refine ⟨hlast.widens.resources, hlast.widens.area, ?_⟩
    intro id hid
    exact hlast.widens.pinned (List.mem_append_right _ hid)
  refine ⟨hwidens, hlast.stamp, hlast.pass, ?_, hlast.targets⟩
  intro id hid
  rcases hlast.pinned id hid with hid | hid
  · rcases List.mem_append.mp hid with hid | hid
    · -- what this pass found to be kept whole is still referred to at the end
      have hlive := (mem_unpinned hpass).mp hid
      exact Or.inr (targets_mono hwidens.broadens hpass hlast.pass hlive.1)
    · exact Or.inl hid
  · exact Or.inr hid

/-- The passes of a pruning, one for each set of groups kept whole, up to the one that leaves
nothing more to be kept whole. -/
inductive Passes (source result : GraphRoot) : Pruning → List Pruning → Prop
  | last {c : Pruning} (hpass : c.pass source = .ok result)
      (hdone : c.unpinned source result = []) : Passes source result c [c]
  | more {c : Pruning} {pruned : GraphRoot} {passes : List Pruning}
      (hpass : c.pass source = .ok pruned) (hmore : c.unpinned source pruned ≠ [])
      (hrest : Passes source result (c.pin (c.unpinned source pruned)) passes) :
    Passes source result c (c :: passes)

/-- A pruning is its passes. -/
theorem run_eq_ok_iff : c.run source = .ok result ↔ ∃ passes, Passes source result c passes := by
  constructor
  · intro h
    induction hn : c.remaining source using Nat.strongRecOn generalizing c with
    | ind n ih =>
      rw [run] at h
      obtain ⟨pruned, hpass, h⟩ := bind_eq_ok.mp h
      split at h
      · next hdone =>
        cases h
        exact ⟨[c], .last hpass hdone⟩
      · next hmore =>
        have hless := c.remaining_pin_lt source pruned hmore
        obtain ⟨passes, hrest⟩ := ih _ (hn ▸ hless) h rfl
        exact ⟨c :: passes, .more hpass hmore hrest⟩
  · rintro ⟨passes, h⟩
    induction h with
    | last hpass hdone => exact run_of_pass hpass hdone
    | more hpass hmore _ ih => exact run_of_pin hpass hmore ih

theorem Passes.lastPass {passes : List Pruning} (h : Passes source result c passes) :
    ∃ d, passes.getLast? = some d ∧ c.LastPass source result d := by
  induction h with
  | last hpass hdone => exact ⟨_, rfl, .of_pass hpass hdone⟩
  | more hpass hmore hrest ih =>
    obtain ⟨d, hlast, hd⟩ := ih
    refine ⟨d, ?_, .of_pin hpass hd⟩
    rw [List.getLast?_cons, hlast]
    rfl

theorem exists_lastPass (h : c.run source = .ok result) : ∃ d, c.LastPass source result d := by
  obtain ⟨passes, hpasses⟩ := run_eq_ok_iff.mp h
  obtain ⟨d, -, hd⟩ := hpasses.lastPass
  exact ⟨d, hd⟩

end Pruning

end VectorImage
