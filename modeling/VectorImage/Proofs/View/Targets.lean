import VectorImage.Proofs.Graph.Replaying
import VectorImage.Proofs.View.Passes

/-!
The targets of the uses that pruning leaves. A group that is kept whole survives wherever it
stands, but for one place: in the mask of a masked node it goes with the masked node, and this is
decided by the content alone. So a use that is left finds its group exactly when the masked nodes
with the group in their masks are left as well.
-/

set_option autoImplicit false
set_option relaxedAutoImplicit false

namespace VectorImage

/-- The masks of a tree that hold the group of this name are masks of the pruned tree. -/
def GraphRoot.KeepsMasks (source pruned : GraphRoot) (id : StringId) : Prop :=
  ∀ mask, Node.HasMask source.children mask → id ∈ Node.names (Node.finishedAll mask) →
    Node.HasMask pruned.children mask

namespace GraphImage

variable {g : GraphImage} {root : GraphRoot} {c : Pruning}

/-- A regular image can be pruned, and the uses that are left refer to groups kept whole. -/
theorem Regular.withViewport_spec (hg : g.Regular) (stamp : Nat) (viewport : Rect)
    (tolerance : Binary64) :
    ∃ (root : GraphRoot) (c : Pruning), g.prune stamp viewport tolerance = .ok root ∧
      g.withViewport stamp viewport true tolerance =
        .ok { g with document := g.document.showing viewport, root := root } ∧
      c.Prunes g.root.children root.children ∧ ∀ id ∈ root.targets, id ∈ c.pinned := by
  obtain ⟨root, hrun⟩ :=
    Pruning.run_progress (c := g.pruning stamp viewport tolerance) hg.measured
  obtain ⟨c, hlast⟩ := Pruning.exists_lastPass hrun
  exact ⟨root, c, hrun, bind_eq_ok.mpr ⟨root, hrun, rfl⟩, Pruning.prunes_pass hlast.pass,
    hlast.targets⟩

/-- What is pruned stays in range. -/
theorem InRange.pruned (hg : g.InRange) (hprunes : c.Prunes g.root.children root.children)
    (d : Document) : ({ g with document := d, root := root } : GraphImage).InRange := by
  refine ⟨hprunes.names_sublist.nodup hg.distinct, ?_, hg.offsets⟩
  intro m hm
  obtain ⟨n, hn, hleaves⟩ := Pruning.sublist_mem hprunes.leaves hm
  have hwithin := hg.within n hn
  cases hleaves with
  | same => exact hwithin
  | group => exact hwithin
  | masked => trivial

variable {before after : List Node} {inst : Instance} {id : StringId} {target : Node}
  {transform : Option (Shared Affine)}

/-- A group that is left leaves the masks that hold it. -/
private theorem Regular.keepsMasks_of_name (hg : g.Regular)
    (hprunes : c.Prunes g.root.children root.children)
    (hname : id ∈ Node.names (Node.finishedAll root.children)) : g.root.KeepsMasks root id :=
  fun _ hmask hid => hprunes.hasMask hg.distinct hname hmask hid

/-- A use that is left stood after its group, as far as the source goes. -/
private theorem Regular.target_of_use (hg : g.Regular)
    (hprunes : c.Prunes g.root.children root.children)
    (hsplit : Node.finishedAll root.children =
      before ++ .use inst id target transform :: after) :
    ∃ first rest,
      Node.finishedAll g.root.children = first ++ .use inst id target transform :: rest ∧
      List.SublistForall₂ c.Leaves after rest ∧ target ∈ first ∧ target.exportId? = some id := by
  have hleaves := hprunes.leaves
  rw [hsplit] at hleaves
  obtain ⟨first, n, rest, hsource, hn, -, hafter⟩ := Pruning.sublist_split hleaves
  obtain rfl := hn.eq_of_use
  obtain ⟨hmem, hname⟩ := hg.grounded first inst id target transform rest hsource
  exact ⟨first, rest, hsource, hafter, hmem, hname⟩

/-- A group that is left under the name of a use is the group that the use refers to. -/
theorem Regular.targetsNamed (hg : g.Regular) (hprunes : c.Prunes g.root.children root.children)
    (hpinned : ∀ id ∈ root.targets, id ∈ c.pinned) :
    Node.TargetsNamed (Node.finishedAll root.children) := by
  intro inst id target transform huse m hm hname
  obtain ⟨before, after, hsplit⟩ := List.append_of_mem huse
  obtain ⟨first, rest, hsource, -, hfirst, htarget⟩ := hg.target_of_use hprunes hsplit
  have hid : id ∈ c.pinned := hpinned id (GraphRoot.mem_targets.mpr ⟨_, huse, rfl⟩)
  obtain ⟨n, hn, hleaves⟩ := Pruning.sublist_mem hprunes.leaves hm
  obtain rfl := hleaves.eq_of_pinned hname hid
  refine Node.eq_of_name hg.distinct hn ?_ hname htarget
  rw [hsource]
  exact List.mem_append_left _ hfirst

/-- The group of a use that is left ends before it, if the masks that hold it are left. -/
private theorem Regular.target_mem (hg : g.Regular)
    (hprunes : c.Prunes g.root.children root.children)
    (hpinned : ∀ id ∈ root.targets, id ∈ c.pinned)
    (hsplit : Node.finishedAll root.children = before ++ .use inst id target transform :: after)
    (hmasks : g.root.KeepsMasks root id) : target ∈ before := by
  obtain ⟨first, rest, hsource, hafter, hfirst, hname⟩ := hg.target_of_use hprunes hsplit
  have hdistinct := hg.distinct
  have htarget : target ∈ Node.finishedAll g.root.children := by
    rw [hsource]
    exact List.mem_append_left _ hfirst
  have huse : .use inst id target transform ∈ Node.finishedAll root.children := by
    rw [hsplit]
    exact List.mem_append_right _ List.mem_cons_self
  have hid : id ∈ c.pinned := hpinned id (GraphRoot.mem_targets.mpr ⟨_, huse, rfl⟩)
  -- the name is left: outside the masks because it is kept whole, in a mask with the mask
  have hleft : id ∈ Node.names (Node.finishedAll root.children) := by
    rcases hprunes.survives hid (Node.mem_names.mpr ⟨target, htarget, hname⟩) with hleft | hmask
    · exact hleft
    · obtain ⟨mask, hmask, hin⟩ := hmask
      exact (hmasks mask hmask hin).names_subset hin
  obtain ⟨m, hm, hmname⟩ := Node.mem_names.mp hleft
  obtain rfl := hg.targetsNamed hprunes hpinned _ _ _ _ huse m hm hmname
  rw [hsplit, List.mem_append, List.mem_cons] at hm
  rcases hm with hm | he | hm
  · exact hm
  · rw [he] at hname
    cases hname
  · -- after the use there would be a second group of the name in the source
    obtain ⟨n, hn, hleaves⟩ := Pruning.sublist_mem hafter hm
    rw [hsource, Node.names_append, List.nodup_append] at hdistinct
    refine (hdistinct.2.2 id (Node.mem_names.mpr ⟨_, hfirst, hname⟩) id ?_ rfl).elim
    exact Node.mem_names.mpr ⟨n, List.mem_cons_of_mem _ hn, hleaves.exportId? ▸ hname⟩

/-- A recorder takes the calls of a pruned image when the masks of all targets are left. -/
private theorem Regular.records_pruned (hg : g.Regular)
    (hprunes : c.Prunes g.root.children root.children)
    (hpinned : ∀ id ∈ root.targets, id ∈ c.pinned) (d : Document) :
    (∃ stream log, ({ g with document := d, root := root } : GraphImage).calls = .ok stream ∧
        Recorder.record stream = .ok log) ↔ ∀ id ∈ root.targets, g.root.KeepsMasks root id := by
  rw [(hg.toInRange.pruned hprunes d).records_iff, Node.resolved_iff]
  constructor
  · intro h id hid
    obtain ⟨n, hn, hname⟩ := GraphRoot.mem_targets.mp hid
    obtain ⟨before, after, hsplit⟩ := List.append_of_mem hn
    rcases h before n after hsplit id hname with hbefore | hnone
    · refine hg.keepsMasks_of_name hprunes (Node.names_subset ?_ hbefore)
      rw [hsplit]
      exact List.subset_append_left _ _
    · cases hnone
  · intro h before n after hsplit id hname
    cases n with
    | use inst targetId target transform =>
      obtain rfl : targetId = id := Option.some.inj hname
      have hmem : targetId ∈ root.targets := by
        refine GraphRoot.mem_targets.mpr ⟨_, ?_, hname⟩
        rw [hsplit]
        exact List.mem_append_right _ List.mem_cons_self
      obtain ⟨_, _, -, -, -, htarget⟩ := hg.target_of_use hprunes hsplit
      refine Or.inl (Node.mem_names.mpr ⟨target, ?_, htarget⟩)
      exact hg.target_mem hprunes hpinned hsplit (h targetId hmem)
    | _ => cases hname

/-- Pruning an image that a builder has finished gives an image. The group of a use that is left
ends before the use, the same group with all that is in it, exactly when every masked node with
the group in its mask is left; a recorder takes the calls of the pruned image exactly when this is
so for every use that is left. -/
theorem pruned_target_iff {stamps : List Nat} {seed : NodeCache} (hseed : seed.Grown stamps)
    {stamp : Nat} (hstamp : stamp ∉ stamps) {shareNodes : Bool} {calls : List Call}
    {g : GraphImage} (hg : GraphImage.ofCalls stamp shareNodes seed calls = .ok g) (copies : Nat)
    (viewport : Rect) (tolerance : Binary64) :
    ∃ v, g.withViewport copies viewport true tolerance = .ok v ∧
      g.prune copies viewport tolerance = .ok v.root ∧
      (∀ before inst id target transform after,
        Node.finishedAll v.root.children = before ++ .use inst id target transform :: after →
          target.exportId? = some id ∧ (target ∈ before ↔ g.root.KeepsMasks v.root id)) ∧
      ((∃ stream log, v.calls = .ok stream ∧ Recorder.record stream = .ok log) ↔
        ∀ id ∈ v.root.targets, g.root.KeepsMasks v.root id) := by
  have hregular := GraphImage.regular_of_ofCalls hseed hstamp hg
  obtain ⟨root, c, hprune, hview, hprunes, hpinned⟩ :=
    hregular.withViewport_spec copies viewport tolerance
  refine ⟨_, hview, hprune, ?_, hregular.records_pruned hprunes hpinned _⟩
  intro before inst id target transform after hsplit
  obtain ⟨_, _, -, -, -, hname⟩ := hregular.target_of_use hprunes hsplit
  refine ⟨hname, fun hbefore => ?_, hregular.target_mem hprunes hpinned hsplit⟩
  refine hregular.keepsMasks_of_name hprunes (Node.mem_names.mpr ⟨target, ?_, hname⟩)
  rw [hsplit]
  exact List.mem_append_left _ hbefore

/-- So without groups in masks a recorder always takes the pruned image. -/
theorem records_pruned_of_plain_masks {stamps : List Nat} {seed : NodeCache}
    (hseed : seed.Grown stamps) {stamp : Nat} (hstamp : stamp ∉ stamps) {shareNodes : Bool}
    {calls : List Call} {g : GraphImage}
    (hg : GraphImage.ofCalls stamp shareNodes seed calls = .ok g)
    (hplain : ∀ mask, Node.HasMask g.root.children mask → Node.names (Node.finishedAll mask) = [])
    (copies : Nat) (viewport : Rect) (tolerance : Binary64) :
    ∃ v stream log, g.withViewport copies viewport true tolerance = .ok v ∧
      v.calls = .ok stream ∧ Recorder.record stream = .ok log := by
  have hregular := GraphImage.regular_of_ofCalls hseed hstamp hg
  obtain ⟨root, c, -, hview, hprunes, hpinned⟩ :=
    hregular.withViewport_spec copies viewport tolerance
  obtain ⟨stream, log, hstream, hlog⟩ := (hregular.records_pruned hprunes hpinned _).mpr
    fun id _ mask hmask hid => absurd (hplain mask hmask ▸ hid) List.not_mem_nil
  exact ⟨_, stream, log, hview, hstream, hlog⟩

end GraphImage

/-! A use that is left without its group: the group is in the mask of a picture outside. -/

namespace StrayUse

/-- A picture ten units high. -/
def picture (left right : Binary64) : ImageLeaf := ⟨0, ⟨left, .zero, right, .ofNat 10⟩, none⟩

def near : ImageLeaf := picture .zero (.ofNat 10)

def far : ImageLeaf := picture (.ofNat 90) (.ofNat 100)

def tables : Tables := ⟨[⟨1, 1, [0, 0, 0, 255]⟩], ["badge"], []⟩

def calls : List Call :=
  [.init tables, .beginMask, .beginGroup ⟨none, 255, some 0⟩, .image near, .endGroup,
    .maskContent, .image far, .endMask, .use ⟨0, none⟩]

def window : Rect := ⟨.zero, .zero, .ofNat 20, .ofNat 20⟩

variable (s : Sharing)

/-- The group, built from these values on. -/
def badge : Node :=
  .group ⟨s.stamp, [s.next + 1]⟩ none 255 (some 0) [.image ⟨s.stamp, [s.next]⟩ near]

def masked : Node :=
  .masked ⟨s.stamp, [s.next + 3]⟩ [badge s] [.image ⟨s.stamp, [s.next + 2]⟩ far]

def use : Node := .use ⟨s.stamp, [s.next + 4]⟩ 0 (badge s) none

def root : GraphRoot := ⟨⟨s.stamp, []⟩, [masked s, use s]⟩

private theorem ofCalls_calls : ∃ s : Sharing, GraphImage.ofCalls 0 false .empty calls =
    .ok ⟨.empty, root s, tables, #[], s.met⟩ := by
  -- the rest of the replay does not depend on what the tables are shared with
  have hinit : ∃ s : Sharing, GraphImage.ofCalls 0 false .empty calls =
      GraphBuilder.backend.replayFrom #[] ⟨.initialized 1 1 0,
        { GraphBuilder.start 0 false .empty with sharing := s, tables := tables }⟩ calls.tail :=
    ⟨_, rfl⟩
  obtain ⟨s, hinit⟩ := hinit
  exact ⟨s, hinit.trans rfl⟩

variable {c : Pruning}

private theorem test_image (t : Affine) (inst : Instance) (leaf : ImageLeaf) :
    c.test t (.image inst leaf) = .ok
      (if ((t.after leaf.transform).mapRect leaf.dest.abs).overlaps c.area then .keep
        else .drop) := by
  rw [Pruning.test, Node.bounds]
  rfl

private theorem test_use (t : Affine) :
    c.test t (use s) = .ok
      (if (Rect.unionOption none ((((t.after none).after none).after near.transform).mapRect
        near.dest.abs)).overlaps c.area then .keep else .drop) := by
  rw [Pruning.test, use, Node.bounds, badge, Node.bounds, Node.boundsAll, Node.bounds]
  rfl

private theorem overlaps_window :
    ((Affine.identity.after far.transform).mapRect far.dest.abs).overlaps
        (window.abs.inflate .zero .zero) = false ∧
      (Rect.unionOption none ((((Affine.identity.after none).after none).after
        near.transform).mapRect near.dest.abs)).overlaps (window.abs.inflate .zero .zero) =
        true := by
  decide +kernel

/-- Whatever is kept whole, the masked picture goes and the use stays. -/
private theorem pass_root (harea : c.area = window.abs.inflate .zero .zero) :
    c.pass (root s) = .ok ⟨⟨c.stamp, []⟩, [use s]⟩ := by
  have hfar (place : List Nat) :
      Node.prune c .identity place (.image ⟨s.stamp, [s.next + 2]⟩ far) = .ok .drop := by
    rw [Node.prune, test_image, harea, overlaps_window.1]
    rfl
  have hmasked (place : List Nat) : Node.prune c .identity place (masked s) = .ok .drop := by
    rw [masked, Node.prune, Node.pruneAll, Node.pruneAll, hfar]
    rfl
  have huse (place : List Nat) : Node.prune c .identity place (use s) = .ok .keep := by
    rw [use, Node.prune, ← use, test_use, harea, overlaps_window.2]
    rfl
  rw [Pruning.pass, root, Node.pruneAll, Node.pruneAll, Node.pruneAll, hmasked, huse]
  rfl

private theorem run_root (harea : c.area = window.abs.inflate .zero .zero)
    (hpinned : c.pinned = []) : c.run (root s) = .ok ⟨⟨c.stamp, []⟩, [use s]⟩ := by
  have hfirst : c.unpinned (root s) ⟨⟨c.stamp, []⟩, [use s]⟩ = [0] := by
    rw [Pruning.unpinned, hpinned]
    rfl
  refine Pruning.run_of_pin (pass_root s harea) (by rw [hfirst]; exact List.cons_ne_nil _ _) ?_
  refine Pruning.run_of_pass (pass_root s harea) ?_
  rw [hfirst, Pruning.unpinned, Pruning.pin, hpinned]
  rfl

private theorem calls_use (d : Document) (inst : Instance) (cache : NodeCache) :
    GraphImage.calls ⟨d, ⟨inst, [use s]⟩, tables, #[], cache⟩ =
      .ok [.init tables, .document d, .use ⟨0, none⟩] := by
  have hlive : GraphImage.liveGradients ⟨d, ⟨inst, [use s]⟩, tables, #[], cache⟩ = [] := by
    simp [GraphImage.liveGradients, GraphImage.visited, GraphRoot.toNode, Node.visited,
      Node.visitedAll, use, Node.paint?]
  rw [GraphImage.calls, hlive]
  rfl

end StrayUse

namespace GraphImage

/-- The use is all that is left, and no recorder takes it. -/
theorem exists_stray_use : ∃ g v inst target stream,
    GraphImage.ofCalls 0 false .empty StrayUse.calls = .ok g ∧
      g.withViewport 1 StrayUse.window true .zero = .ok v ∧
      Node.finishedAll v.root.children = [.use inst 0 target none] ∧
      v.calls = .ok stream ∧
      Recorder.record stream = .error (.structural (.useUnresolved 0)) := by
  obtain ⟨s, hg⟩ := StrayUse.ofCalls_calls
  have hrun (r : Resources) := StrayUse.run_root s
    (c := ⟨r, StrayUse.window.abs.inflate .zero .zero, [], 1⟩) rfl rfl
  exact ⟨_, _, _, _, _, hg, bind_eq_ok.mpr ⟨_, hrun _, rfl⟩, rfl, StrayUse.calls_use s _ _ _, rfl⟩

theorem pruned_target_iff_strayUse : ∃ g v,
    GraphImage.ofCalls 0 false .empty StrayUse.calls = .ok g ∧
      g.withViewport 1 StrayUse.window true .zero = .ok v ∧
      ((∃ stream log, v.calls = .ok stream ∧ Recorder.record stream = .ok log) ↔
        ∀ id ∈ v.root.targets, g.root.KeepsMasks v.root id) := by
  obtain ⟨s, hg⟩ := StrayUse.ofCalls_calls
  obtain ⟨v, hview, -, -, haccepted⟩ :=
    pruned_target_iff .empty (List.not_mem_nil : 0 ∉ []) hg 1 StrayUse.window .zero
  exact ⟨_, v, hg, hview, haccepted⟩

end GraphImage

end VectorImage
