import Mathlib.Data.Finset.Card
import Mathlib.Data.Finset.Dedup
import VectorImage.Proofs.View.Origin

/-!
The groups that a pruning keeps whole are the least that will do. Keeping more groups whole leaves
more, so the sets tried by the passes grow towards every set that holds the targets of the uses it
leaves; the last of them is such a set itself, and holds nothing but those targets. Each pass but
the last finds the target of one more use, which bounds their number.
-/

set_option autoImplicit false
set_option relaxedAutoImplicit false

namespace VectorImage

namespace Pruning

variable {c d : Pruning} {source pruned result : GraphRoot} {passes : List Pruning}

/-- The same pruning, keeping whole the groups with these names. -/
def keeping (c : Pruning) (ids : List StringId) : Pruning := { c with pinned := ids }

/-- Keeping more groups whole, to the same area. -/
theorem broadens_keeping {ids : List StringId} (h : c.pinned ⊆ ids) :
    c.Broadens (c.keeping ids) := ⟨rfl, fun _ hoverlaps => hoverlaps, h⟩

/-- Targets of uses that are not kept whole yet grow fewer with every further set tried. -/
private theorem card_pin_lt (h : c.pass source = .ok pruned)
    (hmore : c.unpinned source pruned ≠ []) :
    (source.targets.toFinset \ (c.pin (c.unpinned source pruned)).pinned.toFinset).card <
      (source.targets.toFinset \ c.pinned.toFinset).card := by
  obtain ⟨id, hid⟩ := List.exists_mem_of_ne_nil _ hmore
  obtain ⟨htarget, hfree⟩ := (mem_unpinned h).mp hid
  refine Finset.card_lt_card (Finset.ssubset_iff_of_subset ?_ |>.mpr ⟨id, ?_, ?_⟩)
  · refine Finset.sdiff_subset_sdiff (Finset.Subset.refl _) fun id hid => ?_
    rw [List.mem_toFinset] at hid ⊢
    exact List.mem_append_right _ hid
  · rw [Finset.mem_sdiff, List.mem_toFinset, List.mem_toFinset]
    exact ⟨targets_of_pass h htarget, hfree⟩
  · rw [Finset.mem_sdiff, List.mem_toFinset, List.mem_toFinset]
    exact fun hleft => hleft.2 (List.mem_append_left _ hid)

/-- There are at most as many passes as there are targets not kept whole from the start, and one. -/
theorem Passes.length_le (h : Passes source result c passes) :
    passes.length ≤ (source.targets.toFinset \ c.pinned.toFinset).card + 1 := by
  induction h with
  | last => exact Nat.le_add_left 1 _
  | more hpass hmore hrest ih =>
    have hless := card_pin_lt hpass hmore
    rw [List.length_cons]
    omega

/-- No pass keeps a group whole that is not in a set which, kept whole, leaves no use of another. -/
theorem Passes.pinned_subset (h : Passes source result c passes) {ids : List StringId}
    (hids : c.pinned ⊆ ids) (hpass : (c.keeping ids).pass source = .ok pruned)
    (hclosed : pruned.targets ⊆ ids) : ∀ d ∈ passes, d.pinned ⊆ ids := by
  induction h with
  | last => simpa using hids
  | @more c early passes hearly hmore hrest ih =>
    have hlive : early.targets ⊆ ids := fun id hid =>
      hclosed (targets_mono (broadens_keeping hids) hearly hpass hid)
    refine List.forall_mem_cons.mpr ⟨hids, ih ?_ hpass⟩
    intro id hid
    rcases List.mem_append.mp hid with hid | hid
    · exact hlive ((mem_unpinned hearly).mp hid).1
    · exact hids hid

end Pruning

namespace GraphImage

open Pruning

variable {g : GraphImage}

/-- How a pruning of an image arrives at the groups that it keeps whole: by these passes, the last
of which is `last` and gives the root. -/
structure PinsLeast (g : GraphImage) (c : Pruning) (passes : List Pruning) (last : Pruning)
    (root : GraphRoot) : Prop where
  made : Passes g.root root c passes
  final : passes.getLast? = some last
  widens : c.Widens last
  count : passes.length ≤ g.root.targets.toFinset.card + 1
  /-- Keeping more groups whole leaves more. -/
  mono : ∀ ids ids' : List StringId, ids ⊆ ids' → ∃ less more,
    (c.keeping ids).pass g.root = .ok less ∧ (c.keeping ids').pass g.root = .ok more ∧
      Thins more.children less.children
  /-- What is kept whole at the end is what the uses left at the end refer to. -/
  pinned : ∀ id, id ∈ last.pinned ↔ id ∈ root.targets
  /-- Any set that, kept whole, leaves no use of another group holds what is kept whole. -/
  least : ∀ (ids : List StringId) (pruned : GraphRoot),
    (c.keeping ids).pass g.root = .ok pruned → pruned.targets ⊆ ids → last.pinned ⊆ ids

/-- Pruning keeps whole no more exported groups than it has to. It takes at most one pass more than
there are groups that uses refer to; the more groups a pass keeps whole, the more it leaves; and the
groups kept whole at the end are those that a surviving use refers to, which is the least set that
holds the targets of the uses it lets survive. -/
theorem pins_least (hg : g.Reachable) (copies : Nat) (viewport : Rect) (tolerance : Binary64) :
    ∃ passes last root, g.prune copies viewport tolerance = .ok root ∧
      g.PinsLeast (g.pruning copies viewport tolerance) passes last root := by
  obtain ⟨root, hroot⟩ := hg.prune_progress copies viewport tolerance
  obtain ⟨passes, hpasses⟩ := run_eq_ok_iff.mp hroot
  obtain ⟨last, hlast, hd⟩ := hpasses.lastPass
  refine ⟨passes, last, root, hroot, hpasses, hlast, hd.widens, ?_, ?_, ?_, ?_⟩
  · have hlength := hpasses.length_le
    have hsubset := Finset.card_le_card (Finset.sdiff_subset
      (s := g.root.targets.toFinset) (t := (g.pruning copies viewport tolerance).pinned.toFinset))
    omega
  · intro ids ids' hids
    obtain ⟨less, hless⟩ := pass_progress
      (c := (g.pruning copies viewport tolerance).keeping ids) hg.measured
    obtain ⟨more, hmore⟩ := pass_progress
      (c := (g.pruning copies viewport tolerance).keeping ids') hg.measured
    exact ⟨less, more, hless, hmore, thins_mono (broadens_keeping hids) hless hmore⟩
  · exact fun id => hd.mem_pinned rfl
  · intro ids pruned hpruned hclosed
    exact hpasses.pinned_subset (List.nil_subset ids) hpruned hclosed last
      (List.mem_of_getLast? hlast)

end GraphImage

/-! A badge in a badge, of which only the use of the outer one meets the window. -/

namespace NestedBadges

private def picture : Call := .image ⟨0, ⟨.ofNat 90, .zero, .ofNat 100, .ofNat 10⟩, none⟩

/-- The outer badge is kept whole for its use in the window, and only then the inner one for its use
in the outer one. -/
private def calls : List Call :=
  [.init ⟨[⟨1, 1, [0, 0, 0, 255]⟩], ["inner", "outer"], []⟩, .beginGroup ⟨none, 255, some 0⟩,
    picture, .endGroup, .beginGroup ⟨none, 255, some 1⟩, picture, .use ⟨0, none⟩, .endGroup,
    .use ⟨1, some (.translate (Binary64.ofNat 90).neg .zero)⟩]

private def window : Rect := ⟨.zero, .zero, .ofNat 20, .ofNat 20⟩

private theorem ofCalls_calls : ∃ g, GraphImage.ofCalls 0 false .empty calls = .ok g := by
  have haccepted : (GraphImage.ofCalls 0 false .empty calls).toBool = true := by decide +kernel
  exact toBool_eq_true.mp haccepted

end NestedBadges

namespace GraphImage

theorem pins_least_nestedBadges : ∃ g passes last root,
    ofCalls 0 false .empty NestedBadges.calls = .ok g ∧
      g.prune 1 NestedBadges.window .zero = .ok root ∧
      g.PinsLeast (g.pruning 1 NestedBadges.window .zero) passes last root := by
  obtain ⟨g, hg⟩ := NestedBadges.ofCalls_calls
  have hreachable : g.Reachable := .replayed .empty (List.not_mem_nil : 0 ∉ []) hg
  obtain ⟨passes, last, root, hroot, hleast⟩ :=
    pins_least hreachable 1 NestedBadges.window .zero
  exact ⟨g, passes, last, root, hg, hroot, hleast⟩

end GraphImage

end VectorImage
