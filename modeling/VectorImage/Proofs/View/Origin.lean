import VectorImage.Proofs.Graph.Sessions
import VectorImage.Proofs.View.Passes

/-!
How shared trees come about: builders finish them, from a stream or call by call, and viewports
prune them, any number of times over. Every leaf and use of such a tree has an extent, so that it
can always be pruned.
-/

set_option autoImplicit false
set_option relaxedAutoImplicit false

namespace VectorImage

namespace GraphImage

/-- The shared trees that can come about: by a session of a builder, whatever it answered on the
way; from a stream, as when a compact image is converted; through a viewport. -/
inductive Reachable : GraphImage → Prop
  | built {stamps : List Nat} {seed : NodeCache} (hseed : seed.Grown stamps) {stamp : Nat}
      (hstamp : stamp ∉ stamps) {shareNodes : Bool} {calls : List Call} {g : GraphImage}
      (h : GraphBuilder.backend.finish (GraphBuilder.backend.issueAll
        (.start (.start stamp shareNodes seed)) calls).1 = .ok g) : Reachable g
  | replayed {stamps : List Nat} {seed : NodeCache} (hseed : seed.Grown stamps) {stamp : Nat}
      (hstamp : stamp ∉ stamps) {shareNodes : Bool} {calls : List Call} {g : GraphImage}
      (h : ofCalls stamp shareNodes seed calls = .ok g) : Reachable g
  | viewed {g : GraphImage} (hg : Reachable g) {copies : Nat} {viewport : Rect} {prune : Bool}
      {tolerance : Binary64} {v : GraphImage}
      (h : g.withViewport copies viewport prune tolerance = .ok v) : Reachable v

variable {g v : GraphImage} {copies : Nat} {viewport : Rect} {tolerance : Binary64}

/-- The leaves and uses that pruning leaves were there before. -/
private theorem leaf_of_run {c : Pruning} {source pruned : GraphRoot}
    (hrun : c.run source = .ok pruned) {n : Node} (hn : n ∈ Node.finishedAll pruned.children)
    (hleaf : n.isLeaf = true) : n ∈ Node.finishedAll source.children := by
  obtain ⟨d, hlast⟩ := Pruning.exists_lastPass hrun
  exact Pruning.leaf_of_pass hlast.pass hn hleaf

/-- What holds of every leaf and use of a regular image, whatever else is in it, holds of those of
every tree that can come about. -/
theorem Reachable.of_regular {P : Resources → Node → Prop}
    (hregular : ∀ g : GraphImage, g.Regular →
      ∀ n ∈ Node.finishedAll g.root.children, n.isLeaf = true → P g.resources n)
    (h : g.Reachable) : ∀ n ∈ Node.finishedAll g.root.children, n.isLeaf = true →
      P g.resources n := by
  induction h with
  | built hseed hstamp h => exact hregular _ (regular_of_session hseed hstamp h)
  | replayed hseed hstamp h => exact hregular _ (regular_of_ofCalls hseed hstamp h)
  | @viewed g hg copies viewport prune tolerance v h ih =>
    cases prune with
    | false =>
      cases h
      exact ih
    | true =>
      obtain ⟨root, hroot, h⟩ := bind_eq_ok.mp h
      cases h
      exact fun n hn hleaf => ih n (leaf_of_run hroot hn hleaf) hleaf

theorem Reachable.measured (h : g.Reachable) :
    Node.Measured g.resources (Node.finishedAll g.root.children) :=
  h.of_regular (P := fun r n => ∀ t, ∃ extent, Node.bounds r t n = .ok extent)
    fun _ hregular => hregular.measured

/-- A tree that can come about can be pruned. -/
theorem Reachable.prune_progress (h : g.Reachable) (copies : Nat) (viewport : Rect)
    (tolerance : Binary64) : ∃ root, g.prune copies viewport tolerance = .ok root :=
  Pruning.run_progress (c := g.pruning copies viewport tolerance) h.measured

end GraphImage

end VectorImage
