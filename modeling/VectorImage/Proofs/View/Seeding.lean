import VectorImage.Image
import VectorImage.Proofs.View.Likeness
import VectorImage.Proofs.View.Origin

/-!
What a build is made from makes no difference to what it means. The seed and the sharing of nodes
decide which instances an image has, and nothing that can be asked of the image tells instances
apart: not its drawing, its extent, its visits, the stream that describes it or its prunings.
-/

set_option autoImplicit false
set_option relaxedAutoImplicit false

namespace VectorImage

/-! The stream that describes a tree does without instances. -/

mutual
theorem Node.calls_plain (n : Node) : Node.calls n.plain = Node.calls n := by
  cases n with
  | group inst transform alpha exportId children =>
    simp only [Node.plain, Node.calls, sharedValue_plain, Node.callsAll_plain children]
  | clip inst path rule transform =>
    simp only [Node.plain, Node.calls, sharedValue_plain, Shared.plain]
  | masked inst mask content =>
    simp only [Node.plain, Node.calls, Node.callsAll_plain mask, Node.callsAll_plain content]
  | shape inst geometry paint transform =>
    simp only [Node.plain, Node.calls, sharedValue_plain, NodeGeometry.value_plain, Shared.plain]
  | image inst leaf => simp only [Node.plain, Node.calls]
  | text inst leaf => simp only [Node.plain, Node.calls]
  | use inst targetId target transform =>
    simp only [Node.plain, Node.calls, sharedValue_plain]

theorem Node.callsAll_plain (nodes : List Node) :
    Node.callsAll (Node.plainAll nodes) = Node.callsAll nodes := by
  cases nodes with
  | nil => rw [Node.plainAll]
  | cons n rest =>
    rw [Node.plainAll, Node.callsAll, Node.callsAll, Node.calls_plain n, Node.callsAll_plain rest]
end

namespace GraphImage

variable {g g' : GraphImage}

/-- The paints of the visited nodes are those of the nodes without their instances. -/
private theorem liveGradients_plain (g : GraphImage) :
    g.liveGradients = (((g.visited.map Node.plain).flatMap fun n =>
      (n.paint?.map Paint.gradientIds).getD []).eraseDups.mergeSort
        fun a b => a.toNat ≤ b.toNat) := by
  simp only [liveGradients, List.flatMap_map, Node.paint?_plain]

/-- Images that are alike are described by one stream. -/
theorem Alike.calls (h : g.Alike g') : g.calls = g'.calls := by
  have hlive : g.liveGradients = g'.liveGradients := by
    rw [liveGradients_plain, liveGradients_plain, h.visited]
  have htree : Node.callsAll g.root.children = Node.callsAll g'.root.children := by
    rw [← Node.callsAll_plain g.root.children, h.children, Node.callsAll_plain]
  rw [GraphImage.calls, GraphImage.calls, hlive, htree, h.gradients, h.document, h.tables]

/-- Run a builder on the stream of an image. -/
def replayInto {σ ω : Type} (g : GraphImage) (b : Backend σ ω) (state : σ) : Except Error ω := do
  b.replay state (← g.calls)

/-- All that can be asked of an image is answered as it is for another. -/
structure MeansSame (g g' : GraphImage) : Prop where
  document : g.document = g'.document
  tables : g.tables = g'.tables
  gradients : g.gradients = g'.gradients
  tree : Node.plainAll g.root.children = Node.plainAll g'.root.children
  visited : g.visited.map Node.plain = g'.visited.map Node.plain
  primitives : g.primitives = g'.primitives
  bounds : (Image.graph g).bounds = (Image.graph g').bounds
  viewport : (Image.graph g).viewport = (Image.graph g').viewport
  calls : g.calls = g'.calls
  replayInto : ∀ {σ ω : Type} (b : Backend σ ω) (state : σ),
    g.replayInto b state = g'.replayInto b state

theorem Alike.meansSame (h : g.Alike g') : g.MeansSame g' := by
  have hbounds : (Image.graph g).bounds = (Image.graph g').bounds :=
    congrArg (drawingBounds <$> ·) h.primitives
  refine ⟨h.document, h.tables, h.gradients, h.children, h.visited, h.primitives, hbounds, ?_,
    h.calls, fun b state => ?_⟩
  · show g.document.viewport _ = g'.document.viewport _
    rw [h.document, hbounds]
  · rw [GraphImage.replayInto, GraphImage.replayInto, h.calls]

/-- Images that are alike can both be seen through a viewport, and are alike there. -/
theorem Alike.exists_withViewport (h : g.Alike g') (hg : g.Reachable) (hg' : g'.Reachable)
    (copies copies' : Nat) (viewport : Rect) (prune : Bool) (tolerance : Binary64) :
    ∃ v v', g.withViewport copies viewport prune tolerance = .ok v ∧
      g'.withViewport copies' viewport prune tolerance = .ok v' ∧ v.Alike v' := by
  cases prune with
  | false =>
    refine ⟨_, _, rfl, rfl, ?_⟩
    exact ⟨congrArg (·.showing viewport) h.document, h.tables, h.gradients, h.children⟩
  | true =>
    obtain ⟨root, hroot⟩ := hg.prune_progress copies viewport tolerance
    obtain ⟨root', hroot'⟩ := hg'.prune_progress copies' viewport tolerance
    have hv : g.withViewport copies viewport true tolerance =
        .ok { g with document := g.document.showing viewport, root := root } :=
      bind_eq_ok.mpr ⟨root, hroot, rfl⟩
    have hv' : g'.withViewport copies' viewport true tolerance =
        .ok { g' with document := g'.document.showing viewport, root := root' } :=
      bind_eq_ok.mpr ⟨root', hroot', rfl⟩
    exact ⟨_, _, hv, hv', h.withViewport hv hv'⟩

/-- A stream is built from whatever earlier builds left, with nodes shared or not, if it is built
from nothing with nodes shared. The two images mean the same, and so do what any viewports make of
them. -/
theorem meansSame_unseeded {stamps : List Nat} {seed : NodeCache} (hseed : seed.Grown stamps)
    {stamp : Nat} (hstamp : stamp ∉ stamps) (shareNodes : Bool) (first : Nat) (calls : List Call) :
    ((∃ g, ofCalls stamp shareNodes seed calls = .ok g) ↔
      ∃ g, ofCalls first true .empty calls = .ok g) ∧
    ∀ g g₀, ofCalls stamp shareNodes seed calls = .ok g →
      ofCalls first true .empty calls = .ok g₀ →
      g.MeansSame g₀ ∧
        ∀ (copies copies' : Nat) (viewport : Rect) (prune : Bool) (tolerance : Binary64),
          ∃ v v₀, g.withViewport copies viewport prune tolerance = .ok v ∧
            g₀.withViewport copies' viewport prune tolerance = .ok v₀ ∧ v.MeansSame v₀ := by
  refine ⟨⟨?_, ?_⟩, fun g g₀ hg hg₀ => ?_⟩
  · rintro ⟨g, hg⟩
    obtain ⟨g₀, hg₀, -⟩ := alike_of_ofCalls hseed .empty hstamp List.not_mem_nil hg true
    exact ⟨g₀, hg₀⟩
  · rintro ⟨g₀, hg₀⟩
    obtain ⟨g, hg, -⟩ := alike_of_ofCalls .empty hseed List.not_mem_nil hstamp hg₀ shareNodes
    exact ⟨g, hg⟩
  · obtain ⟨g', hg', halike⟩ := alike_of_ofCalls hseed .empty hstamp
      (List.not_mem_nil : first ∉ []) hg true
    cases hg'.symm.trans hg₀
    refine ⟨halike.meansSame, fun copies copies' viewport prune tolerance => ?_⟩
    obtain ⟨v, v₀, hv, hv₀, hsame⟩ := halike.exists_withViewport (.replayed hseed hstamp hg)
      (.replayed .empty List.not_mem_nil hg₀) copies copies' viewport prune tolerance
    exact ⟨v, v₀, hv, hv₀, hsame.meansSame⟩

end GraphImage

namespace Label

/-- A badge that says its name, and a use of it. -/
private def calls (name : String) : List Call :=
  [.init ⟨[], [name], []⟩, .beginGroup ⟨none, 255, some 0⟩,
    .text ⟨0, none, .one, ⟨.zero, .zero⟩, .start, ⟨none, none⟩, none⟩, .endGroup,
    .use ⟨0, none⟩]

/-- What the build of a badge of another name leaves. -/
private def seed : NodeCache :=
  (GraphBuilder.backend.issueAll (.start (.start 0 true .empty)) (calls "a")).1.state.sharing.met

private theorem seed_grown : seed.Grown [0] := .build .empty List.not_mem_nil true (calls "a")

end Label

namespace GraphImage

theorem meansSame_unseeded_label : ∃ g g₀ : GraphImage,
    ofCalls 1 true Label.seed (Label.calls "b") = .ok g ∧
      ofCalls 0 true .empty (Label.calls "b") = .ok g₀ ∧ g.MeansSame g₀ ∧
      ∃ v v₀, g.withViewport 2 ⟨.zero, .zero, .one, .one⟩ true .zero = .ok v ∧
        g₀.withViewport 1 ⟨.zero, .zero, .one, .one⟩ true .zero = .ok v₀ ∧ v.MeansSame v₀ := by
  have hstamp : 1 ∉ [0] := by decide
  obtain ⟨hiff, hsame⟩ := meansSame_unseeded Label.seed_grown hstamp true 0 (Label.calls "b")
  obtain ⟨g, hg⟩ := hiff.mpr ⟨_, rfl⟩
  obtain ⟨g₀, hg₀⟩ := hiff.mp ⟨g, hg⟩
  obtain ⟨hmeans, hviews⟩ := hsame g g₀ hg hg₀
  exact ⟨g, g₀, hg, hg₀, hmeans, hviews 2 1 _ true .zero⟩

end GraphImage

end VectorImage
