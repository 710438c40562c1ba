import VectorImage.Proofs.Graph.Progress
import VectorImage.Proofs.Graph.Regularity

/-!
Builders that are driven call by call, whatever they answer. A call that is refused leaves the
nodes as they are, and so does one that is accepted and then fails: what such a session finishes
is as regular as what a stream gives.
-/

set_option autoImplicit false
set_option relaxedAutoImplicit false

namespace VectorImage

theorem Nesting.Sound.reject {n : Nesting} (h : n.Sound) (call : Call) : (n.reject call).Sound := by
  unfold Nesting.reject
  split
  · exact h.enter
  · exact h

namespace GraphBuilder

variable {n m : Nesting} {b : GraphBuilder} {call : Call}

/-- The tree phase begins, with nothing built. -/
private theorem Regular.enter (h : b.Regular n) : b.Regular { n with phase := .tree } :=
  h.hold rfl h.scopes rfl rfl rfl (fun he => nomatch he) rfl

theorem Regular.reject (h : b.Regular n) (call : Call) : b.Regular (n.reject call) := by
  unfold Nesting.reject
  split
  · exact h.enter
  · exact h

/-- The frame of the innermost scope. -/
private theorem Regular.frame (h : b.Regular n) {scope : Scope} {rest : List Scope}
    (hscopes : n.scopes = scope :: rest) :
    ∃ f frames, b.frames = f :: frames ∧ f.opened = scope := by
  have hopened := h.scopes
  rw [hscopes] at hopened
  obtain ⟨f, frames, hframes, hf, -⟩ := List.map_eq_cons_iff.mp hopened
  exact ⟨f, frames, hframes, hf⟩

/-- Unless it registers a gradient or uses a group, an accepted call can be performed. -/
theorem Regular.ready_or (h : b.Regular n) {gradients : Nat}
    (haccept : Nesting.Accepted gradients n call m) :
    b.Ready call ∨ (∃ g, call = .gradient g) ∨ ∃ u, call = .use u := by
  cases haccept with
  | gradient g => exact .inr (.inl ⟨g, rfl⟩)
  | use u => exact .inr (.inr ⟨u, rfl⟩)
  | endGroup exportId rest hscopes =>
    obtain ⟨⟨scope, children⟩, frames, hframes, hopened⟩ := h.frame hscopes
    cases scope with
    | group attrs => exact .inl ⟨attrs, children, frames, hframes⟩
    | mask => cases hopened
    | maskContent mask => cases hopened
  | maskContent rest hscopes =>
    obtain ⟨⟨scope, children⟩, frames, hframes, hopened⟩ := h.frame hscopes
    cases scope with
    | group attrs => cases hopened
    | mask => exact .inl ⟨children, frames, hframes⟩
    | maskContent mask => cases hopened
  | endMask rest hscopes =>
    obtain ⟨⟨scope, children⟩, frames, hframes, hopened⟩ := h.frame hscopes
    cases scope with
    | group attrs => cases hopened
    | mask => cases hopened
    | maskContent mask => exact .inl ⟨mask, children, frames, hframes⟩
  | _ => exact .inl trivial

/-- An accepted call that fails has done nothing but enter the tree phase. -/
private theorem Regular.failed (h : b.Regular n)
    (haccept : Nesting.Accepted b.gradients.size n call m)
    (hfails : ∀ r, b.perform call ≠ .ok r) : b.Regular m := by
  rcases h.ready_or haccept with hready | ⟨g, rfl⟩ | ⟨u, rfl⟩
  · obtain ⟨b', reply, hperform⟩ := perform_of_ready hready
    exact absurd hperform (hfails (b', reply))
  · cases haccept
    exact h.enter
  · cases haccept
    exact h.enter

/-- A session of a builder whose nodes that have ended are regular. -/
structure Orderly (stamps : List Nat) (s : Session GraphBuilder) : Prop where
  sound : s.nesting.Sound
  regular : s.state.Regular s.nesting
  coherent : ∃ items, s.state.Coherent stamps items

private theorem Orderly.issue {stamps : List Nat} {s : Session GraphBuilder}
    (h : Orderly stamps s) (call : Call) : Orderly stamps (backend.issue s call).1 := by
  obtain ⟨hsound, hregular, items, hcoherent⟩ := h
  unfold Backend.issue
  split
  · exact ⟨hsound.reject call, hregular.reject call, items, hcoherent⟩
  · next m hm =>
    have haccept := Nesting.accept_eq_ok.mp hm
    split
    · next hperform =>
      refine ⟨hsound.step haccept, hregular.failed haccept ?_, items, hcoherent⟩
      intro r hr
      cases hperform.symm.trans hr
    · next hperform =>
      obtain ⟨hbuilds, hcoherent'⟩ := perform_spec hcoherent hperform
      exact ⟨hsound.step haccept, hregular.step hsound haccept hbuilds, hcoherent'⟩

end GraphBuilder

/-- What a session of a builder finishes is regular. -/
theorem GraphImage.regular_of_session {stamps : List Nat} {seed : NodeCache}
    (hseed : seed.Grown stamps) {stamp : Nat} (hstamp : stamp ∉ stamps) {shareNodes : Bool}
    {calls : List Call} {g : GraphImage}
    (h : GraphBuilder.backend.finish (GraphBuilder.backend.issueAll
      (.start (.start stamp shareNodes seed)) calls).1 = .ok g) : g.Regular := by
  obtain ⟨items, hfounded⟩ := hseed.founded
  have hstart : GraphBuilder.Orderly (stamp :: stamps)
      (.start (.start stamp shareNodes seed)) :=
    ⟨Nesting.sound_start, GraphBuilder.regular_start stamp shareNodes seed, items,
      GraphBuilder.coherent_start hfounded hstamp shareNodes⟩
  obtain ⟨hsound, hregular, -⟩ := Backend.issueAll_keeps (b := GraphBuilder.backend)
    (fun call hs => hs.issue call) hstart calls
  obtain ⟨_, -, hcomplete⟩ := bind_eq_ok.mp h
  exact hregular.complete hsound hcomplete

end VectorImage
