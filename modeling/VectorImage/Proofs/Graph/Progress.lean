import VectorImage.Graph.Builder
import VectorImage.Proofs.Canonical.Table
import VectorImage.Proofs.Outcome

/-!
When a builder can perform a call: the scope that the call ends is the innermost one, the group
that it uses is there, and the next gradient has an id. Sharing and adding nodes never fail.
-/

set_option autoImplicit false
set_option relaxedAutoImplicit false

namespace VectorImage

namespace GraphBuilder

/-- A computation of a builder that succeeds. -/
private def Succeeds {α : Type} (m : Build α) (b : GraphBuilder) : Prop :=
  ∃ a b', m b = .ok (a, b')

private theorem Succeeds.bind {α β : Type} {m : Build α} {f : α → Build β} {b : GraphBuilder}
    (hm : Succeeds m b) (hf : ∀ a b', m b = .ok (a, b') → Succeeds (f a) b') :
    Succeeds (m >>= f) b := by
  obtain ⟨a, b', h⟩ := hm
  obtain ⟨c, b'', h'⟩ := hf a b' h
  exact ⟨c, b'', state_bind_eq_ok.mpr ⟨a, b', h, h'⟩⟩

private theorem succeeds_pure {α : Type} (a : α) (b : GraphBuilder) :
    Succeeds (pure a : Build α) b := ⟨a, b, rfl⟩

private theorem succeeds_modify (f : GraphBuilder → GraphBuilder) (b : GraphBuilder) :
    Succeeds (modify f : Build Unit) b := ⟨(), f b, rfl⟩

private theorem succeeds_get (b : GraphBuilder) : Succeeds (get : Build GraphBuilder) b :=
  ⟨b, b, rfl⟩

private theorem succeeds_withSharing {α : Type} (m : StateM Sharing α) (b : GraphBuilder) :
    Succeeds (withSharing m) b := ⟨_, _, rfl⟩

private theorem succeeds_forM {α : Type} {f : α → Build Unit} (hf : ∀ v b, Succeeds (f v) b)
    (vs : List α) (b : GraphBuilder) : Succeeds (vs.forM f) b := by
  induction vs generalizing b with
  | nil => exact succeeds_pure () b
  | cons v vs ih => exact (hf v b).bind fun _ b' _ => ih b'

private theorem succeeds_share {α : Type} (m : StateM Sharing α) (b : GraphBuilder) :
    Succeeds (do let _ ← withSharing m) b :=
  (succeeds_withSharing m b).bind fun _ b' _ => succeeds_pure () b'

private theorem succeeds_add (make : Instance → Node) (b : GraphBuilder) :
    Succeeds (add make) b := by
  refine (succeeds_withSharing _ b).bind fun i b₁ _ => (succeeds_get b₁).bind fun c b₂ _ => ?_
  split
  · exact (succeeds_withSharing _ b₂).bind fun n b₃ _ =>
      (succeeds_modify _ b₃).bind fun _ b₄ _ => succeeds_pure n b₄
  · exact (succeeds_pure _ b₂).bind fun n b₃ _ =>
      (succeeds_modify _ b₃).bind fun _ b₄ _ => succeeds_pure n b₄

private theorem succeeds_close {b : GraphBuilder} {f : GraphFrame} {rest : List GraphFrame}
    (hframes : b.frames = f :: rest) : closeScope b = .ok (f, { b with frames := rest }) := by
  refine state_bind_eq_ok.mpr ⟨b, b, rfl, ?_⟩
  rw [hframes]
  rfl

private theorem succeeds_done {m : Build Unit} {b : GraphBuilder} (h : Succeeds m b) :
    Succeeds (do m; return Reply.done) b := h.bind fun _ b' _ => succeeds_pure _ b'

private theorem perform_of_succeeds {b : GraphBuilder} {c : Call} (h : Succeeds (call c) b) :
    ∃ b' reply, b.perform c = .ok (b', reply) := by
  obtain ⟨reply, b', h⟩ := h
  exact ⟨b', reply, map_eq_ok.mpr ⟨_, h, rfl⟩⟩

/-- What a call needs of a builder to be performed. -/
def Ready (b : GraphBuilder) : Call → Prop
  | .gradient g => ∃ r, b.gradients.intern g = .ok r
  | .endGroup => ∃ attrs children rest, b.frames = ⟨.group attrs, children⟩ :: rest
  | .maskContent => ∃ children rest, b.frames = ⟨.mask, children⟩ :: rest
  | .endMask => ∃ nodes children rest, b.frames = ⟨.maskContent nodes, children⟩ :: rest
  | .use u => ∃ target, b.exports.lookup u.target = some target
  | _ => True

theorem perform_of_ready {b : GraphBuilder} {c : Call} (h : b.Ready c) :
    ∃ b' reply, b.perform c = .ok (b', reply) := by
  apply perform_of_succeeds
  cases c with
  | init t =>
    refine succeeds_done ?_
    exact (succeeds_forM (fun v => succeeds_share _) t.images b).bind fun _ b₁ _ =>
      (succeeds_forM (fun v => succeeds_share _) t.strings b₁).bind fun _ b₂ _ =>
        (succeeds_forM (fun v => succeeds_share _) t.floatLists b₂).bind fun _ b₃ _ =>
          succeeds_modify _ b₃
  | document d => exact succeeds_done (succeeds_modify _ b)
  | gradient g =>
    obtain ⟨⟨table, id⟩, hintern⟩ := h
    refine Succeeds.bind ?_ fun _ b' _ => succeeds_pure _ b'
    refine (succeeds_get b).bind fun c b₁ hget => ?_
    obtain ⟨rfl, rfl⟩ := state_get_eq_ok.mp hget
    refine Succeeds.bind ⟨(table, id), b₁, state_lift_eq_ok.mpr ⟨hintern, rfl⟩⟩ fun r b₂ _ => ?_
    exact (succeeds_modify _ b₂).bind fun _ b₃ _ => succeeds_pure _ b₃
  | beginGroup attrs => exact succeeds_done (succeeds_modify _ b)
  | beginMask => exact succeeds_done (succeeds_modify _ b)
  | endGroup =>
    obtain ⟨attrs, children, rest, hframes⟩ := h
    refine succeeds_done (Succeeds.bind ⟨_, _, succeeds_close hframes⟩ fun f b₁ hclose => ?_)
    rw [succeeds_close hframes] at hclose
    cases hclose
    refine (succeeds_withSharing _ _).bind fun t b₂ _ => (succeeds_add _ b₂).bind fun n b₃ _ => ?_
    split
    · exact succeeds_modify _ b₃
    · exact succeeds_pure _ b₃
  | clip c =>
    refine succeeds_done ?_
    exact (succeeds_withSharing _ b).bind fun p b₁ _ => (succeeds_withSharing _ b₁).bind
      fun t b₂ _ => (succeeds_add _ b₂).bind fun n b₃ _ => succeeds_pure _ b₃
  | maskContent =>
    obtain ⟨children, rest, hframes⟩ := h
    refine succeeds_done (Succeeds.bind ⟨_, _, succeeds_close hframes⟩ fun f b₁ hclose => ?_)
    rw [succeeds_close hframes] at hclose
    cases hclose
    exact succeeds_modify _ _
  | endMask =>
    obtain ⟨nodes, children, rest, hframes⟩ := h
    refine succeeds_done (Succeeds.bind ⟨_, _, succeeds_close hframes⟩ fun f b₁ hclose => ?_)
    rw [succeeds_close hframes] at hclose
    cases hclose
    exact (succeeds_add _ _).bind fun n b₂ _ => succeeds_pure _ b₂
  | shape leaf =>
    refine succeeds_done ?_
    exact (succeeds_withSharing _ b).bind fun g b₁ _ => (succeeds_withSharing _ b₁).bind
      fun p b₂ _ => (succeeds_withSharing _ b₂).bind fun t b₃ _ => (succeeds_add _ b₃).bind
        fun n b₄ _ => succeeds_pure _ b₄
  | image leaf => exact (succeeds_add _ b).bind fun n b₁ _ => succeeds_pure _ b₁
  | text leaf => exact (succeeds_add _ b).bind fun n b₁ _ => succeeds_pure _ b₁
  | use u =>
    obtain ⟨target, hlookup⟩ := h
    refine succeeds_done ((succeeds_get b).bind fun c b₁ hget => ?_)
    obtain ⟨rfl, rfl⟩ := state_get_eq_ok.mp hget
    rw [hlookup]
    exact (succeeds_withSharing _ b₁).bind fun t b₂ _ => (succeeds_add _ b₂).bind
      fun n b₃ _ => succeeds_pure _ b₃

end GraphBuilder

end VectorImage
