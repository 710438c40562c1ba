import VectorImage.Proofs.Graph.Replaying
import VectorImage.Proofs.Graph.Steps

/-!
The calls of a tree draw the tree. A sketch that takes the calls of a node, under new indices for
the gradients, draws the steps of the node, and what it remembers by name are groups that have
ended. This asks only that the groups that have ended under the name of a use are the group that
the use refers to.
-/

set_option autoImplicit false
set_option relaxedAutoImplicit false

namespace VectorImage

namespace Sketch

variable {s t : Sketch}

/-- A sketch takes calls one after the other, each under new indices of its gradients. -/
inductive Takes (f : GradientId → Except Error GradientId) : Sketch → List Call → Sketch → Prop
  | nil (s : Sketch) : Takes f s [] s
  | cons {s t u : Sketch} {call call' : Call} {rest : List Call} {reply : Reply}
      (hcall : call.Renames (.gradientsBy f) call') (hperform : s.perform call' = .ok (t, reply))
      (hrest : Takes f t rest u) : Takes f s (call :: rest) u

variable {f : GradientId → Except Error GradientId}

theorem Takes.split {first rest : List Call} (h : Takes f s (first ++ rest) t) :
    ∃ u, Takes f s first u ∧ Takes f u rest t := by
  induction first generalizing s with
  | nil => exact ⟨s, .nil s, h⟩
  | cons call first ih =>
    cases h with
    | cons hcall hperform hafter =>
      obtain ⟨u, hfirst, hrest⟩ := ih hafter
      exact ⟨u, .cons hcall hperform hfirst, hrest⟩

theorem Takes.single {call : Call} (h : Takes f s [call] t) :
    ∃ call' reply, call.Renames (.gradientsBy f) call' ∧ s.perform call' = .ok (t, reply) := by
  cases h with
  | cons hcall hperform hnil =>
    cases hnil
    exact ⟨_, _, hcall, hperform⟩

/-- The calls of a run are taken. -/
theorem takes_of_runs {p q : Position Sketch} {calls calls' : List Call}
    (hcalls : List.Forall₂ (Call.Renames (.gradientsBy f)) calls calls') (hp : Current p)
    (hruns : backend.Runs p calls' q) : Takes f p.session.state calls q.session.state := by
  induction hcalls generalizing p with
  | nil =>
    cases hruns
    exact .nil _
  | cons hcall _ ih =>
    cases hruns with
    | cons hstep hrest =>
      obtain ⟨reply, -, hperform, -, hcurrent⟩ := hp.of_advances hstep
      exact .cons hcall hperform (ih hcurrent hrest)

/-- What a sketch remembers are groups that have ended, with their steps. -/
def Recalls (r : Resources) (ended : List Node) (s : Sketch) : Prop :=
  ∀ x ∈ s.exports, ∃ n ∈ ended, n.exportId? = some x.1 ∧ Node.steps r n = .ok x.2

/-- A sketch goes on to draw steps, and may remember more groups. -/
structure Draws (r : Resources) (ended : List Node) (s : Sketch) (steps : List PaintStep)
    (t : Sketch) : Prop where
  state : t = { s.draw steps with exports := t.exports }
  recalls : t.Recalls r ended

namespace Draws

variable {r : Resources} {ended : List Node} {steps more : List PaintStep} {u : Sketch}

theorem resources (h : Draws r ended s steps t) : t.resources = s.resources := by
  rw [h.state]
  exact s.draw_resources steps

theorem append (h : Draws r ended s steps t) (h' : Draws r ended t more u) :
    Draws r ended s (steps ++ more) u := by
  refine ⟨?_, h'.recalls⟩
  rw [h'.state, h.state, draw_exporting, draw_append]

/-- Steps that a sketch draws at once, with what it remembers from then on. -/
theorem remembering (s : Sketch) {exports : List (StringId × List PaintStep)}
    (h : ({ s with exports := exports } : Sketch).Recalls r ended) (steps : List PaintStep) :
    Draws r ended s steps (({ s with exports := exports } : Sketch).draw steps) := by
  refine ⟨?_, ?_⟩
  · rw [draw_exports]
    exact draw_exporting s exports steps
  · intro x hx
    rw [draw_exports] at hx
    exact h x hx

theorem draw (h : s.Recalls r ended) (steps : List PaintStep) :
    Draws r ended s steps (s.draw steps) := remembering s h steps

/-- A scope that has been opened, and what is drawn in it. -/
theorem innermost {scope : Scope} {before : List PaintStep} {frames : List SketchFrame}
    (h : Draws r ended { s with frames := ⟨scope, before⟩ :: frames } steps t) :
    t = { s with frames := ⟨scope, before ++ steps⟩ :: frames, exports := t.exports } := h.state

/-- A group that ends is drawn and remembered. -/
theorem endGroup {exportId : Option StringId} {opening inner : List PaintStep} {reply : Reply}
    (h : Draws r ended { s with frames := ⟨.group exportId, opening⟩ :: s.frames } inner t)
    {m : Node} (hm : m ∈ ended) (hname : m.exportId? = exportId)
    (hsteps : Node.steps r m = .ok (opening ++ inner ++ [.endGroup]))
    (hperform : t.perform .endGroup = .ok (u, reply)) :
    Draws r ended s (opening ++ inner ++ [.endGroup]) u := by
  have hrecalls := h.recalls
  have hstate := h.innermost
  generalize t.exports = exports at hstate
  subst hstate
  cases hperform
  refine .remembering s ?_ _
  intro x hx
  rcases List.mem_append.mp hx with hx | hx
  · obtain ⟨id, hid, rfl⟩ := List.mem_map.mp hx
    exact ⟨m, hm, hname.trans (Option.mem_toList.mp hid), hsteps⟩
  · exact hrecalls x hx

/-- A mask becomes the mask of what is drawn next. -/
theorem maskContent {first : List PaintStep} {reply : Reply}
    (h : Draws r ended (s.openScope .mask .beginMask) first t)
    (hperform : t.perform .maskContent = .ok (u, reply)) :
    u = { s with
      frames := ⟨.maskContent, .beginMask :: (first ++ [.maskContent])⟩ :: s.frames
      exports := t.exports } ∧ u.Recalls r ended := by
  have hrecalls := h.recalls
  have hstate := h.innermost
  generalize t.exports = exports at hstate ⊢
  subst hstate
  cases hperform
  exact ⟨rfl, hrecalls⟩

/-- Masked content that ends is drawn with its mask. -/
theorem endMask {exports : List (StringId × List PaintStep)} {opening inner : List PaintStep}
    {reply : Reply}
    (h : Draws r ended { s with
      frames := ⟨.maskContent, opening⟩ :: s.frames
      exports := exports } inner t)
    (hperform : t.perform .endMask = .ok (u, reply)) :
    Draws r ended s (opening ++ inner ++ [.endMask]) u := by
  have hrecalls := h.recalls
  have hstate := innermost (s := { s with exports := exports }) h
  generalize t.exports = exports' at hstate
  subst hstate
  cases hperform
  exact .remembering s hrecalls _

end Draws

end Sketch

/-! A sketch that takes the calls of a node draws its steps. -/

mutual
theorem Node.draws_calls {r : Resources} {ended : List Node} (hnames : Node.TargetsNamed ended)
    {f : GradientId → Except Error GradientId} {n : Node} (hended : Node.finished n ⊆ ended)
    {steps : List PaintStep} (hsteps : Node.steps r n = .ok steps) {s t : Sketch}
    (hmatch : (Renaming.gradientsBy f).Matches r s.resources) (hrecalls : s.Recalls r ended)
    (htakes : Sketch.Takes f s (Node.calls n) t) : Sketch.Draws r ended s steps t := by
  have hself := hended (Node.mem_finished_self n)
  have hwhole := hsteps
  cases n with
  | group inst transform alpha exportId children =>
    rw [Node.finished] at hended
    rw [Node.calls] at htakes
    obtain ⟨inner, hinner, rfl⟩ := Node.steps_group_eq_ok.mp hsteps
    cases htakes with
    | cons hcall hperform hrest =>
      cases hcall with
      | @beginGroup _ attrs htransform halpha hexport =>
        cases hperform
        rw [← htransform, ← halpha, ← option_eq_of_rel hexport] at hrest
        obtain ⟨u, hchildren, hlast⟩ := hrest.split
        have hdraws := Node.draws_callsAll hnames
          (fun m hm => hended (List.mem_append_left _ hm)) hinner (s := s.openScope _ _) hmatch
            hrecalls hchildren
        obtain ⟨call, reply, hcall, hperform⟩ := hlast.single
        cases hcall
        exact hdraws.endGroup hself rfl hwhole hperform
  | masked inst mask content =>
    rw [Node.finished] at hended
    rw [Node.calls] at htakes
    obtain ⟨first, second, hfirst, hsecond, rfl⟩ := Node.steps_masked_eq_ok.mp hsteps
    cases htakes with
    | cons hcall hperform hrest =>
      cases hcall
      cases hperform
      obtain ⟨u, hmask, hrest⟩ := hrest.split
      have hmasked := Node.draws_callsAll hnames (fun m hm => hended
        (List.mem_append_left _ (List.mem_append_left _ hm))) hfirst (s := s.openScope _ _) hmatch
          hrecalls hmask
      cases hrest with
      | @cons _ w _ _ _ _ _ hcall hperform hrest =>
        cases hcall
        obtain ⟨hstate, hrecalls'⟩ := hmasked.maskContent hperform
        obtain ⟨v, hcontent, hlast⟩ := hrest.split
        have hmatch' : (Renaming.gradientsBy f).Matches r w.resources := by
          rw [hstate]
          exact hmatch
        have hdraws := Node.draws_callsAll hnames (fun m hm => hended
          (List.mem_append_left _ (List.mem_append_right _ hm))) hsecond hmatch' hrecalls' hcontent
        rw [hstate] at hdraws
        obtain ⟨call, reply, hcall, hperform⟩ := hlast.single
        cases hcall
        simpa using hdraws.endMask hperform
  | clip inst path rule transform =>
    rw [Node.calls] at htakes
    obtain rfl := Node.steps_clip_eq_ok.mp hsteps
    obtain ⟨call, reply, hcall, hperform⟩ := htakes.single
    cases hcall
    cases hperform
    exact .draw hrecalls _
  | shape inst geometry paint transform =>
    rw [Node.calls] at htakes
    obtain ⟨step, hstep, rfl⟩ := Node.steps_shape_eq_ok.mp hsteps
    obtain ⟨call, reply, hcall, hperform⟩ := htakes.single
    cases hcall with
    | shape hgeometry hpaint htransform =>
      rw [Sketch.perform, Resources.shapeStep_renames hmatch hgeometry hpaint htransform hstep]
        at hperform
      cases hperform
      exact .draw hrecalls _
  | image inst leaf =>
    rw [Node.calls] at htakes
    obtain ⟨step, hstep, rfl⟩ := Node.steps_image_eq_ok.mp hsteps
    obtain ⟨call, reply, hcall, hperform⟩ := htakes.single
    cases hcall with
    | image himage hdest htransform =>
      rw [Sketch.perform, Resources.imageStep_renames hmatch himage hdest htransform hstep]
        at hperform
      cases hperform
      exact .draw hrecalls _
  | text inst leaf =>
    rw [Node.calls] at htakes
    obtain ⟨step, hstep, rfl⟩ := Node.steps_text_eq_ok.mp hsteps
    obtain ⟨call, reply, hcall, hperform⟩ := htakes.single
    cases hcall with
    | text hleaf =>
      rw [Sketch.perform, Resources.textStep_renames hmatch hleaf hstep] at hperform
      cases hperform
      exact .draw hrecalls _
  | use inst targetId target transform =>
    rw [Node.calls] at htakes
    obtain ⟨inner, hinner, rfl⟩ := Node.steps_use_eq_ok.mp hsteps
    obtain ⟨call, reply, hcall, hperform⟩ := htakes.single
    cases hcall with
    | @use _ u htarget htransform =>
      obtain rfl : targetId = u.target := htarget
      obtain ⟨group, hgroup, rfl, -⟩ := Sketch.perform_use_eq_ok.mp hperform
      -- what is remembered under the name is the target
      obtain ⟨m, hm, hname, hgroup⟩ := hrecalls _ (mem_of_lookup hgroup)
      obtain rfl := hnames _ _ _ _ hself m hm hname
      cases hinner.symm.trans hgroup
      rw [← htransform]
      exact .draw hrecalls _

theorem Node.draws_callsAll {r : Resources} {ended : List Node} (hnames : Node.TargetsNamed ended)
    {f : GradientId → Except Error GradientId} {nodes : List Node}
    (hended : Node.finishedAll nodes ⊆ ended) {steps : List PaintStep}
    (hsteps : Node.stepsAll r nodes = .ok steps) {s t : Sketch}
    (hmatch : (Renaming.gradientsBy f).Matches r s.resources) (hrecalls : s.Recalls r ended)
    (htakes : Sketch.Takes f s (Node.callsAll nodes) t) : Sketch.Draws r ended s steps t := by
  cases nodes with
  | nil =>
    rw [Node.callsAll] at htakes
    rw [Node.stepsAll] at hsteps
    cases htakes
    cases hsteps
    have hdraws := Sketch.Draws.draw hrecalls []
    rwa [Sketch.draw_nil] at hdraws
  | cons n rest =>
    rw [Node.callsAll] at htakes
    rw [Node.finishedAll] at hended
    obtain ⟨first, more, hfirst, hmore, rfl⟩ := Node.stepsAll_cons_eq_ok.mp hsteps
    obtain ⟨u, htakes, hlater⟩ := htakes.split
    have hdraws := Node.draws_calls hnames (fun m hm => hended (List.mem_append_left _ hm)) hfirst
      hmatch hrecalls htakes
    rw [← hdraws.resources] at hmatch
    exact hdraws.append (Node.draws_callsAll hnames
      (fun m hm => hended (List.mem_append_right _ hm)) hmore hmatch hdraws.recalls hlater)
end

namespace GraphImage

variable {g : GraphImage}

/-- The gradients in use, registered in order, stand for themselves under their new indices. -/
private theorem matches_of_live {gradients : List Gradient}
    (hgradients : List.Forall₂ (fun id a => lookup g.gradients .gradient id = .ok a)
      g.liveGradients gradients) :
    (Renaming.gradientsBy (renumber g.liveGradients)).Matches g.resources
      { g.resources with gradients := gradients.toArray } := by
  refine ⟨?_, ?_, ?_, ?_⟩
  · rintro i j v rfl hv
    exact hv
  · rintro i j v rfl hv
    exact hv
  · rintro i j v rfl hv
    exact hv
  · intro i j a hij ha
    obtain ⟨b, hb, hlookup⟩ := related_getElem? hgradients.flip
      (renumber_entry g.length_liveGradients_le hij)
    obtain rfl : b = a := Except.ok.inj (hlookup.symm.trans ha)
    exact ⟨b, lookup_eq_ok_iff.mpr (by simpa using hb), rfl, rfl, rfl, rfl, rfl⟩

/-- The calls of an image draw its tree. -/
theorem root_of_sketch (hnames : Node.TargetsNamed (Node.finishedAll g.root.children))
    {steps : List PaintStep} (hsteps : Node.stepsAll g.resources g.root.children = .ok steps)
    {log : List Call} (hlog : g.calls = .ok log) {s : Sketch}
    (hsketch : Sketch.backend.replay .empty log = .ok s) : s.root = steps := by
  obtain ⟨gradients, hgradients, hrest⟩ := bind_eq_ok.mp hlog
  obtain ⟨tree, htree, hrest⟩ := bind_eq_ok.mp hrest
  cases hrest
  obtain ⟨q, hruns, -, hcomplete⟩ := Backend.replay_eq_ok.mp hsketch
  cases hcomplete
  obtain ⟨p, hp, hopened, hruns⟩ := Sketch.current_of_opening hruns
  obtain ⟨p', hregisters, hruns⟩ := hruns.split
  obtain ⟨hp', hregistered⟩ := hp.registers hregisters
  rw [hopened] at hregistered
  have hrenames : List.Forall₂ (Call.Renames (.gradientsBy (renumber g.liveGradients)))
      (Node.callsAll g.root.children) tree := by
    have hparts := (List.forall₂_and_left _ _).mpr
      ⟨fun _ hcall => Call.ofTree_of_isPart (Node.isPart_callsAll hcall), forall₂_of_mapM htree⟩
    exact hparts.imp fun _ _ h => Call.mapGradients_renames h.1 h.2
  have hmatch : (Renaming.gradientsBy (renumber g.liveGradients)).Matches g.resources
      p'.session.state.resources := by
    rw [hregistered]
    exact matches_of_live (forall₂_of_mapM hgradients)
  have hrecalls : p'.session.state.Recalls g.resources (Node.finishedAll g.root.children) := by
    rw [hregistered]
    nofun
  have hdraws := Node.draws_callsAll hnames (fun _ hm => hm) hsteps hmatch hrecalls
    (Sketch.takes_of_runs hrenames hp' hruns)
  rw [hdraws.state, hregistered]
  exact List.nil_append steps

end GraphImage

end VectorImage
