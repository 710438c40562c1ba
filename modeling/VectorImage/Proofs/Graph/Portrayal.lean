import Mathlib.Data.List.Forall2
import VectorImage.Proofs.Drawing.Sketch
import VectorImage.Proofs.Graph.Building
import VectorImage.Proofs.Graph.Progress
import VectorImage.Proofs.Graph.Steps

/-!
A shared tree draws what a sketch of its calls says. While both follow one stream, the finished
nodes of every open scope have the steps that the sketch wrote down for it, and the node of an
exported group has the steps of that group; sharing and renumbered gradients change neither.
-/

set_option autoImplicit false
set_option relaxedAutoImplicit false

namespace VectorImage

namespace GraphBuilder

/-- What the indices of a build stand for. -/
def resources (b : GraphBuilder) : Resources where
  images := b.tables.images.toArray
  strings := b.tables.strings.toArray
  floatLists := b.tables.floatLists.toArray
  gradients := b.gradients.entries

/-- The finished nodes of an open scope have the steps written down for it. -/
inductive FrameDraws (r : Resources) : GraphFrame → SketchFrame → Prop
  | group {attrs : GroupAttrs} {children : Array Node} {inner : List PaintStep}
      (hinner : Node.stepsAll r children.toList = .ok inner) :
    FrameDraws r ⟨.group attrs, children⟩
      ⟨.group attrs.exportId, .beginGroup attrs.transform attrs.alpha :: inner⟩
  | mask {children : Array Node} {inner : List PaintStep}
      (hinner : Node.stepsAll r children.toList = .ok inner) :
    FrameDraws r ⟨.mask, children⟩ ⟨.mask, .beginMask :: inner⟩
  | maskContent {nodes : List Node} {children : Array Node} {first inner : List PaintStep}
      (hfirst : Node.stepsAll r nodes = .ok first)
      (hinner : Node.stepsAll r children.toList = .ok inner) :
    FrameDraws r ⟨.maskContent nodes, children⟩
      ⟨.maskContent, .beginMask :: (first ++ .maskContent :: inner)⟩

theorem FrameDraws.mono {r r' : Resources} (hr : r.ExtendedBy r') {f : GraphFrame}
    {g : SketchFrame} (h : FrameDraws r f g) : FrameDraws r' f g := by
  cases h with
  | group hinner => exact .group (Node.stepsAll_mono hr hinner)
  | mask hinner => exact .mask (Node.stepsAll_mono hr hinner)
  | maskContent hfirst hinner =>
    exact .maskContent (Node.stepsAll_mono hr hfirst) (Node.stepsAll_mono hr hinner)

/-- One more node in a scope. -/
theorem FrameDraws.push {r : Resources} {f : GraphFrame} {g : SketchFrame} (h : FrameDraws r f g)
    {node : Node} {steps : List PaintStep} (hnode : Node.steps r node = .ok steps) :
    FrameDraws r { f with children := f.children.push node }
      { g with steps := g.steps ++ steps } := by
  cases h with
  | group hinner => exact .group (Node.stepsAll_push hinner hnode)
  | mask hinner => exact .mask (Node.stepsAll_push hinner hnode)
  | maskContent hfirst hinner =>
    rw [List.cons_append, List.append_assoc, List.cons_append]
    exact .maskContent hfirst (Node.stepsAll_push hinner hnode)

/-- A builder and a sketch hold the same drawing, the gradients of the sketch renumbered by
`ids`. -/
structure Portrays (b : GraphBuilder) (ids : Array GradientId) (s : Sketch) : Prop where
  document : b.document = s.document
  matching : (Renaming.gradientsBy (lookup ids .gradient)).Matches s.resources b.resources
  root : Node.stepsAll b.resources b.root.toList = .ok s.root
  frames : List.Forall₂ (FrameDraws b.resources) b.frames s.frames
  exports : List.Forall₂ (fun e e' => e.1 = e'.1 ∧ Node.steps b.resources e.2 = .ok e'.2)
    b.exports s.exports
  count : ids.size = s.resources.gradients.size
  fewer : b.gradients.size ≤ s.resources.gradients.size

variable {b : GraphBuilder} {ids : Array GradientId} {s : Sketch}

theorem portrays_start (stamp : Nat) (shareNodes : Bool) (seed : NodeCache) :
    (start stamp shareNodes seed).Portrays #[] .empty := by
  refine ⟨rfl, ⟨?_, ?_, ?_, ?_⟩, rfl, .nil, .nil, rfl, Nat.le_refl _⟩
  · intro i j v _ h
    exact absurd (lookup_eq_ok_iff.mp h) (by simp [Sketch.empty])
  · intro i j v _ h
    exact absurd (lookup_eq_ok_iff.mp h) (by simp [Sketch.empty])
  · intro i j v _ h
    exact absurd (lookup_eq_ok_iff.mp h) (by simp [Sketch.empty])
  · intro i j v _ h
    exact absurd (lookup_eq_ok_iff.mp h) (by simp [Sketch.empty])

/-- A finished node is added on both sides. -/
theorem Portrays.attach (h : b.Portrays ids s) {node : Node} {steps : List PaintStep}
    (hnode : Node.steps b.resources node = .ok steps) :
    (b.attach node).Portrays ids (s.draw steps) := by
  have hframes := h.frames
  unfold GraphBuilder.attach Sketch.draw
  generalize hb : b.frames = frames at hframes
  generalize hs : s.frames = frames' at hframes
  cases hframes with
  | nil =>
    exact ⟨h.document, h.matching, Node.stepsAll_push h.root hnode, .nil, h.exports, h.count, h.fewer⟩
  | cons hfirst hrest =>
    exact ⟨h.document, h.matching, h.root, .cons (hfirst.push hnode) hrest, h.exports, h.count, h.fewer⟩

/-- Sharing is not part of the drawing. -/
theorem Portrays.share (h : b.Portrays ids s) (sharing : Sharing) :
    ({ b with sharing := sharing } : GraphBuilder).Portrays ids s :=
  ⟨h.document, h.matching, h.root, h.frames, h.exports, h.count, h.fewer⟩

/-- An export stands for the same group on both sides. -/
theorem Portrays.lookup_export (h : b.Portrays ids s) {id : StringId} {group : List PaintStep}
    (hgroup : s.exports.lookup id = some group) :
    ∃ node, b.exports.lookup id = some node ∧ Node.steps b.resources node = .ok group := by
  have hexports := h.exports
  generalize b.exports = exports at hexports
  generalize s.exports = exports' at hexports hgroup
  induction hexports with
  | nil => cases hgroup
  | @cons e e' l l' hfirst hrest ih =>
    obtain ⟨name, node⟩ := e
    obtain ⟨name', steps⟩ := e'
    obtain ⟨rfl, hsteps⟩ := hfirst
    by_cases hid : id = name
    · subst hid
      simp only [List.lookup_cons_self, Option.some.injEq] at hgroup
      subst hgroup
      exact ⟨node, List.lookup_cons_self, hsteps⟩
    · rw [List.lookup_cons, beq_eq_false_iff_ne.mpr hid] at hgroup
      obtain ⟨node', hnode, hsteps'⟩ := ih hgroup
      refine ⟨node', ?_, hsteps'⟩
      rw [List.lookup_cons, beq_eq_false_iff_ne.mpr hid]
      exact hnode

theorem Portrays.openScope (h : b.Portrays ids s) {f : GraphFrame} {g : SketchFrame}
    (hframe : FrameDraws b.resources f g) :
    ({ b with frames := f :: b.frames } : GraphBuilder).Portrays ids
      { s with frames := g :: s.frames } :=
  ⟨h.document, h.matching, h.root, .cons hframe h.frames, h.exports, h.count, h.fewer⟩

/-- The innermost scopes correspond, and so do the outer ones. -/
private theorem Portrays.close (h : b.Portrays ids s) {g : SketchFrame} {outer : List SketchFrame}
    (hs : s.frames = g :: outer) :
    ∃ f rest, b.frames = f :: rest ∧ FrameDraws b.resources f g ∧
      ({ b with frames := rest } : GraphBuilder).Portrays ids { s with frames := outer } := by
  have hframes := h.frames
  rw [hs] at hframes
  generalize hb : b.frames = frames at hframes
  cases hframes with
  | @cons f _ rest _ hfirst hrest =>
    exact ⟨f, rest, rfl, hfirst, h.document, h.matching, h.root, hrest, h.exports, h.count, h.fewer⟩

/-! The leaves of a call whose gradients are renumbered have the steps of the sketch. -/

private theorem Portrays.shapeStep (h : b.Portrays ids s) {leaf : Shape} {q : Paint}
    {step : PaintStep} (hq : leaf.paint.mapGradients (lookup ids .gradient) = .ok q)
    (hstep : s.resources.shapeStep leaf = .ok step) :
    b.resources.shapeStep { leaf with paint := q } = .ok step :=
  Resources.shapeStep_renames (s := leaf) h.matching rfl (Paint.mapGradients_renames hq) rfl hstep

private theorem Portrays.textStep (h : b.Portrays ids s) {leaf : TextLeaf} {q : Paint}
    {step : PaintStep} (hq : leaf.paint.mapGradients (lookup ids .gradient) = .ok q)
    (hstep : s.resources.textStep leaf = .ok step) :
    b.resources.textStep { leaf with paint := q } = .ok step := by
  have hidentity := TextLeaf.renames_identity leaf
  exact Resources.textStep_renames (s := leaf) h.matching
    ⟨rfl, hidentity.family, rfl, rfl, rfl, Paint.mapGradients_renames hq, rfl⟩ hstep

/-- Registering a gradient on both sides. The builder may know it already. -/
private theorem Portrays.gradient (h : b.Portrays ids s) {g : Gradient}
    (hroom : s.resources.gradients.size < 2 ^ 32) :
    ∃ table id, b.gradients.intern g = .ok (table, id) ∧
      ({ b with gradients := table } : GraphBuilder).Portrays (ids.push id)
        { s with resources :=
          { s.resources with gradients := s.resources.gradients.push g } } := by
  have hsize := Nat.lt_of_le_of_lt h.fewer hroom
  obtain ⟨table, id, hintern⟩ := CanonicalTable.intern_progress b.gradients g hsize
  obtain ⟨hextends, hentry, -, hcount⟩ := CanonicalTable.intern_ok (Nat.le_of_lt hsize) hintern
  have hresources : b.resources.ExtendedBy { b.resources with gradients := table.entries } := by
    refine ⟨?_, ?_, ?_, ?_⟩
    · rintro i j v rfl hv
      exact hv
    · rintro i j v rfl hv
      exact hv
    · rintro i j v rfl hv
      exact hv
    · rintro i j g' rfl hg'
      exact ⟨g', hextends.lookup_eq_ok hg', rfl, rfl, rfl, rfl, rfl⟩
  refine ⟨table, id, hintern, h.document, ?_, Node.stepsAll_mono hresources h.root, ?_, ?_, ?_, ?_⟩
  · refine ⟨h.matching.images, h.matching.strings, h.matching.floatLists, ?_⟩
    intro i j g' hij hg'
    have hid := lookup_eq_ok_iff.mp hij
    have hgradient := lookup_eq_ok_iff.mp hg'
    rw [Array.getElem?_push] at hid hgradient
    rw [← h.count] at hgradient
    split at hid
    · next hi =>
      rw [if_pos hi] at hgradient
      cases hid
      cases hgradient
      exact ⟨g, lookup_eq_ok_iff.mpr hentry, rfl, rfl, rfl, rfl, rfl⟩
    · next hi =>
      rw [if_neg hi] at hgradient
      obtain ⟨g'', hg'', hrenames⟩ := h.matching.gradients i j g' (lookup_eq_ok_iff.mpr hid)
        (lookup_eq_ok_iff.mpr hgradient)
      obtain ⟨hkind, hoffsets, hcolors, hspread, htransform⟩ := hrenames
      exact ⟨g'', hextends.lookup_eq_ok hg'', hkind, hoffsets, hcolors, hspread, htransform⟩
  · exact h.frames.imp fun _ _ hf => hf.mono hresources
  · exact h.exports.imp fun _ _ he => ⟨he.1, Node.steps_mono hresources he.2⟩
  · show (ids.push id).size = (s.resources.gradients.push g).size
    rw [Array.size_push, Array.size_push, h.count]
  · show table.size ≤ (s.resources.gradients.push g).size
    rw [Array.size_push]
    exact Nat.le_trans hcount (Nat.succ_le_succ h.fewer)

variable {b' : GraphBuilder} {t : Sketch} {call call' : Call} {reply reply' : Reply}

/-- Nothing has been drawn, opened, exported or registered. -/
structure Blank (b : GraphBuilder) (s : Sketch) : Prop where
  nodes : b.root = #[]
  root : s.root = []
  frames : s.frames = []
  exports : s.exports = []
  gradients : s.resources.gradients = #[]

private theorem Portrays.init (h : b.Portrays ids s) (hblank : Blank b s) (tables : Tables)
    (sharing : Sharing) :
    ({ b with sharing := sharing, tables := tables } : GraphBuilder).Portrays ids
      { s with resources := ⟨tables.images.toArray, tables.strings.toArray,
        tables.floatLists.toArray, s.resources.gradients⟩ } := by
  have hframes := h.frames
  have hexports := h.exports
  rw [hblank.frames] at hframes
  rw [hblank.exports] at hexports
  refine ⟨h.document, ⟨?_, ?_, ?_, ?_⟩, ?_, ?_, ?_, h.count, h.fewer⟩
  · rintro i j v rfl hv
    exact hv
  · rintro i j v rfl hv
    exact hv
  · rintro i j v rfl hv
    exact hv
  · intro i j g _ hg
    have hentry := lookup_eq_ok_iff.mp hg
    rw [hblank.gradients] at hentry
    simp at hentry
  · show Node.stepsAll _ b.root.toList = .ok s.root
    rw [hblank.nodes, hblank.root]
    rfl
  · show List.Forall₂ _ b.frames s.frames
    rw [List.forall₂_nil_right_iff.mp hframes, hblank.frames]
    exact .nil
  · show List.Forall₂ _ b.exports s.exports
    rw [List.forall₂_nil_right_iff.mp hexports, hblank.exports]
    exact .nil

/-- A group is remembered under its name on both sides. -/
private theorem Portrays.remember (h : b.Portrays ids s) (exportId : Option StringId) {node : Node}
    {group : List PaintStep} (hnode : Node.steps b.resources node = .ok group) :
    (b.remember exportId node).Portrays ids
      { s with exports := exportId.toList.map (fun id => (id, group)) ++ s.exports } := by
  cases exportId with
  | none => exact h
  | some id =>
    exact ⟨h.document, h.matching, h.root, h.frames, .cons ⟨rfl, hnode⟩ h.exports, h.count, h.fewer⟩

private theorem attach_remember (b : GraphBuilder) (exportId : Option StringId) (node : Node) :
    (b.attach node).remember exportId node = (b.remember exportId node).attach node := by
  cases exportId with
  | none => rfl
  | some id =>
    simp only [GraphBuilder.remember, attach]
    split <;> rfl

private theorem resources_remember (b : GraphBuilder) (exportId : Option StringId) (node : Node) :
    (b.remember exportId node).resources = b.resources := by
  cases exportId <;> rfl

/-- A builder and a sketch that hold the same drawing hold the same drawing after a call. -/
private theorem Portrays.step (h : b.Portrays ids s) (hblank : ∀ t, call = .init t → Blank b s)
    (hmap : call.mapGradients (lookup ids .gradient) = .ok call')
    (hsketch : s.perform call = .ok (t, reply)) (hbuilds : b.Builds call' b' reply') :
    b'.Portrays (reply'.known ids) t := by
  cases call with
  | init tables =>
    cases hmap
    cases hsketch
    cases hbuilds with
    | init _ sharing => exact h.init (hblank tables rfl) tables sharing
  | document d =>
    cases hmap
    cases hsketch
    cases hbuilds with
    | document => exact ⟨rfl, h.matching, h.root, h.frames, h.exports, h.count, h.fewer⟩
  | gradient g =>
    cases hmap
    obtain ⟨id, hid, hsketch⟩ := bind_eq_ok.mp hsketch
    cases hsketch
    obtain ⟨table, id', hintern, hportrays⟩ := h.gradient (nextIndex_ok hid).1 (g := g)
    cases hbuilds with
    | gradient hintern' =>
      cases Except.ok.inj (hintern.symm.trans hintern')
      exact hportrays
  | beginGroup attrs =>
    cases hmap
    cases hsketch
    cases hbuilds with
    | beginGroup => exact h.openScope (.group rfl)
  | endGroup =>
    cases hmap
    obtain ⟨exportId, steps, outer, hframes, rfl, -⟩ := Sketch.perform_endGroup_eq_ok.mp hsketch
    obtain ⟨f, rest, hf, hdraws, hclosed⟩ := h.close hframes
    cases hbuilds with
    | @endGroup attrs children rest' hframes' sharing node i transform htransform hnode =>
      cases hf.symm.trans hframes'
      cases hdraws with
      | @group _ _ inner hinner =>
        have hsteps : Node.steps b.resources node =
            .ok (.beginGroup attrs.transform attrs.alpha :: (inner ++ [.endGroup])) := by
          rw [hnode, ← htransform]
          exact Node.steps_group_eq_ok.mpr ⟨inner, hinner, rfl⟩
        rw [attach_remember]
        refine Portrays.attach ((hclosed.share sharing).remember attrs.exportId hsteps) ?_
        rw [resources_remember]
        exact hsteps
  | clip c =>
    cases hmap
    cases hsketch
    cases hbuilds with
    | @clip _ sharing i path transform hpath htransform =>
      refine (h.share sharing).attach ?_
      rw [Node.steps_clip_eq_ok, hpath, htransform]
  | beginMask =>
    cases hmap
    cases hsketch
    cases hbuilds with
    | beginMask => exact h.openScope (.mask rfl)
  | maskContent =>
    cases hmap
    obtain ⟨steps, outer, hframes, rfl, -⟩ := Sketch.perform_maskContent_eq_ok.mp hsketch
    obtain ⟨f, rest, hf, hdraws, hclosed⟩ := h.close hframes
    cases hbuilds with
    | maskContent hframes' =>
      cases hf.symm.trans hframes'
      cases hdraws with
      | mask hinner => exact hclosed.openScope (.maskContent hinner rfl)
  | endMask =>
    cases hmap
    obtain ⟨steps, outer, hframes, rfl, -⟩ := Sketch.perform_endMask_eq_ok.mp hsketch
    obtain ⟨f, rest, hf, hdraws, hclosed⟩ := h.close hframes
    cases hbuilds with
    | endMask hframes' sharing i =>
      cases hf.symm.trans hframes'
      cases hdraws with
      | maskContent hfirst hinner =>
        refine (hclosed.share sharing).attach ?_
        refine Node.steps_masked_eq_ok.mpr ⟨_, _, hfirst, hinner, ?_⟩
        simp only [List.cons_append, List.append_assoc]
  | shape leaf =>
    obtain ⟨q, hq, rfl⟩ := map_eq_ok.mp hmap
    obtain ⟨step, hstep, hsketch⟩ := bind_eq_ok.mp hsketch
    cases hsketch
    cases hbuilds with
    | @shape _ sharing i geometry paint transform hgeometry hpaint htransform =>
      have hleaf := h.shapeStep hq hstep
      refine (h.share sharing).attach (Node.steps_shape_eq_ok.mpr ⟨step, ?_, rfl⟩)
      rw [hgeometry, hpaint, htransform]
      exact hleaf
  | image leaf =>
    cases hmap
    obtain ⟨step, hstep, hsketch⟩ := bind_eq_ok.mp hsketch
    cases hsketch
    cases hbuilds with
    | image _ sharing i =>
      have hleaf := Resources.imageStep_renames h.matching rfl rfl rfl hstep
      exact (h.share sharing).attach (Node.steps_image_eq_ok.mpr ⟨step, hleaf, rfl⟩)
  | text leaf =>
    obtain ⟨q, hq, rfl⟩ := map_eq_ok.mp hmap
    obtain ⟨step, hstep, hsketch⟩ := bind_eq_ok.mp hsketch
    cases hsketch
    cases hbuilds with
    | text _ sharing i =>
      have hleaf := h.textStep hq hstep
      exact (h.share sharing).attach (Node.steps_text_eq_ok.mpr ⟨step, hleaf, rfl⟩)
  | use u =>
    cases hmap
    obtain ⟨group, hgroup, rfl, -⟩ := Sketch.perform_use_eq_ok.mp hsketch
    obtain ⟨node, hnode, hsteps⟩ := h.lookup_export hgroup
    cases hbuilds with
    | @use _ target htarget sharing i transform htransform =>
      cases hnode.symm.trans htarget
      rw [← htransform]
      exact (h.share sharing).attach (Node.steps_use_eq_ok.mpr ⟨group, hsteps, rfl⟩)

/-- What a sketch can perform, a builder with the same drawing is ready for. -/
private theorem Portrays.ready (h : b.Portrays ids s)
    (hmap : call.mapGradients (lookup ids .gradient) = .ok call')
    (hsketch : s.perform call = .ok (t, reply)) : b.Ready call' := by
  cases call with
  | gradient g =>
    cases hmap
    obtain ⟨id, hid, -⟩ := bind_eq_ok.mp hsketch
    obtain ⟨table, id', hintern⟩ := CanonicalTable.intern_progress b.gradients g
      (Nat.lt_of_le_of_lt h.fewer (nextIndex_ok hid).1)
    exact ⟨_, hintern⟩
  | endGroup =>
    cases hmap
    obtain ⟨exportId, steps, outer, hframes, -⟩ := Sketch.perform_endGroup_eq_ok.mp hsketch
    obtain ⟨f, rest, hf, hdraws, -⟩ := h.close hframes
    cases hdraws with
    | group hinner => exact ⟨_, _, _, hf⟩
  | maskContent =>
    cases hmap
    obtain ⟨steps, outer, hframes, -⟩ := Sketch.perform_maskContent_eq_ok.mp hsketch
    obtain ⟨f, rest, hf, hdraws, -⟩ := h.close hframes
    cases hdraws with
    | mask hinner => exact ⟨_, _, hf⟩
  | endMask =>
    cases hmap
    obtain ⟨steps, outer, hframes, -⟩ := Sketch.perform_endMask_eq_ok.mp hsketch
    obtain ⟨f, rest, hf, hdraws, -⟩ := h.close hframes
    cases hdraws with
    | maskContent hfirst hinner => exact ⟨_, _, _, hf⟩
  | use u =>
    cases hmap
    obtain ⟨group, hgroup, -⟩ := Sketch.perform_use_eq_ok.mp hsketch
    obtain ⟨node, hnode, -⟩ := h.lookup_export hgroup
    exact ⟨node, hnode⟩
  | shape leaf =>
    obtain ⟨q, -, rfl⟩ := map_eq_ok.mp hmap
    trivial
  | text leaf =>
    obtain ⟨q, -, rfl⟩ := map_eq_ok.mp hmap
    trivial
  | _ =>
    cases hmap
    trivial

/-- Places of two replays of one stream, into a sketch and into a builder. -/
structure Portrait (stamps : List Nat) (p : Position Sketch) (q : Position GraphBuilder) : Prop where
  current : Sketch.Current p
  nesting : q.session.nesting = p.session.nesting
  portrays : q.session.state.Portrays q.ids p.session.state
  coherent : ∃ items, q.session.state.Coherent stamps items
  fresh : q.session.nesting.phase = .fresh → q.session.state.root = #[]

private theorem Portrait.blank {stamps : List Nat} {p : Position Sketch}
    {q : Position GraphBuilder} (h : Portrait stamps p q)
    (hphase : p.session.nesting.phase = .fresh) : Blank q.session.state p.session.state := by
  obtain ⟨hscopes, hexported⟩ := h.current.sound.fresh hphase
  obtain ⟨hroot, hgradients⟩ := h.current.follows.fresh hphase
  exact ⟨h.fresh (h.nesting ▸ hphase), hroot,
    List.map_eq_nil_iff.mp (h.current.follows.scopes.trans hscopes),
    List.map_eq_nil_iff.mp (h.current.follows.exported.trans hexported), hgradients⟩

/-- A call that a sketch takes, a builder takes. -/
private theorem Portrait.step {stamps : List Nat} {p p' : Position Sketch}
    {q : Position GraphBuilder} (h : Portrait stamps p q) {call : Call}
    (hstep : Sketch.backend.Advances p call p') :
    ∃ q', backend.Advances q call q' ∧ Portrait stamps p' q' := by
  obtain ⟨reply, haccept, hsketch, hids, hcurrent⟩ := h.current.of_advances hstep
  have hcount := h.portrays.count
  obtain ⟨call', hmap⟩ := haccept.mapGradients_progress (f := lookup q.ids .gradient) fun i hi => by
    obtain ⟨j, -, hj⟩ := Resources.lookup_progress .gradient
      (h.current.count.trans hcount.symm ▸ hi)
    exact ⟨j, hj⟩
  have hregistered : ∀ i j : GradientId, lookup q.ids .gradient i = .ok j →
      j.toNat < q.session.state.gradients.size := by
    intro i j hij
    obtain ⟨hi, -⟩ := Array.getElem?_eq_some_iff.mp (lookup_eq_ok_iff.mp hij)
    obtain ⟨g, -, hg⟩ := Resources.lookup_progress .gradient (hcount ▸ hi)
    obtain ⟨g', hg', -⟩ := h.portrays.matching.gradients i j g hij hg
    exact (Array.getElem?_eq_some_iff.mp (lookup_eq_ok_iff.mp hg')).1
  obtain ⟨b', reply', hperform⟩ := perform_of_ready (h.portrays.ready hmap hsketch)
  obtain ⟨items, hcoherent⟩ := h.coherent
  obtain ⟨hbuilds, hcoherent'⟩ := perform_spec hcoherent hperform
  have hblank : ∀ t, call = .init t → Blank q.session.state p.session.state := by
    rintro t rfl
    exact h.blank haccept.phase_of_init
  have hportrays := h.portrays.step hblank hmap hsketch hbuilds
  refine ⟨⟨reply'.known q.ids, ⟨p'.session.nesting, b'⟩⟩, ?_, hcurrent, rfl, hportrays,
    hcoherent', ?_⟩
  · refine .step hmap ?_ hperform
    rw [h.nesting]
    exact haccept.mapGradients hmap hregistered
  · exact fun hphase => absurd hphase (haccept.phase_ne h.current.sound)

end GraphBuilder

/-- A stream that has a sketch has a shared tree, built from any cache of earlier builds with
nodes shared or not, and the tree draws what the sketch says. -/
theorem GraphImage.ofCalls_of_sketch {calls : List Call} {s : Sketch}
    (h : Sketch.backend.replay .empty calls = .ok s) {stamps : List Nat} {seed : NodeCache}
    (hseed : seed.Grown stamps) {stamp : Nat} (hstamp : stamp ∉ stamps) (shareNodes : Bool) :
    ∃ g, GraphImage.ofCalls stamp shareNodes seed calls = .ok g ∧
      g.primitives = .ok s.primitives ∧ g.document = s.document := by
  obtain ⟨p, hruns, hclosed, hcomplete⟩ := Backend.replay_eq_ok.mp h
  cases hcomplete
  obtain ⟨items, hfounded⟩ := hseed.founded
  have hstart : GraphBuilder.Portrait (stamp :: stamps) (.start .empty)
      (.start (.start stamp shareNodes seed)) :=
    ⟨Sketch.current_start, rfl, GraphBuilder.portrays_start stamp shareNodes seed,
      ⟨items, GraphBuilder.coherent_start hfounded hstamp shareNodes⟩, fun _ => rfl⟩
  obtain ⟨q, hruns', hq⟩ := hruns.simulate (f := id)
    (R := fun _ => GraphBuilder.Portrait (stamp :: stamps))
    (fun _ hp hstep => hp.step hstep) hstart
  rw [List.map_id] at hruns'
  obtain ⟨-, hscopes⟩ := Nesting.checkClosed_eq_ok.mp hclosed
  have hframes : q.session.state.frames = [] := by
    have hall := hq.portrays.frames
    rw [List.map_eq_nil_iff.mp (hq.current.follows.scopes.trans hscopes)] at hall
    exact List.forall₂_nil_right_iff.mp hall
  have hfinished := GraphBuilder.complete_eq_ok.mpr ⟨hframes, rfl⟩
  refine ⟨_, Backend.replay_eq_ok.mpr ⟨q, hruns', hq.nesting ▸ hclosed, hfinished⟩, ?_,
    hq.portrays.document⟩
  exact bind_eq_ok.mpr ⟨_, Node.drawAll_of_steps hq.portrays.root _, rfl⟩

end VectorImage
