import VectorImage.Proofs.Call.Replay
import VectorImage.Proofs.Canonical.Table
import VectorImage.Proofs.Drawing.Step

/-!
What a stream of calls draws, said without an image. A sketch follows the calls and writes down
the painter's steps; the steps of an exported group are kept, and a use repeats them. A sketch
runs on every stream that the nesting check accepts.
-/

set_option autoImplicit false
set_option relaxedAutoImplicit false

namespace VectorImage

/-- An open scope of a sketch: its steps from the one that opens it. -/
structure SketchFrame where
  scope : Scope
  steps : List PaintStep

/-- Frames are listed innermost first; `root` holds the steps of the top level. -/
structure Sketch where
  document : Document
  resources : Resources
  root : List PaintStep
  frames : List SketchFrame
  exports : List (StringId × List PaintStep)

namespace Sketch

def empty : Sketch := ⟨.empty, ⟨#[], #[], #[], #[]⟩, [], [], []⟩

/-- Write steps down in the innermost scope. -/
def draw (s : Sketch) (steps : List PaintStep) : Sketch :=
  match s.frames with
  | [] => { s with root := s.root ++ steps }
  | f :: rest => { s with frames := { f with steps := f.steps ++ steps } :: rest }

def openScope (s : Sketch) (scope : Scope) (step : PaintStep) : Sketch :=
  { s with frames := ⟨scope, [step]⟩ :: s.frames }

/-- Perform an accepted call. -/
def perform (s : Sketch) : Call → Except Error (Sketch × Reply)
  | .init t =>
    .ok ({ s with resources :=
      ⟨t.images.toArray, t.strings.toArray, t.floatLists.toArray, s.resources.gradients⟩ }, .done)
  | .document d => .ok ({ s with document := d }, .done)
  | .gradient g => do
    let id ← nextIndex s.resources.gradients.size
    return ({ s with resources :=
      { s.resources with gradients := s.resources.gradients.push g } }, .gradient id)
  | .beginGroup attrs =>
    .ok (s.openScope (.group attrs.exportId) (.beginGroup attrs.transform attrs.alpha), .done)
  | .endGroup =>
    match s.frames with
    | ⟨.group exportId, steps⟩ :: rest =>
      let group := steps ++ [.endGroup]
      .ok ({ s with
        frames := rest
        exports := exportId.toList.map (fun id => (id, group)) ++ s.exports }.draw group, .done)
    | _ => .error (.format .scopeMismatch)
  | .clip c => .ok (s.draw [.clip c], .done)
  | .beginMask => .ok (s.openScope .mask .beginMask, .done)
  | .maskContent =>
    match s.frames with
    | ⟨.mask, steps⟩ :: rest =>
      .ok ({ s with frames := ⟨.maskContent, steps ++ [.maskContent]⟩ :: rest }, .done)
    | _ => .error (.format .scopeMismatch)
  | .endMask =>
    match s.frames with
    | ⟨.maskContent, steps⟩ :: rest =>
      .ok ({ s with frames := rest }.draw (steps ++ [PaintStep.endMask]), .done)
    | _ => .error (.format .scopeMismatch)
  | .shape leaf => do
    let step ← s.resources.shapeStep leaf
    return (s.draw [step], .done)
  | .image leaf => do
    let step ← s.resources.imageStep leaf
    return (s.draw [step], .done)
  | .text leaf => do
    let step ← s.resources.textStep leaf
    return (s.draw [step], .done)
  | .use u =>
    match s.exports.lookup u.target with
    | some group => .ok (s.draw (.beginUse u.transform :: (group ++ [.endUse])), .done)
    | none => .error (.structural (.useUnresolved u.target))

/-! The calls that close a scope or place a group, taken apart. -/

theorem perform_endGroup_eq_ok {s t : Sketch} {reply : Reply} :
    s.perform .endGroup = .ok (t, reply) ↔
      ∃ exportId steps outer, s.frames = ⟨.group exportId, steps⟩ :: outer ∧
        t = Sketch.draw { s with
          frames := outer
          exports := exportId.toList.map (fun id => (id, steps ++ [.endGroup])) ++ s.exports }
            (steps ++ [.endGroup]) ∧ reply = .done := by
  rw [perform]
  constructor
  · intro h
    split at h
    · next exportId steps outer hframes =>
      cases h
      exact ⟨exportId, steps, outer, hframes, rfl, rfl⟩
    · cases h
  · rintro ⟨exportId, steps, outer, hframes, rfl, rfl⟩
    rw [hframes]

theorem perform_maskContent_eq_ok {s t : Sketch} {reply : Reply} :
    s.perform .maskContent = .ok (t, reply) ↔
      ∃ steps outer, s.frames = ⟨.mask, steps⟩ :: outer ∧
        t = { s with frames := ⟨.maskContent, steps ++ [.maskContent]⟩ :: outer } ∧
          reply = .done := by
  rw [perform]
  constructor
  · intro h
    split at h
    · next steps outer hframes =>
      cases h
      exact ⟨steps, outer, hframes, rfl, rfl⟩
    · cases h
  · rintro ⟨steps, outer, hframes, rfl, rfl⟩
    rw [hframes]

theorem perform_endMask_eq_ok {s t : Sketch} {reply : Reply} :
    s.perform .endMask = .ok (t, reply) ↔
      ∃ steps outer, s.frames = ⟨.maskContent, steps⟩ :: outer ∧
        t = Sketch.draw { s with frames := outer } (steps ++ [.endMask]) ∧ reply = .done := by
  rw [perform]
  constructor
  · intro h
    split at h
    · next steps outer hframes =>
      cases h
      exact ⟨steps, outer, hframes, rfl, rfl⟩
    · cases h
  · rintro ⟨steps, outer, hframes, rfl, rfl⟩
    rw [hframes]

theorem perform_use_eq_ok {s t : Sketch} {u : UseRef} {reply : Reply} :
    s.perform (.use u) = .ok (t, reply) ↔
      ∃ group, s.exports.lookup u.target = some group ∧
        t = s.draw (.beginUse u.transform :: (group ++ [.endUse])) ∧ reply = .done := by
  rw [perform]
  constructor
  · intro h
    split at h
    · next group hgroup =>
      cases h
      exact ⟨group, hgroup, rfl, rfl⟩
    · cases h
  · rintro ⟨group, hgroup, rfl, rfl⟩
    rw [hgroup]

def backend : Backend Sketch Sketch where
  gradientCount s := s.resources.gradients.size
  perform := perform
  complete s := .ok s

/-- What the steps of the top level paint. -/
def primitives (s : Sketch) : List Primitive := (Painter.start.follow s.root).finish

@[simp]
theorem draw_document (s : Sketch) (steps : List PaintStep) :
    (s.draw steps).document = s.document := by
  unfold draw
  split <;> rfl

@[simp]
theorem draw_resources (s : Sketch) (steps : List PaintStep) :
    (s.draw steps).resources = s.resources := by
  unfold draw
  split <;> rfl

@[simp]
theorem draw_exports (s : Sketch) (steps : List PaintStep) :
    (s.draw steps).exports = s.exports := by
  unfold draw
  split <;> rfl

@[simp]
theorem draw_scopes (s : Sketch) (steps : List PaintStep) :
    (s.draw steps).frames.map SketchFrame.scope = s.frames.map SketchFrame.scope := by
  unfold draw
  split
  · rfl
  · next h => simp [h]

@[simp]
theorem draw_nil (s : Sketch) : s.draw [] = s := by
  unfold draw
  split
  · simp
  · next h => simp [← h]

theorem draw_append (s : Sketch) (first rest : List PaintStep) :
    s.draw (first ++ rest) = (s.draw first).draw rest := by
  obtain ⟨document, resources, root, frames, exports⟩ := s
  cases frames <;> simp [draw]

/-- What has been remembered by name plays no part in drawing. -/
theorem draw_exporting (s : Sketch) (exports : List (StringId × List PaintStep))
    (steps : List PaintStep) :
    ({ s with exports := exports } : Sketch).draw steps = { s.draw steps with exports := exports } := by
  obtain ⟨document, resources, root, frames, exported⟩ := s
  cases frames <;> rfl

/-- The sketch has what the nesting check counts: its open scopes, its closed groups, the
lengths of its tables. -/
structure Follows (n : Nesting) (s : Sketch) : Prop where
  scopes : s.frames.map SketchFrame.scope = n.scopes
  exported : s.exports.map Prod.fst = n.exported
  images : s.resources.images.size = n.images
  strings : s.resources.strings.size = n.strings
  floatLists : s.resources.floatLists.size = n.floatLists
  offsets : ∀ g ∈ s.resources.gradients, g.offsets.toNat < n.floatLists
  fresh : n.phase = .fresh → s.root = [] ∧ s.resources.gradients = #[]

theorem follows_empty : Follows .start .empty := by
  refine ⟨rfl, rfl, rfl, rfl, rfl, ?_, fun _ => ⟨rfl, rfl⟩⟩
  intro g hg
  simp [empty] at hg

private theorem Follows.enter {n : Nesting} {s : Sketch} (h : Follows n s) :
    Follows { n with phase := .tree } s :=
  ⟨h.scopes, h.exported, h.images, h.strings, h.floatLists, h.offsets, fun he => nomatch he⟩

/-- Drawing changes nothing that the nesting check counts. -/
private theorem Follows.draw {n : Nesting} {s : Sketch} (h : Follows n s) (hphase : n.phase ≠ .fresh)
    (steps : List PaintStep) : Follows n (s.draw steps) := by
  refine ⟨?_, ?_, ?_, ?_, ?_, ?_, fun he => absurd he hphase⟩
  · rw [draw_scopes]
    exact h.scopes
  · rw [draw_exports]
    exact h.exported
  · rw [draw_resources]
    exact h.images
  · rw [draw_resources]
    exact h.strings
  · rw [draw_resources]
    exact h.floatLists
  · rw [draw_resources]
    exact h.offsets

private theorem frames_of_scopes {frames : List SketchFrame} {scope : Scope} {rest : List Scope}
    (h : frames.map SketchFrame.scope = scope :: rest) :
    ∃ steps outer, frames = ⟨scope, steps⟩ :: outer ∧ outer.map SketchFrame.scope = rest := by
  obtain ⟨⟨_, steps⟩, outer, hframes, rfl, hrest⟩ := List.map_eq_cons_iff.mp h
  exact ⟨steps, outer, hframes, hrest⟩

private theorem lookup_progress {α : Type} {l : List (StringId × α)} {id : StringId}
    (h : id ∈ l.map Prod.fst) : ∃ v, l.lookup id = some v := by
  induction l with
  | nil => cases h
  | cons e l ih =>
    by_cases he : id = e.1
    · exact ⟨e.2, by rw [he]; exact List.lookup_cons_self⟩
    · obtain ⟨v, hv⟩ := ih ((List.mem_cons.mp h).resolve_left he)
      refine ⟨v, ?_⟩
      rw [List.lookup_cons, beq_eq_false_iff_ne.mpr he]
      exact hv

/-- An accepted call is performed, as long as the next gradient has an id. -/
theorem Follows.perform {n m : Nesting} {s : Sketch} {call : Call} (h : Follows n s)
    (hsound : n.Sound) (haccept : Nesting.Accepted s.resources.gradients.size n call m)
    (hroom : ∀ g, call = .gradient g → s.resources.gradients.size < 2 ^ 32) :
    ∃ t reply, s.perform call = .ok (t, reply) ∧ Follows m t := by
  cases haccept with
  | init tables hphase =>
    refine ⟨_, _, rfl, ?_⟩
    obtain ⟨hroot, hgradients⟩ := h.fresh hphase
    refine ⟨h.scopes, h.exported, rfl, rfl, rfl, ?_, fun he => nomatch he⟩
    intro g hg
    rw [hgradients] at hg
    simp at hg
  | document d hphase =>
    exact ⟨_, _, rfl, h.scopes, h.exported, h.images, h.strings, h.floatLists, h.offsets,
      fun he => nomatch he⟩
  | gradient g hphase hoffsets =>
    refine ⟨_, _, bind_eq_ok.mpr ⟨_, nextIndex_eq_ok (hroom g rfl), rfl⟩, ?_⟩
    refine ⟨h.scopes, h.exported, h.images, h.strings, h.floatLists, ?_, fun he => nomatch he⟩
    intro g' hg'
    rcases Array.mem_push.mp hg' with hg' | rfl
    · exact h.offsets g' hg'
    · exact hoffsets
  | beginGroup attrs hphase hfree =>
    refine ⟨_, _, rfl, ?_, h.exported, h.images, h.strings, h.floatLists, h.offsets,
      fun he => nomatch he⟩
    exact congrArg (Scope.group attrs.exportId :: ·) h.scopes
  | endGroup exportId rest hscopes =>
    obtain ⟨steps, outer, hframes, hrest⟩ := frames_of_scopes (h.scopes.trans hscopes)
    have hphase := hsound.phase_ne hscopes
    refine ⟨_, _, perform_endGroup_eq_ok.mpr ⟨_, _, _, hframes, rfl, rfl⟩, Follows.draw ?_ ?_ _⟩
    · refine ⟨hrest, ?_, h.images, h.strings, h.floatLists, h.offsets,
        fun he => absurd he hphase⟩
      cases exportId with
      | none => exact h.exported
      | some id => exact congrArg (id :: ·) h.exported
    · exact hphase
  | clip c hphase => exact ⟨_, _, rfl, h.enter.draw (fun he => nomatch he) _⟩
  | beginMask hphase =>
    refine ⟨_, _, rfl, ?_, h.exported, h.images, h.strings, h.floatLists, h.offsets,
      fun he => nomatch he⟩
    exact congrArg (Scope.mask :: ·) h.scopes
  | maskContent rest hscopes =>
    obtain ⟨steps, outer, hframes, hrest⟩ := frames_of_scopes (h.scopes.trans hscopes)
    refine ⟨_, _, perform_maskContent_eq_ok.mpr ⟨_, _, hframes, rfl, rfl⟩, ?_⟩
    exact ⟨congrArg (Scope.maskContent :: ·) hrest, h.exported, h.images, h.strings,
      h.floatLists, h.offsets, fun he => absurd he (hsound.phase_ne hscopes)⟩
  | endMask rest hscopes =>
    obtain ⟨steps, outer, hframes, hrest⟩ := frames_of_scopes (h.scopes.trans hscopes)
    have hphase := hsound.phase_ne hscopes
    refine ⟨_, _, perform_endMask_eq_ok.mpr ⟨_, _, hframes, rfl, rfl⟩, Follows.draw ?_ ?_ _⟩
    · exact ⟨hrest, h.exported, h.images, h.strings, h.floatLists, h.offsets,
        fun he => absurd he hphase⟩
    · exact hphase
  | shape leaf hphase hpaint =>
    rw [← h.floatLists] at hpaint
    obtain ⟨style, hstyle⟩ := Resources.resolvePaint_progress hpaint (h.floatLists ▸ h.offsets)
    exact ⟨_, _, bind_eq_ok.mpr ⟨_, bind_eq_ok.mpr ⟨style, hstyle, rfl⟩, rfl⟩, h.enter.draw (fun he => nomatch he) _⟩
  | image leaf hphase himage =>
    rw [← h.images] at himage
    obtain ⟨image, -, hvalue⟩ := Resources.lookup_progress .image himage
    exact ⟨_, _, bind_eq_ok.mpr ⟨_, bind_eq_ok.mpr ⟨image, hvalue, rfl⟩, rfl⟩, h.enter.draw (fun he => nomatch he) _⟩
  | text leaf hphase hpaint htext hfamily =>
    rw [← h.floatLists] at hpaint
    rw [← h.strings] at htext hfamily
    obtain ⟨run, hrun⟩ := Resources.resolveText_progress htext hfamily
    obtain ⟨style, hstyle⟩ := Resources.resolvePaint_progress hpaint (h.floatLists ▸ h.offsets)
    exact ⟨_, _, bind_eq_ok.mpr ⟨_, bind_eq_ok.mpr ⟨run, hrun,
      bind_eq_ok.mpr ⟨style, hstyle, rfl⟩⟩, rfl⟩, h.enter.draw (fun he => nomatch he) _⟩
  | use ref hphase htarget =>
    obtain ⟨group, hgroup⟩ := lookup_progress (h.exported ▸ htarget.exported)
    exact ⟨_, _, perform_use_eq_ok.mpr ⟨_, hgroup, rfl, rfl⟩, h.enter.draw (fun he => nomatch he) _⟩

/-- A gradient call adds its gradient and answers its number; no other call changes the
gradients. -/
theorem perform_gradients {s t : Sketch} {call : Call} {reply : Reply}
    (h : s.perform call = .ok (t, reply)) :
    (∃ g, call = .gradient g ∧ s.resources.gradients.size < 2 ^ 32 ∧
        reply = .gradient (UInt32.ofNat s.resources.gradients.size) ∧
        t.resources.gradients = s.resources.gradients.push g) ∨
      (∀ g, call ≠ .gradient g) ∧ reply = .done ∧
        t.resources.gradients = s.resources.gradients := by
  cases call with
  | gradient g =>
    obtain ⟨id, hid, h⟩ := bind_eq_ok.mp h
    cases h
    obtain ⟨hlt, rfl⟩ := nextIndex_ok hid
    exact Or.inl ⟨g, rfl, hlt, rfl, rfl⟩
  | init tables | document d | beginGroup attrs | beginMask =>
    cases h
    exact Or.inr ⟨fun _ => nofun, rfl, rfl⟩
  | clip c =>
    cases h
    exact Or.inr ⟨fun _ => nofun, rfl, by rw [draw_resources]⟩
  | shape leaf | image leaf | text leaf =>
    obtain ⟨step, -, h⟩ := bind_eq_ok.mp h
    cases h
    exact Or.inr ⟨fun _ => nofun, rfl, by rw [draw_resources]⟩
  | endGroup =>
    obtain ⟨exportId, steps, outer, -, rfl, rfl⟩ := perform_endGroup_eq_ok.mp h
    exact Or.inr ⟨fun _ => nofun, rfl, by rw [draw_resources]⟩
  | maskContent =>
    obtain ⟨steps, outer, -, rfl, rfl⟩ := perform_maskContent_eq_ok.mp h
    exact Or.inr ⟨fun _ => nofun, rfl, rfl⟩
  | endMask =>
    obtain ⟨steps, outer, -, rfl, rfl⟩ := perform_endMask_eq_ok.mp h
    exact Or.inr ⟨fun _ => nofun, rfl, by rw [draw_resources]⟩
  | use u =>
    obtain ⟨group, -, rfl, rfl⟩ := perform_use_eq_ok.mp h
    exact Or.inr ⟨fun _ => nofun, rfl, by rw [draw_resources]⟩

/-- A call of the tree leaves the document and the tables as they are. -/
theorem perform_resources {s t : Sketch} {call : Call} {reply : Reply} (htree : call.OfTree)
    (h : s.perform call = .ok (t, reply)) :
    t.document = s.document ∧
      t.resources = { s.resources with gradients := t.resources.gradients } := by
  cases call with
  | init tables | document d => cases htree
  | gradient g =>
    obtain ⟨id, -, h⟩ := bind_eq_ok.mp h
    cases h
    exact ⟨rfl, rfl⟩
  | beginGroup attrs | beginMask =>
    cases h
    exact ⟨rfl, rfl⟩
  | clip c =>
    cases h
    rw [draw_document, draw_resources]
    exact ⟨rfl, rfl⟩
  | shape leaf | image leaf | text leaf =>
    obtain ⟨step, -, h⟩ := bind_eq_ok.mp h
    cases h
    rw [draw_document, draw_resources]
    exact ⟨rfl, rfl⟩
  | endGroup =>
    obtain ⟨exportId, steps, outer, -, rfl, -⟩ := perform_endGroup_eq_ok.mp h
    rw [draw_document, draw_resources]
    exact ⟨rfl, rfl⟩
  | maskContent =>
    obtain ⟨steps, outer, -, rfl, -⟩ := perform_maskContent_eq_ok.mp h
    exact ⟨rfl, rfl⟩
  | endMask =>
    obtain ⟨steps, outer, -, rfl, -⟩ := perform_endMask_eq_ok.mp h
    rw [draw_document, draw_resources]
    exact ⟨rfl, rfl⟩
  | use u =>
    obtain ⟨group, -, rfl, -⟩ := perform_use_eq_ok.mp h
    rw [draw_document, draw_resources]
    exact ⟨rfl, rfl⟩

/-- A place in a replay into a sketch: the gradients are numbered in the order of their calls. -/
structure Current (p : Position Sketch) : Prop where
  sound : p.session.nesting.Sound
  follows : Follows p.session.nesting p.session.state
  count : p.ids.size = p.session.state.resources.gradients.size
  numbered : ∀ i j, lookup p.ids .gradient i = .ok j → i = j

theorem current_start : Current (.start .empty) := by
  refine ⟨Nesting.sound_start, follows_empty, rfl, ?_⟩
  intro i j hij
  have hnone := lookup_eq_ok_iff.mp hij
  simp [Position.start] at hnone

theorem numbered_push {ids : Array GradientId} (hlt : ids.size < 2 ^ 32)
    (h : ∀ i j, lookup ids .gradient i = .ok j → i = j) (i j : GradientId)
    (hij : lookup (ids.push (UInt32.ofNat ids.size)) .gradient i = .ok j) : i = j := by
  have hentry := lookup_eq_ok_iff.mp hij
  rw [Array.getElem?_push] at hentry
  split at hentry
  · next hi =>
    cases hentry
    apply UInt32.toNat_inj.mp
    rw [toNat_ofNat_of_lt hlt, hi]
  · exact h i j (lookup_eq_ok_iff.mpr hentry)

/-- A call that is accepted under its own names goes on, as long as the next gradient has an
id. -/
theorem Current.advances {p : Position Sketch} (h : Current p) {call : Call} {m : Nesting}
    (haccept : Nesting.Accepted p.ids.size p.session.nesting call m)
    (hroom : ∀ g, call = .gradient g → p.ids.size < 2 ^ 32) :
    ∃ t reply, p.session.state.perform call = .ok (t, reply) ∧
      backend.Advances p call ⟨reply.known p.ids, ⟨m, t⟩⟩ := by
  have hcounted := haccept
  rw [h.count] at hcounted hroom
  obtain ⟨t, reply, hperform, -⟩ := h.follows.perform h.sound hcounted hroom
  obtain ⟨renamed, hmap⟩ := haccept.mapGradients_progress
    (f := lookup p.ids .gradient) fun i hi => by
      obtain ⟨j, -, hj⟩ := Resources.lookup_progress .gradient hi
      exact ⟨j, hj⟩
  have hrenamed := Call.eq_of_mapGradients h.numbered hmap
  subst hrenamed
  exact ⟨t, reply, hperform, .step hmap hcounted hperform⟩

/-- What a step of a replay into a sketch is. -/
theorem Current.of_advances {p q : Position Sketch} (h : Current p) {call : Call}
    (hstep : backend.Advances p call q) :
    ∃ reply, Nesting.Accepted p.ids.size p.session.nesting call q.session.nesting ∧
      p.session.state.perform call = .ok (q.session.state, reply) ∧
      q.ids = reply.known p.ids ∧ Current q := by
  cases hstep with
  | @step renamed nesting t reply hmap haccept hperform =>
    have hrenamed := Call.eq_of_mapGradients h.numbered hmap
    subst hrenamed
    have hroom : ∀ g, renamed = .gradient g → p.session.state.resources.gradients.size < 2 ^ 32 := by
      rintro g rfl
      obtain ⟨id, hid, -⟩ := bind_eq_ok.mp hperform
      exact (nextIndex_ok hid).1
    obtain ⟨t', reply', hperform', hfollows⟩ := h.follows.perform h.sound haccept hroom
    have hsame : (t, reply) = (t', reply') := Except.ok.inj (hperform.symm.trans hperform')
    cases hsame
    refine ⟨reply, h.count ▸ haccept, hperform, rfl, h.sound.step haccept, hfollows, ?_, ?_⟩
    · rcases perform_gradients hperform with ⟨g, -, -, rfl, hgradients⟩ | ⟨-, rfl, hgradients⟩
      · show (p.ids.push _).size = t.resources.gradients.size
        rw [hgradients, Array.size_push, Array.size_push, h.count]
      · exact h.count.trans (congrArg Array.size hgradients).symm
    · rcases perform_gradients hperform with ⟨g, -, hlt, rfl, -⟩ | ⟨-, rfl, -⟩
      · rw [← h.count] at hlt ⊢
        exact numbered_push hlt h.numbered
      · exact h.numbered

/-- The sketch of a stream after its tables and its document. -/
theorem current_of_opening {tables : Tables} {d : Document} {rest : List Call} {q : Position Sketch}
    (h : backend.Runs (.start .empty) (.init tables :: .document d :: rest) q) :
    ∃ p, Current p ∧
      p.session.state = { empty with
        document := d
        resources := ⟨tables.images.toArray, tables.strings.toArray, tables.floatLists.toArray, #[]⟩ } ∧
      backend.Runs p rest q := by
  cases h with
  | @cons _ p₁ _ _ _ hinit hrest =>
    obtain ⟨_, -, hperform, -, hcurrent⟩ := current_start.of_advances hinit
    have hstate : { empty with resources :=
        ⟨tables.images.toArray, tables.strings.toArray, tables.floatLists.toArray, #[]⟩ } =
          p₁.session.state := congrArg Prod.fst (Except.ok.inj hperform)
    cases hrest with
    | @cons _ p₂ _ _ _ hdocument hruns =>
      obtain ⟨_, -, hperform', -, hcurrent'⟩ := hcurrent.of_advances hdocument
      have hstate' : { p₁.session.state with document := d } = p₂.session.state :=
        congrArg Prod.fst (Except.ok.inj hperform')
      refine ⟨p₂, hcurrent', ?_, hruns⟩
      rw [← hstate', ← hstate]

/-- Gradients are registered in order. -/
theorem Current.registers {p q : Position Sketch} (hp : Current p) {gradients : List Gradient}
    (h : backend.Runs p (gradients.map .gradient) q) :
    Current q ∧ q.session.state = { p.session.state with
      resources := { p.session.state.resources with
        gradients := (p.session.state.resources.gradients.toList ++ gradients).toArray } } := by
  induction gradients generalizing p with
  | nil =>
    cases h
    refine ⟨hp, ?_⟩
    rw [List.append_nil, Array.toArray_toList]
  | cons g gradients ih =>
    cases h with
    | cons hstep hrest =>
      obtain ⟨_, -, hperform, -, hcurrent⟩ := hp.of_advances hstep
      obtain ⟨_, -, hperform⟩ := bind_eq_ok.mp hperform
      obtain ⟨hstate, -⟩ := Prod.mk.inj (Except.ok.inj hperform)
      obtain ⟨hq, hlast⟩ := ih hcurrent hrest
      refine ⟨hq, ?_⟩
      rw [hlast, ← hstate]
      simp

end Sketch

end VectorImage
