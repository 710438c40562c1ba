import VectorImage.Graph.Image
import VectorImage.Proofs.Drawing.Step

/-!
The painter's steps for a node of a shared tree. Drawing a node follows its steps, and the steps
stay what they are when more gradients are registered.
-/

set_option autoImplicit false
set_option relaxedAutoImplicit false

namespace VectorImage

/-! The painter's steps for a node. -/

mutual
def Node.steps (r : Resources) : Node → Except Error (List PaintStep)
  | .group _ transform alpha _ children => do
    let inner ← Node.stepsAll r children
    return .beginGroup (sharedValue transform) alpha :: (inner ++ [.endGroup])
  | .clip _ path rule transform => .ok [.clip ⟨path.value, rule, sharedValue transform⟩]
  | .masked _ mask content => do
    let first ← Node.stepsAll r mask
    let second ← Node.stepsAll r content
    return .beginMask :: (first ++ .maskContent :: (second ++ [.endMask]))
  | .shape _ geometry paint transform => do
    let step ← r.shapeStep ⟨geometry.value, paint.value, sharedValue transform⟩
    return [step]
  | .image _ leaf => do
    let step ← r.imageStep leaf
    return [step]
  | .text _ leaf => do
    let step ← r.textStep leaf
    return [step]
  | .use _ _ target transform => do
    let inner ← Node.steps r target
    return .beginUse (sharedValue transform) :: (inner ++ [.endUse])

def Node.stepsAll (r : Resources) : List Node → Except Error (List PaintStep)
  | [] => .ok []
  | n :: rest => do
    let first ← Node.steps r n
    let rest ← Node.stepsAll r rest
    return first ++ rest
end

section Inversion

variable {r : Resources} {inst : Instance} {transform : Option (Shared Affine)}
  {steps : List PaintStep}

theorem Node.steps_group_eq_ok {alpha : UInt8} {exportId : Option StringId} {children : List Node} :
    Node.steps r (.group inst transform alpha exportId children) = .ok steps ↔
      ∃ inner, Node.stepsAll r children = .ok inner ∧
        steps = .beginGroup (sharedValue transform) alpha :: (inner ++ [.endGroup]) := by
  rw [Node.steps]
  exact bind_pure_eq_ok

theorem Node.steps_clip_eq_ok {path : Shared Path} {rule : FillRule} :
    Node.steps r (.clip inst path rule transform) = .ok steps ↔
      steps = [.clip ⟨path.value, rule, sharedValue transform⟩] := by
  rw [Node.steps, Except.ok.injEq, eq_comm]

theorem Node.steps_masked_eq_ok {mask content : List Node} :
    Node.steps r (.masked inst mask content) = .ok steps ↔
      ∃ first second, Node.stepsAll r mask = .ok first ∧ Node.stepsAll r content = .ok second ∧
        steps = .beginMask :: (first ++ .maskContent :: (second ++ [.endMask])) := by
  rw [Node.steps, bind_eq_ok]
  constructor
  · rintro ⟨first, hfirst, h⟩
    obtain ⟨second, hsecond, rfl⟩ := bind_pure_eq_ok.mp h
    exact ⟨first, second, hfirst, hsecond, rfl⟩
  · rintro ⟨first, second, hfirst, hsecond, rfl⟩
    exact ⟨first, hfirst, bind_pure_eq_ok.mpr ⟨second, hsecond, rfl⟩⟩

theorem Node.steps_shape_eq_ok {geometry : NodeGeometry} {paint : Shared Paint} :
    Node.steps r (.shape inst geometry paint transform) = .ok steps ↔
      ∃ step, r.shapeStep ⟨geometry.value, paint.value, sharedValue transform⟩ = .ok step ∧
        steps = [step] := by
  rw [Node.steps]
  exact bind_pure_eq_ok

theorem Node.steps_image_eq_ok {leaf : ImageLeaf} : Node.steps r (.image inst leaf) = .ok steps ↔
    ∃ step, r.imageStep leaf = .ok step ∧ steps = [step] := by
  rw [Node.steps]
  exact bind_pure_eq_ok

theorem Node.steps_text_eq_ok {leaf : TextLeaf} : Node.steps r (.text inst leaf) = .ok steps ↔
    ∃ step, r.textStep leaf = .ok step ∧ steps = [step] := by
  rw [Node.steps]
  exact bind_pure_eq_ok

theorem Node.steps_use_eq_ok {targetId : StringId} {target : Node} :
    Node.steps r (.use inst targetId target transform) = .ok steps ↔
      ∃ inner, Node.steps r target = .ok inner ∧
        steps = .beginUse (sharedValue transform) :: (inner ++ [.endUse]) := by
  rw [Node.steps]
  exact bind_pure_eq_ok

end Inversion

theorem Node.stepsAll_cons_eq_ok {r : Resources} {n : Node} {rest : List Node}
    {steps : List PaintStep} : Node.stepsAll r (n :: rest) = .ok steps ↔
      ∃ first more, Node.steps r n = .ok first ∧ Node.stepsAll r rest = .ok more ∧
        steps = first ++ more := by
  rw [Node.stepsAll, bind_eq_ok]
  constructor
  · rintro ⟨first, hfirst, h⟩
    obtain ⟨more, hmore, h⟩ := bind_eq_ok.mp h
    exact ⟨first, more, hfirst, hmore, (pure_eq_ok.mp h).symm⟩
  · rintro ⟨first, more, hfirst, hmore, rfl⟩
    exact ⟨first, hfirst, bind_eq_ok.mpr ⟨more, hmore, rfl⟩⟩

/-! Drawing a node follows its steps. -/

mutual
theorem Node.draw_of_steps {r : Resources} {n : Node} {steps : List PaintStep}
    (h : Node.steps r n = .ok steps) (p : Painter) : Node.draw r n p = .ok (p.follow steps) := by
  cases n with
  | group inst transform alpha exportId children =>
    obtain ⟨inner, hinner, rfl⟩ := Node.steps_group_eq_ok.mp h
    rw [Node.draw]
    refine bind_eq_ok.mpr ⟨_, Node.drawAll_of_steps hinner _, ?_⟩
    simp [Painter.step, Pure.pure, Except.pure]
  | clip inst path rule transform =>
    obtain rfl := Node.steps_clip_eq_ok.mp h
    rw [Node.draw]
    rfl
  | masked inst mask content =>
    obtain ⟨first, second, hfirst, hsecond, rfl⟩ := Node.steps_masked_eq_ok.mp h
    rw [Node.draw]
    refine bind_eq_ok.mpr ⟨_, Node.drawAll_of_steps hfirst _,
      bind_eq_ok.mpr ⟨_, Node.drawAll_of_steps hsecond _, ?_⟩⟩
    simp [Painter.step, Pure.pure, Except.pure]
  | shape inst geometry paint transform =>
    obtain ⟨step, hstep, rfl⟩ := Node.steps_shape_eq_ok.mp h
    rw [Node.draw]
    exact Resources.shape_of_step hstep p
  | image inst leaf =>
    obtain ⟨step, hstep, rfl⟩ := Node.steps_image_eq_ok.mp h
    rw [Node.draw]
    exact Resources.image_of_step hstep p
  | text inst leaf =>
    obtain ⟨step, hstep, rfl⟩ := Node.steps_text_eq_ok.mp h
    rw [Node.draw]
    exact Resources.text_of_step hstep p
  | use inst targetId target transform =>
    obtain ⟨inner, hinner, rfl⟩ := Node.steps_use_eq_ok.mp h
    rw [Node.draw]
    refine bind_eq_ok.mpr ⟨_, Node.draw_of_steps hinner _, ?_⟩
    simp [Painter.step, Pure.pure, Except.pure]

theorem Node.drawAll_of_steps {r : Resources} {nodes : List Node} {steps : List PaintStep}
    (h : Node.stepsAll r nodes = .ok steps) (p : Painter) :
    Node.drawAll r nodes p = .ok (p.follow steps) := by
  cases nodes with
  | nil =>
    rw [Node.stepsAll] at h
    cases h
    rw [Node.drawAll]
    rfl
  | cons n rest =>
    obtain ⟨first, second, hfirst, hsecond, rfl⟩ := Node.stepsAll_cons_eq_ok.mp h
    rw [Node.drawAll, Painter.follow_append]
    exact bind_eq_ok.mpr ⟨_, Node.draw_of_steps hfirst p, Node.drawAll_of_steps hsecond _⟩
end

mutual
theorem Node.steps_mono {r r' : Resources} (hr : r.ExtendedBy r') {n : Node}
    {steps : List PaintStep} (h : Node.steps r n = .ok steps) : Node.steps r' n = .ok steps := by
  cases n with
  | group inst transform alpha exportId children =>
    obtain ⟨inner, hinner, rfl⟩ := Node.steps_group_eq_ok.mp h
    exact Node.steps_group_eq_ok.mpr ⟨inner, Node.stepsAll_mono hr hinner, rfl⟩
  | clip inst path rule transform =>
    exact Node.steps_clip_eq_ok.mpr (Node.steps_clip_eq_ok.mp h)
  | masked inst mask content =>
    obtain ⟨first, second, hfirst, hsecond, rfl⟩ := Node.steps_masked_eq_ok.mp h
    exact Node.steps_masked_eq_ok.mpr
      ⟨first, second, Node.stepsAll_mono hr hfirst, Node.stepsAll_mono hr hsecond, rfl⟩
  | shape inst geometry paint transform =>
    obtain ⟨step, hstep, rfl⟩ := Node.steps_shape_eq_ok.mp h
    exact Node.steps_shape_eq_ok.mpr ⟨step, Resources.shapeStep_mono hr hstep, rfl⟩
  | image inst leaf =>
    obtain ⟨step, hstep, rfl⟩ := Node.steps_image_eq_ok.mp h
    exact Node.steps_image_eq_ok.mpr ⟨step, Resources.imageStep_mono hr hstep, rfl⟩
  | text inst leaf =>
    obtain ⟨step, hstep, rfl⟩ := Node.steps_text_eq_ok.mp h
    exact Node.steps_text_eq_ok.mpr ⟨step, Resources.textStep_mono hr hstep, rfl⟩
  | use inst targetId target transform =>
    obtain ⟨inner, hinner, rfl⟩ := Node.steps_use_eq_ok.mp h
    exact Node.steps_use_eq_ok.mpr ⟨inner, Node.steps_mono hr hinner, rfl⟩

theorem Node.stepsAll_mono {r r' : Resources} (hr : r.ExtendedBy r') {nodes : List Node}
    {steps : List PaintStep} (h : Node.stepsAll r nodes = .ok steps) :
    Node.stepsAll r' nodes = .ok steps := by
  cases nodes with
  | nil =>
    rw [Node.stepsAll] at h ⊢
    exact h
  | cons n rest =>
    obtain ⟨first, second, hfirst, hsecond, rfl⟩ := Node.stepsAll_cons_eq_ok.mp h
    exact Node.stepsAll_cons_eq_ok.mpr
      ⟨first, second, Node.steps_mono hr hfirst, Node.stepsAll_mono hr hsecond, rfl⟩
end

theorem Node.stepsAll_append {r : Resources} {first second : List Node}
    {steps steps' : List PaintStep} (hfirst : Node.stepsAll r first = .ok steps)
    (hsecond : Node.stepsAll r second = .ok steps') :
    Node.stepsAll r (first ++ second) = .ok (steps ++ steps') := by
  induction first generalizing steps with
  | nil =>
    rw [Node.stepsAll] at hfirst
    cases hfirst
    exact hsecond
  | cons n rest ih =>
    obtain ⟨a, b, ha, hb, rfl⟩ := Node.stepsAll_cons_eq_ok.mp hfirst
    rw [List.append_assoc]
    exact Node.stepsAll_cons_eq_ok.mpr ⟨a, _, ha, ih hb, rfl⟩

theorem Node.stepsAll_push {r : Resources} {nodes : Array Node} {n : Node}
    {steps steps' : List PaintStep} (hnodes : Node.stepsAll r nodes.toList = .ok steps)
    (hn : Node.steps r n = .ok steps') :
    Node.stepsAll r (nodes.push n).toList = .ok (steps ++ steps') := by
  rw [Array.toList_push]
  refine Node.stepsAll_append hnodes ?_
  rw [Node.stepsAll, Node.stepsAll]
  refine bind_eq_ok.mpr ⟨steps', hn, bind_eq_ok.mpr ⟨[], rfl, ?_⟩⟩
  rw [List.append_nil]
  rfl

/-- An image paints what its steps paint. -/
theorem GraphImage.primitives_of_steps {g : GraphImage} {steps : List PaintStep}
    (h : Node.stepsAll g.resources g.root.children = .ok steps) :
    g.primitives = .ok (Painter.start.follow steps).finish :=
  bind_eq_ok.mpr ⟨_, Node.drawAll_of_steps h _, rfl⟩

end VectorImage
