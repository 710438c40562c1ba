import VectorImage.Proofs.Graph.Building
import VectorImage.Proofs.Graph.Progress

/-!
Trees that are alike: the same trees when instances are left out of account. Drawing, extents and
the nodes that are visited do not depend on instances. Builds of one stream make trees that are
alike, whatever earlier builds left to share and whether nodes are shared or not: one builder takes
every call that another takes, and what they hold stays alike.
-/

set_option autoImplicit false
set_option relaxedAutoImplicit false

namespace VectorImage

/-- The value under no instance in particular. -/
def Shared.plain {α : Type} (s : Shared α) : Shared α := ⟨default, s.value⟩

def NodeGeometry.plain : NodeGeometry → NodeGeometry
  | .path p => .path p.plain
  | .rect g => .rect g
  | .ellipse g => .ellipse g
  | .poly g => .poly g.plain

@[simp]
theorem NodeGeometry.value_plain (g : NodeGeometry) : g.plain.value = g.value := by cases g <;> rfl

theorem NodeGeometry.plain_eq {g g' : NodeGeometry} (h : g.value = g'.value) :
    g.plain = g'.plain := by
  cases g <;> cases g' <;> simp_all [value, plain, Shared.plain]

@[simp]
theorem sharedValue_plain {α : Type} (s : Option (Shared α)) :
    sharedValue (s.map Shared.plain) = sharedValue s := by cases s <;> rfl

/-! A node without its instances, targets of uses included. -/

mutual
def Node.plain : Node → Node
  | .group _ transform alpha exportId children =>
    .group default (transform.map Shared.plain) alpha exportId (Node.plainAll children)
  | .clip _ path rule transform => .clip default path.plain rule (transform.map Shared.plain)
  | .masked _ mask content => .masked default (Node.plainAll mask) (Node.plainAll content)
  | .shape _ geometry paint transform =>
    .shape default geometry.plain paint.plain (transform.map Shared.plain)
  | .image _ leaf => .image default leaf
  | .text _ leaf => .text default leaf
  | .use _ targetId target transform =>
    .use default targetId (Node.plain target) (transform.map Shared.plain)

def Node.plainAll : List Node → List Node
  | [] => []
  | n :: rest => Node.plain n :: Node.plainAll rest
end

namespace Node

theorem plainAll_eq_map (nodes : List Node) : plainAll nodes = nodes.map plain := by
  induction nodes with
  | nil => rw [plainAll, List.map_nil]
  | cons n rest ih => rw [plainAll, List.map_cons, ih]

theorem plainAll_append (first rest : List Node) :
    plainAll (first ++ rest) = plainAll first ++ plainAll rest := by
  simp only [plainAll_eq_map, List.map_append]

@[simp]
theorem isDrawable_plain (n : Node) : n.plain.isDrawable = n.isDrawable := by
  cases n <;> rw [plain] <;> rfl

theorem any_isDrawable_plainAll (nodes : List Node) :
    (plainAll nodes).any isDrawable = nodes.any isDrawable := by
  simp only [plainAll_eq_map, List.any_map, Function.comp_def, isDrawable_plain]

@[simp]
theorem paint?_plain (n : Node) : n.plain.paint? = n.paint? := by cases n <;> rw [plain] <;> rfl

@[simp]
theorem targetId?_plain (n : Node) : n.plain.targetId? = n.targetId? := by
  cases n <;> rw [plain] <;> rfl

end Node

/-! Drawing, extents and visits do without instances. -/

mutual
theorem Node.draw_plain (r : Resources) (n : Node) (p : Painter) :
    Node.draw r n.plain p = Node.draw r n p := by
  cases n with
  | group inst transform alpha exportId children =>
    simp only [Node.plain, Node.draw, sharedValue_plain, Node.drawAll_plain r children]
  | clip inst path rule transform =>
    simp only [Node.plain, Node.draw, sharedValue_plain, Shared.plain]
  | masked inst mask content =>
    simp only [Node.plain, Node.draw, Node.drawAll_plain r mask, Node.drawAll_plain r content]
  | shape inst geometry paint transform =>
    simp only [Node.plain, Node.draw, sharedValue_plain, NodeGeometry.value_plain, Shared.plain]
  | image inst leaf => simp only [Node.plain, Node.draw]
  | text inst leaf => simp only [Node.plain, Node.draw]
  | use inst targetId target transform =>
    simp only [Node.plain, Node.draw, sharedValue_plain, Node.draw_plain r target]

theorem Node.drawAll_plain (r : Resources) (nodes : List Node) (p : Painter) :
    Node.drawAll r (Node.plainAll nodes) p = Node.drawAll r nodes p := by
  cases nodes with
  | nil => rw [Node.plainAll]
  | cons n rest =>
    simp only [Node.plainAll, Node.drawAll, Node.draw_plain r n, Node.drawAll_plain r rest]
end

mutual
theorem Node.visited_plain (n : Node) : Node.visited n.plain = (Node.visited n).map Node.plain := by
  cases n with
  | group inst transform alpha exportId children =>
    simp only [Node.plain, Node.visited, Node.visitedAll_plain children, List.map_cons]
  | masked inst mask content =>
    simp only [Node.plain, Node.visited, Node.visitedAll_plain mask, Node.visitedAll_plain content,
      List.map_cons, List.map_append]
  | _ => simp only [Node.plain, Node.visited, List.map_cons, List.map_nil]

theorem Node.visitedAll_plain (nodes : List Node) :
    Node.visitedAll (Node.plainAll nodes) = (Node.visitedAll nodes).map Node.plain := by
  cases nodes with
  | nil => rw [Node.plainAll, Node.visitedAll, List.map_nil]
  | cons n rest =>
    rw [Node.plainAll, Node.visitedAll, Node.visited_plain n, Node.visitedAll_plain rest,
      Node.visitedAll, List.map_append]
end

/-! What builders hold, without its instances. -/

def GraphScope.plain : GraphScope → GraphScope
  | .group attrs => .group attrs
  | .mask => .mask
  | .maskContent nodes => .maskContent (Node.plainAll nodes)

def GraphFrame.plain (f : GraphFrame) : GraphFrame := ⟨f.scope.plain, f.children.map Node.plain⟩

theorem GraphFrame.plain_push (f : GraphFrame) (n : Node) :
    { f with children := f.children.push n : GraphFrame }.plain =
      { f.plain with children := f.plain.children.push n.plain } := by
  simp [plain]

namespace GraphBuilder

/-- Builders hold the same when instances are left out of account. -/
structure Alike (b b' : GraphBuilder) : Prop where
  document : b.document = b'.document
  tables : b.tables = b'.tables
  gradients : b.gradients = b'.gradients
  root : b.root.map Node.plain = b'.root.map Node.plain
  frames : b.frames.map GraphFrame.plain = b'.frames.map GraphFrame.plain
  exports : ∀ name, (b.exports.lookup name).map Node.plain = (b'.exports.lookup name).map Node.plain

variable {b b' : GraphBuilder} {n n' : Node}

theorem alike_start (stamp stamp' : Nat) (shareNodes shareNodes' : Bool) (seed seed' : NodeCache) :
    (start stamp shareNodes seed).Alike (start stamp' shareNodes' seed') :=
  ⟨rfl, rfl, rfl, rfl, rfl, fun _ => rfl⟩

namespace Alike

/-- Sharing is nothing that is held. -/
theorem share (h : b.Alike b') (s s' : Sharing) :
    ({ b with sharing := s } : GraphBuilder).Alike { b' with sharing := s' } :=
  ⟨h.document, h.tables, h.gradients, h.root, h.frames, h.exports⟩

theorem attach (h : b.Alike b') (hn : n.plain = n'.plain) :
    (b.attach n).Alike (b'.attach n') := by
  have hframes := h.frames
  unfold GraphBuilder.attach
  cases hb : b.frames with
  | nil =>
    rw [hb, List.map_nil, eq_comm, List.map_eq_nil_iff] at hframes
    rw [hframes]
    refine ⟨h.document, h.tables, h.gradients, ?_, rfl, h.exports⟩
    simp only [Array.map_push, h.root, hn]
  | cons f rest =>
    rw [hb] at hframes
    obtain ⟨f', rest', hb', hf, hrest⟩ := List.map_eq_cons_iff.mp hframes.symm
    rw [hb']
    refine ⟨h.document, h.tables, h.gradients, h.root, ?_, h.exports⟩
    simp only [List.map_cons, GraphFrame.plain_push, hf, hrest, hn]

theorem remember (h : b.Alike b') (exportId : Option StringId) (hn : n.plain = n'.plain) :
    (b.remember exportId n).Alike (b'.remember exportId n') := by
  cases exportId with
  | none => exact h
  | some id =>
    refine ⟨h.document, h.tables, h.gradients, h.root, h.frames, fun name => ?_⟩
    simp only [GraphBuilder.remember, List.lookup_cons]
    split
    · exact congrArg some hn
    · exact h.exports name

theorem openScope (h : b.Alike b') {f f' : GraphFrame} (hf : f.plain = f'.plain) :
    ({ b with frames := f :: b.frames } : GraphBuilder).Alike
      { b' with frames := f' :: b'.frames } := by
  refine ⟨h.document, h.tables, h.gradients, h.root, ?_, h.exports⟩
  simp only [List.map_cons, hf, h.frames]

/-- The innermost scopes are alike, and so are the outer ones. -/
theorem close (h : b.Alike b') {f : GraphFrame} {rest : List GraphFrame}
    (hframes : b.frames = f :: rest) :
    ∃ f' rest', b'.frames = f' :: rest' ∧ f'.plain = f.plain ∧
      ({ b with frames := rest } : GraphBuilder).Alike { b' with frames := rest' } := by
  have hsame := h.frames
  rw [hframes] at hsame
  obtain ⟨f', rest', hframes', hf, hrest⟩ := List.map_eq_cons_iff.mp hsame.symm
  exact ⟨f', rest', hframes', hf, h.document, h.tables, h.gradients, h.root, hrest.symm, h.exports⟩

/-- A name stands for groups that are alike. -/
theorem lookup (h : b.Alike b') {name : StringId} (hn : b.exports.lookup name = some n) :
    ∃ n', b'.exports.lookup name = some n' ∧ n'.plain = n.plain := by
  have hsame := h.exports name
  rw [hn] at hsame
  exact Option.map_eq_some_iff.mp hsame.symm

variable {call : Call} {reply reply' : Reply} {b₁ b₁' : GraphBuilder}

/-- What one builder has done, another that holds the same is ready for. -/
theorem ready (h : b.Alike b') (hb : b.Builds call b₁ reply) : b'.Ready call := by
  cases hb with
  | gradient hintern => exact ⟨_, h.gradients ▸ hintern⟩
  | @endGroup attrs children rest hframes =>
    obtain ⟨⟨scope, children'⟩, rest', hframes', hf, -⟩ := h.close hframes
    cases scope with
    | group attrs' => exact ⟨attrs', children', rest', hframes'⟩
    | mask => cases hf
    | maskContent => cases hf
  | maskContent hframes =>
    obtain ⟨⟨scope, children'⟩, rest', hframes', hf, -⟩ := h.close hframes
    cases scope with
    | group => cases hf
    | mask => exact ⟨children', rest', hframes'⟩
    | maskContent => cases hf
  | endMask hframes =>
    obtain ⟨⟨scope, children'⟩, rest', hframes', hf, -⟩ := h.close hframes
    cases scope with
    | group => cases hf
    | mask => cases hf
    | maskContent nodes => exact ⟨nodes, children', rest', hframes'⟩
  | use htarget =>
    obtain ⟨target', htarget', -⟩ := h.lookup htarget
    exact ⟨target', htarget'⟩
  | _ => trivial

private theorem shared_plain {α : Type} {s t : Option (Shared α)}
    (h : sharedValue s = sharedValue t) : s.map Shared.plain = t.map Shared.plain := by
  cases s <;> cases t <;> simp_all [sharedValue, Shared.plain]

theorem children_plain {children children' : Array Node}
    (h : children.map Node.plain = children'.map Node.plain) :
    Node.plainAll children.toList = Node.plainAll children'.toList := by
  rw [Node.plainAll_eq_map, Node.plainAll_eq_map, ← Array.toList_map, ← Array.toList_map, h]

/-- The same call makes them hold the same again, and they answer alike. -/
theorem step (h : b.Alike b') (hb : b.Builds call b₁ reply) (hb' : b'.Builds call b₁' reply') :
    b₁.Alike b₁' ∧ reply = reply' := by
  cases hb with
  | init =>
    cases hb' with
    | init => exact ⟨⟨h.document, rfl, h.gradients, h.root, h.frames, h.exports⟩, rfl⟩
  | document =>
    cases hb' with
    | document => exact ⟨⟨rfl, h.tables, h.gradients, h.root, h.frames, h.exports⟩, rfl⟩
  | gradient hintern =>
    cases hb' with
    | gradient hintern' =>
      rw [h.gradients] at hintern
      cases hintern.symm.trans hintern'
      exact ⟨⟨h.document, h.tables, rfl, h.root, h.frames, h.exports⟩, rfl⟩
  | beginGroup =>
    cases hb' with
    | beginGroup => exact ⟨h.openScope rfl, rfl⟩
  | @endGroup attrs children rest hframes s node i transform htransform hnode =>
    cases hb' with
    | @endGroup attrs' children' rest' hframes' s' node' i' transform' htransform' hnode' =>
      obtain ⟨_, _, hb', hf, hrest⟩ := h.close hframes
      cases hframes'.symm.trans hb'
      obtain ⟨hscope, hchildren⟩ := GraphFrame.mk.inj hf
      cases hscope
      have hplain : node.plain = node'.plain := by
        rw [hnode, hnode', Node.plain, Node.plain, children_plain hchildren,
          shared_plain (htransform.trans htransform'.symm)]
      exact ⟨((hrest.share s s').attach hplain).remember _ hplain, rfl⟩
  | @clip c s i path transform hpath htransform =>
    cases hb' with
    | @clip _ s' i' path' transform' hpath' htransform' =>
      refine ⟨(h.share s s').attach ?_, rfl⟩
      rw [Node.plain, Node.plain, Shared.plain, Shared.plain, hpath, hpath',
        shared_plain (htransform.trans htransform'.symm)]
  | beginMask =>
    cases hb' with
    | beginMask => exact ⟨h.openScope rfl, rfl⟩
  | maskContent hframes =>
    cases hb' with
    | maskContent hframes' =>
      obtain ⟨_, _, hb', hf, hrest⟩ := h.close hframes
      cases hframes'.symm.trans hb'
      obtain ⟨-, hchildren⟩ := GraphFrame.mk.inj hf
      refine ⟨hrest.openScope ?_, rfl⟩
      simp only [GraphFrame.plain, GraphScope.plain, children_plain hchildren]
  | @endMask nodes children rest hframes s i =>
    cases hb' with
    | @endMask nodes' children' rest' hframes' s' i' =>
      obtain ⟨_, _, hb', hf, hrest⟩ := h.close hframes
      cases hframes'.symm.trans hb'
      obtain ⟨hscope, hchildren⟩ := GraphFrame.mk.inj hf
      refine ⟨(hrest.share s s').attach ?_, rfl⟩
      rw [Node.plain, Node.plain, children_plain hchildren, GraphScope.maskContent.inj hscope]
  | @shape leaf s i geometry paint transform hgeometry hpaint htransform =>
    cases hb' with
    | @shape _ s' i' geometry' paint' transform' hgeometry' hpaint' htransform' =>
      have houtline := NodeGeometry.plain_eq (hgeometry.trans hgeometry'.symm)
      refine ⟨(h.share s s').attach ?_, rfl⟩
      rw [Node.plain, Node.plain, Shared.plain, Shared.plain, houtline, hpaint, hpaint',
        shared_plain (htransform.trans htransform'.symm)]
  | image leaf s i =>
    cases hb' with
    | image _ s' i' => exact ⟨(h.share s s').attach (by rw [Node.plain, Node.plain]), rfl⟩
  | text leaf s i =>
    cases hb' with
    | text _ s' i' => exact ⟨(h.share s s').attach (by rw [Node.plain, Node.plain]), rfl⟩
  | @use u target htarget s i transform htransform =>
    cases hb' with
    | @use _ target' htarget' s' i' transform' htransform' =>
      obtain ⟨_, hlookup, hplain⟩ := h.lookup htarget
      cases htarget'.symm.trans hlookup
      refine ⟨(h.share s s').attach ?_, rfl⟩
      rw [Node.plain, Node.plain, hplain, shared_plain (htransform.trans htransform'.symm)]

end Alike

/-- Places of replays of one stream into two builders. -/
structure Twins (stamps stamps' : List Nat) (p p' : Position GraphBuilder) : Prop where
  ids : p.ids = p'.ids
  nesting : p.session.nesting = p'.session.nesting
  alike : p.session.state.Alike p'.session.state
  coherent : ∃ items, p.session.state.Coherent stamps items
  coherent' : ∃ items, p'.session.state.Coherent stamps' items

/-- A call that one builder takes, the other takes. -/
private theorem Twins.step {stamps stamps' : List Nat} {p p' q : Position GraphBuilder}
    (h : Twins stamps stamps' p p') {call : Call} (hstep : backend.Advances p call q) :
    ∃ q', backend.Advances p' call q' ∧ Twins stamps stamps' q q' := by
  obtain ⟨items, hcoherent⟩ := h.coherent
  obtain ⟨items', hcoherent'⟩ := h.coherent'
  cases hstep with
  | @step renamed nesting state reply hmap haccept hperform =>
    obtain ⟨hbuilds, hafter⟩ := perform_spec hcoherent hperform
    obtain ⟨state', reply', hperform'⟩ := perform_of_ready (h.alike.ready hbuilds)
    obtain ⟨hbuilds', hafter'⟩ := perform_spec hcoherent' hperform'
    obtain ⟨halike, rfl⟩ := h.alike.step hbuilds hbuilds'
    have hcount : backend.gradientCount p.session.state =
        backend.gradientCount p'.session.state :=
      congrArg CanonicalTable.size h.alike.gradients
    rw [h.ids] at hmap
    rw [hcount, h.nesting] at haccept
    exact ⟨_, .step hmap haccept hperform', congrArg reply.known h.ids, rfl, halike, hafter, hafter'⟩

end GraphBuilder

namespace GraphImage

/-- Images are the same when instances are left out of account. -/
structure Alike (g g' : GraphImage) : Prop where
  document : g.document = g'.document
  tables : g.tables = g'.tables
  gradients : g.gradients = g'.gradients
  children : Node.plainAll g.root.children = Node.plainAll g'.root.children

variable {g g' : GraphImage}

theorem Alike.resources (h : g.Alike g') : g.resources = g'.resources := by
  rw [GraphImage.resources, GraphImage.resources, h.tables, h.gradients]

/-- Images that are alike draw the same. -/
theorem Alike.primitives (h : g.Alike g') : g.primitives = g'.primitives := by
  rw [GraphImage.primitives, GraphImage.primitives, h.resources,
    ← Node.drawAll_plain _ g.root.children, h.children, Node.drawAll_plain]

/-- Their nodes are alike, one after the other. -/
theorem Alike.visited (h : g.Alike g') :
    g.visited.map Node.plain = g'.visited.map Node.plain := by
  rw [GraphImage.visited, GraphImage.visited, ← Node.visited_plain, ← Node.visited_plain,
    GraphRoot.toNode, GraphRoot.toNode, Node.plain, Node.plain, h.children]

end GraphImage

/-- Builders that hold the same finish images that are alike, or have the same left open. -/
theorem GraphBuilder.Alike.complete {b c : GraphBuilder} (h : b.Alike c) :
    SameOutcome GraphImage.Alike (backend.complete b) (backend.complete c) := by
  have hframes := h.frames
  show SameOutcome _ b.complete c.complete
  unfold GraphBuilder.complete
  cases hb : b.frames with
  | nil =>
    rw [hb] at hframes
    rw [List.map_eq_nil_iff.mp hframes.symm]
    exact .ok ⟨h.document, h.tables, congrArg CanonicalTable.entries h.gradients,
      children_plain h.root⟩
  | cons f frames =>
    rw [hb] at hframes
    obtain ⟨f', frames', hc, -⟩ := List.map_eq_cons_iff.mp hframes.symm
    rw [hc]
    exact .error _

namespace GraphImage

variable {g : GraphImage}

/-- What is built of a stream is built of it again, from whatever earlier builds left to share and
with nodes shared or not, and the images are alike. -/
theorem alike_of_ofCalls {stamps stamps' : List Nat} {seed seed' : NodeCache}
    (hseed : seed.Grown stamps) (hseed' : seed'.Grown stamps') {stamp stamp' : Nat}
    (hstamp : stamp ∉ stamps) (hstamp' : stamp' ∉ stamps') {shareNodes : Bool} {calls : List Call}
    (h : ofCalls stamp shareNodes seed calls = .ok g) (shareNodes' : Bool) :
    ∃ g', ofCalls stamp' shareNodes' seed' calls = .ok g' ∧ g.Alike g' := by
  obtain ⟨p, hruns, hclosed, hcomplete⟩ := Backend.replay_eq_ok.mp h
  obtain ⟨items, hfounded⟩ := hseed.founded
  obtain ⟨items', hfounded'⟩ := hseed'.founded
  have hstart : GraphBuilder.Twins (stamp :: stamps) (stamp' :: stamps')
      (.start (.start stamp shareNodes seed)) (.start (.start stamp' shareNodes' seed')) :=
    ⟨rfl, rfl, GraphBuilder.alike_start ..,
      ⟨items, GraphBuilder.coherent_start hfounded hstamp shareNodes⟩,
      ⟨items', GraphBuilder.coherent_start hfounded' hstamp' shareNodes'⟩⟩
  obtain ⟨p', hruns', hp⟩ := hruns.simulate (f := id)
    (R := fun _ => GraphBuilder.Twins (stamp :: stamps) (stamp' :: stamps'))
    (fun _ hp hstep => hp.step hstep) hstart
  rw [List.map_id] at hruns'
  have hsame := hp.alike.complete
  rw [hcomplete] at hsame
  obtain ⟨g', hcomplete', hg⟩ := hsame.of_ok
  exact ⟨g', Backend.replay_eq_ok.mpr ⟨p', hruns', hp.nesting ▸ hclosed, hcomplete'⟩, hg⟩

end GraphImage

end VectorImage
