import VectorImage.Proofs.Graph.Building
import VectorImage.Proofs.Graph.Order

/-!
What holds of every image that a builder finishes: no name is used twice, every use comes after
the group it refers to, and every index that a node holds is in range. While a stream is built the
same holds of the nodes that have ended so far, in the finished part and in the open scopes.
-/

set_option autoImplicit false
set_option relaxedAutoImplicit false

namespace VectorImage

/-- The indices that a node itself holds are in range. -/
def Node.Within (t : Tables) (gradients : Nat) : Node → Prop
  | .group _ _ _ exportId _ => ∀ id, exportId = some id → id.toNat < t.strings.length
  | .shape _ _ paint _ => paint.value.Within gradients t.floatLists.length
  | .image _ leaf => leaf.image.toNat < t.images.length
  | .text _ leaf =>
    leaf.paint.Within gradients t.floatLists.length ∧ leaf.text.toNat < t.strings.length ∧
      ∀ id, leaf.family = some id → id.toNat < t.strings.length
  | .clip _ _ _ _ => True
  | .masked _ _ _ => True
  | .use _ _ _ _ => True

theorem Node.Within.mono {t : Tables} {gradients gradients' : Nat} (hle : gradients ≤ gradients')
    {n : Node} (h : n.Within t gradients) : n.Within t gradients' := by
  have hpaint {p : Paint} {floatLists : Nat} (hp : p.Within gradients floatLists) :
      p.Within gradients' floatLists :=
    ⟨fun id hid => Nat.lt_of_lt_of_le (hp.gradients id hid) hle, hp.dash⟩
  cases n with
  | shape inst geometry paint transform => exact hpaint h
  | text inst leaf => exact ⟨hpaint h.1, h.2⟩
  | _ => exact h

/-- No name is used twice in an image, and no index is out of range. -/
structure GraphImage.InRange (g : GraphImage) : Prop where
  distinct : (Node.names (Node.finishedAll g.root.children)).Nodup
  within : ∀ n ∈ Node.finishedAll g.root.children, n.Within g.tables g.gradients.size
  offsets : ∀ a ∈ g.gradients, a.offsets.toNat < g.tables.floatLists.length

/-- Besides, every use comes after the group it refers to. -/
structure GraphImage.Regular (g : GraphImage) : Prop extends g.InRange where
  grounded : Node.Grounded (Node.finishedAll g.root.children)

/-- The scope that a frame was opened for. -/
def GraphFrame.opened (f : GraphFrame) : Scope :=
  match f.scope with
  | .group attrs => .group attrs.exportId
  | .mask => .mask
  | .maskContent _ => .maskContent

/-- The nodes of an open scope that have ended. -/
def GraphFrame.finished (f : GraphFrame) : List Node :=
  match f.scope with
  | .maskContent mask => Node.finishedAll mask ++ Node.finishedAll f.children.toList
  | _ => Node.finishedAll f.children.toList

namespace GraphBuilder

/-- The nodes that have ended, in order. -/
def finished (b : GraphBuilder) : List Node :=
  Node.finishedAll b.root.toList ++ b.frames.reverse.flatMap GraphFrame.finished

/-- A builder and the nesting of the calls it was given. -/
structure Regular (n : Nesting) (b : GraphBuilder) : Prop where
  scopes : b.frames.map GraphFrame.opened = n.scopes
  exported : Node.names b.finished = n.exported.reverse
  exports : ∀ e ∈ b.exports, e.2 ∈ b.finished ∧ e.2.exportId? = some e.1
  grounded : Node.Grounded b.finished
  within : ∀ a ∈ b.finished, a.Within b.tables b.gradients.size
  offsets : ∀ a ∈ b.gradients.entries, a.offsets.toNat < b.tables.floatLists.length
  images : n.images = b.tables.images.length
  strings : n.strings = b.tables.strings.length
  floatLists : n.floatLists = b.tables.floatLists.length
  fresh : n.phase = .fresh → b.finished = [] ∧ b.gradients.entries = #[]

variable {n m : Nesting} {b b' : GraphBuilder}

theorem regular_start (stamp : Nat) (shareNodes : Bool) (seed : NodeCache) :
    (start stamp shareNodes seed).Regular .start := by
  have hfinished : (start stamp shareNodes seed).finished = [] := by
    simp [finished, start]
  refine ⟨rfl, ?_, ?_, ?_, ?_, ?_, rfl, rfl, rfl, fun _ => ⟨hfinished, rfl⟩⟩
  · rw [hfinished]
    rfl
  · intro e he
    cases he
  · rw [hfinished]
    exact Node.grounded_nil
  · intro a ha
    rw [hfinished] at ha
    cases ha
  · intro a ha
    simp [start, CanonicalTable.empty] at ha

/-! A node is added to the innermost scope, behind everything that has ended. -/

@[simp]
theorem finished_attach (b : GraphBuilder) (node : Node) :
    (b.attach node).finished = b.finished ++ Node.finished node := by
  unfold attach
  split
  · next hframes => simp [finished, hframes]
  · next f rest hframes =>
    have hf : GraphFrame.finished { f with children := f.children.push node } =
        f.finished ++ Node.finished node := by
      obtain ⟨scope, children⟩ := f
      cases scope <;> simp [GraphFrame.finished]
    simp [finished, hframes, hf]

@[simp]
theorem opened_attach (b : GraphBuilder) (node : Node) :
    (b.attach node).frames.map GraphFrame.opened = b.frames.map GraphFrame.opened := by
  unfold attach
  split
  · rfl
  · next f rest hframes =>
    rw [hframes]
    rfl

@[simp]
theorem tables_attach (b : GraphBuilder) (node : Node) : (b.attach node).tables = b.tables := by
  unfold attach
  split <;> rfl

@[simp]
theorem gradients_attach (b : GraphBuilder) (node : Node) :
    (b.attach node).gradients = b.gradients := by
  unfold attach
  split <;> rfl

@[simp]
theorem exports_attach (b : GraphBuilder) (node : Node) :
    (b.attach node).exports = b.exports := by
  unfold attach
  split <;> rfl

/-! Remembering a group changes what is remembered, and nothing else. -/

section Remember

variable (b : GraphBuilder) (exportId : Option StringId) (node : Node)

@[simp]
theorem finished_remember : (b.remember exportId node).finished = b.finished := by
  cases exportId <;> rfl

@[simp]
theorem frames_remember : (b.remember exportId node).frames = b.frames := by
  cases exportId <;> rfl

@[simp]
theorem tables_remember : (b.remember exportId node).tables = b.tables := by
  cases exportId <;> rfl

@[simp]
theorem gradients_remember : (b.remember exportId node).gradients = b.gradients := by
  cases exportId <;> rfl

theorem exports_remember : (b.remember exportId node).exports =
    exportId.toList.map (fun id => (id, node)) ++ b.exports := by
  cases exportId <;> rfl

end Remember

/-- The innermost scope holds what ended last. -/
theorem finished_of_frames {f : GraphFrame} {rest : List GraphFrame}
    (hframes : b.frames = f :: rest) :
    b.finished = ({ b with frames := rest } : GraphBuilder).finished ++ f.finished := by
  simp [finished, hframes]

/-- A step that ends no node. -/
theorem Regular.hold (h : b.Regular n) (hfinished : b'.finished = b.finished)
    (hscopes : b'.frames.map GraphFrame.opened = m.scopes) (hexports : b'.exports = b.exports)
    (htables : b'.tables = b.tables) (hgradients : b'.gradients = b.gradients)
    (hphase : m.phase ≠ .fresh) (hnesting : m = { n with phase := m.phase, scopes := m.scopes }) :
    b'.Regular m := by
  have hwithin := h.within
  have hexport := h.exports
  have hoffsets := h.offsets
  rw [← hfinished] at hexport hwithin
  rw [← hexports] at hexport
  rw [← htables, ← hgradients] at hwithin hoffsets
  refine ⟨hscopes, ?_, hexport, hfinished ▸ h.grounded, hwithin, hoffsets, ?_, ?_, ?_,
    fun he => absurd he hphase⟩
  · rw [hfinished, hnesting]
    exact h.exported
  · rw [hnesting, htables]
    exact h.images
  · rw [hnesting, htables]
    exact h.strings
  · rw [hnesting, htables]
    exact h.floatLists

/-- A step that ends one node. -/
theorem Regular.extend (h : b.Regular n) (node : Node)
    (hfinished : b'.finished = b.finished ++ [node])
    (hscopes : b'.frames.map GraphFrame.opened = m.scopes)
    (hexports : b'.exports = node.exportId?.toList.map (fun id => (id, node)) ++ b.exports)
    (htables : b'.tables = b.tables) (hgradients : b'.gradients = b.gradients)
    (hphase : m.phase ≠ .fresh)
    (hnesting : m = { n with
      phase := m.phase, scopes := m.scopes, exported := node.exportId?.toList ++ n.exported })
    (hwithin : node.Within b.tables b.gradients.size)
    (huse : ∀ inst targetId target transform, node = .use inst targetId target transform →
      target ∈ b.finished ∧ target.exportId? = some targetId) : b'.Regular m := by
  refine ⟨hscopes, ?_, ?_, hfinished ▸ h.grounded.snoc huse, ?_, ?_, ?_, ?_, ?_,
    fun he => absurd he hphase⟩
  · have hname : node.exportId?.toList = node.exportId?.toList.reverse := by
      cases node.exportId? <;> rfl
    rw [hfinished, hnesting, Node.names_append, h.exported, Node.names_singleton,
      List.reverse_append, ← hname]
  · intro e he
    rw [hexports, List.mem_append] at he
    rw [hfinished, List.mem_append]
    rcases he with he | he
    · obtain ⟨id, hid, rfl⟩ := List.mem_map.mp he
      exact ⟨Or.inr (List.mem_singleton_self node), Option.mem_toList.mp hid⟩
    · obtain ⟨hmem, hname⟩ := h.exports e he
      exact ⟨Or.inl hmem, hname⟩
  · intro a ha
    rw [htables, hgradients]
    rw [hfinished, List.mem_append, List.mem_singleton] at ha
    rcases ha with ha | rfl
    · exact h.within a ha
    · exact hwithin
  · rw [htables, hgradients]
    exact h.offsets
  · rw [hnesting, htables]
    exact h.images
  · rw [hnesting, htables]
    exact h.strings
  · rw [hnesting, htables]
    exact h.floatLists

/-- A step that adds a node without parts. -/
private theorem Regular.leaf (h : b.Regular n) (sharing : Sharing) {node : Node}
    (hnode : Node.finished node = [node]) (hname : node.exportId? = none)
    (hwithin : node.Within b.tables b.gradients.size)
    (huse : ∀ inst targetId target transform, node = .use inst targetId target transform →
      target ∈ b.finished ∧ target.exportId? = some targetId) :
    (({ b with sharing := sharing } : GraphBuilder).attach node).Regular
      { n with phase := .tree } := by
  refine h.extend node ?_ ?_ ?_ ?_ ?_ nofun ?_ hwithin huse
  · rw [finished_attach, hnode]
    rfl
  · rw [opened_attach]
    exact h.scopes
  · rw [exports_attach, hname]
    rfl
  · rw [tables_attach]
  · rw [gradients_attach]
  · rw [hname]
    rfl

private theorem Regular.init (h : b.Regular n) (hphase : n.phase = .fresh) (t : Tables)
    (sharing : Sharing) :
    ({ b with sharing := sharing, tables := t } : GraphBuilder).Regular
      { n with
        phase := .initialized
        images := t.images.length
        strings := t.strings.length
        floatLists := t.floatLists.length } := by
  obtain ⟨hfinished, hgradients⟩ := h.fresh hphase
  refine ⟨h.scopes, h.exported, h.exports, h.grounded, ?_, ?_, rfl, rfl, rfl, nofun⟩
  · intro a ha
    have hnone : a ∈ b.finished := ha
    rw [hfinished] at hnone
    cases hnone
  · intro a ha
    have hnone : a ∈ b.gradients.entries := ha
    rw [hgradients] at hnone
    simp at hnone

/-- A gradient is registered, if it is new. -/
private theorem Regular.gradient (h : b.Regular n) {g : Gradient}
    {table : CanonicalTable Gradient} {id : GradientId}
    (hintern : b.gradients.intern g = .ok (table, id))
    (hoffsets : g.offsets.toNat < n.floatLists) :
    ({ b with gradients := table } : GraphBuilder).Regular { n with phase := .tree } := by
  obtain ⟨hsize, hentries⟩ : b.gradients.size ≤ table.size ∧
      ∀ a ∈ table.entries, a ∈ b.gradients.entries ∨ a = g := by
    unfold CanonicalTable.intern at hintern
    split at hintern
    · cases hintern
      exact ⟨Nat.le_refl _, fun a ha => Or.inl ha⟩
    · obtain ⟨-, rfl, -⟩ := CanonicalTable.pushIndexed_ok hintern
      rw [CanonicalTable.size_push]
      exact ⟨Nat.le_succ _, fun a ha => Array.mem_push.mp ha⟩
  have hphase : Phase.tree ≠ .fresh := by decide
  refine ⟨h.scopes, h.exported, h.exports, h.grounded, fun a ha => (h.within a ha).mono hsize,
    ?_, h.images, h.strings, h.floatLists, fun he => absurd he hphase⟩
  intro a ha
  rcases hentries a ha with ha | rfl
  · exact h.offsets a ha
  · exact h.floatLists ▸ hoffsets

private theorem Regular.endGroup (h : b.Regular n) (hsound : n.Sound) {attrs : GroupAttrs}
    {children : Array Node} {rest : List GraphFrame}
    (hframes : b.frames = ⟨.group attrs, children⟩ :: rest) (sharing : Sharing) (inst : Instance)
    (transform : Option (Shared Affine)) {node : Node}
    (hnode : node = .group inst transform attrs.alpha attrs.exportId children.toList)
    {exportId : Option StringId} {scopes : List Scope}
    (hscopes : n.scopes = .group exportId :: scopes) :
    ((({ b with sharing := sharing, frames := rest } : GraphBuilder).attach node).remember
      attrs.exportId node).Regular
        { n with scopes := scopes, exported := exportId.toList ++ n.exported } := by
  have hopened := h.scopes
  rw [hframes, hscopes, List.map_cons] at hopened
  obtain ⟨hscope, hrest⟩ := List.cons.inj hopened
  have hsame : attrs.exportId = exportId := Scope.group.inj hscope
  have hname : node.exportId? = exportId := by
    rw [hnode, ← hsame]
    rfl
  refine h.extend node ?_ ?_ ?_ ?_ ?_ (hsound.phase_ne hscopes) ?_ ?_ ?_
  · rw [finished_remember, finished_attach, finished_of_frames hframes, hnode, Node.finished,
      ← List.append_assoc]
    rfl
  · rw [frames_remember, opened_attach]
    exact hrest
  · rw [exports_remember, exports_attach, hname, hsame]
  · rw [tables_remember, tables_attach]
  · rw [gradients_remember, gradients_attach]
  · rw [hname]
  · subst hnode
    intro id hid
    rw [← h.strings]
    refine hsound.inRange id (List.mem_append_left _ ?_)
    rw [Nesting.openNames, hscopes, List.filterMap_cons]
    simp [Nesting.openName?, ← hsame, hid]
  · rintro inst' targetId target transform' he
    rw [hnode] at he
    cases he

/-- Every call keeps what holds of the nodes that have ended. -/
theorem Regular.step (h : b.Regular n) (hsound : n.Sound) {call : Call} {reply : Reply}
    (haccept : Nesting.Accepted b.gradients.size n call m) (hbuilds : b.Builds call b' reply) :
    b'.Regular m := by
  have hnone {scope : GraphScope} : GraphFrame.finished ⟨scope, #[]⟩ =
      match scope with
      | .maskContent mask => Node.finishedAll mask
      | _ => [] := by
    cases scope <;> simp [GraphFrame.finished]
  cases hbuilds with
  | init t sharing =>
    cases haccept with
    | init _ hphase => exact h.init hphase t sharing
  | document d =>
    cases haccept with
    | document _ hphase => exact h.hold rfl h.scopes rfl rfl rfl nofun rfl
  | gradient hintern =>
    cases haccept with
    | gradient g hphase hoffsets => exact h.gradient hintern hoffsets
  | beginGroup attrs =>
    cases haccept with
    | beginGroup _ hphase hfree =>
      refine h.hold ?_ (congrArg (Scope.group attrs.exportId :: ·) h.scopes) rfl rfl rfl nofun rfl
      rw [finished_of_frames rfl, hnone, List.append_nil]
  | endGroup hframes sharing inst htransform hnode =>
    cases haccept with
    | endGroup exportId scopes hscopes =>
      exact h.endGroup hsound hframes sharing inst _ hnode hscopes
  | clip sharing inst hpath htransform =>
    cases haccept with
    | clip _ hphase => exact h.leaf sharing (by rw [Node.finished]) rfl trivial nofun
  | beginMask =>
    cases haccept with
    | beginMask hphase =>
      refine h.hold ?_ (congrArg (Scope.mask :: ·) h.scopes) rfl rfl rfl nofun rfl
      rw [finished_of_frames rfl, hnone, List.append_nil]
  | maskContent hframes =>
    cases haccept with
    | maskContent rest hscopes =>
      have hopened := h.scopes
      rw [hframes, hscopes, List.map_cons] at hopened
      obtain ⟨-, hrest⟩ := List.cons.inj hopened
      refine h.hold ?_ (congrArg (Scope.maskContent :: ·) hrest) rfl rfl rfl
        (hsound.phase_ne hscopes) rfl
      rw [finished_of_frames rfl, finished_of_frames hframes, hnone]
      rfl
  | @endMask mask content outer hframes sharing inst =>
    cases haccept with
    | endMask rest hscopes =>
      have hopened := h.scopes
      rw [hframes, hscopes, List.map_cons] at hopened
      obtain ⟨-, hrest⟩ := List.cons.inj hopened
      have hnode : (Node.masked inst mask content.toList).Within b.tables b.gradients.size :=
        trivial
      refine h.extend _ ?_ ?_ ?_ ?_ ?_ (hsound.phase_ne hscopes) rfl hnode
        (fun _ _ _ _ he => nomatch he)
      · rw [finished_attach, finished_of_frames hframes, Node.finished, ← List.append_assoc]
        rfl
      · rw [opened_attach]
        exact hrest
      · rw [exports_attach]
        rfl
      · rw [tables_attach]
      · rw [gradients_attach]
  | shape sharing inst hgeometry hpaint htransform =>
    cases haccept with
    | shape s hphase hwithin =>
      refine h.leaf sharing (by rw [Node.finished]) rfl ?_ nofun
      rw [h.floatLists, ← hpaint] at hwithin
      exact hwithin
  | image leaf sharing inst =>
    cases haccept with
    | image _ hphase himage =>
      rw [h.images] at himage
      exact h.leaf sharing (by rw [Node.finished]) rfl himage (fun _ _ _ _ he => nomatch he)
  | text leaf sharing inst =>
    cases haccept with
    | text _ hphase hpaint htext hfamily =>
      refine h.leaf sharing (by rw [Node.finished]) rfl ?_ nofun
      rw [h.floatLists] at hpaint
      rw [h.strings] at htext hfamily
      exact ⟨hpaint, htext, hfamily⟩
  | use htarget sharing inst htransform =>
    cases haccept with
    | use u hphase hclosed =>
      refine h.leaf sharing (by rw [Node.finished]) rfl trivial ?_
      rintro inst' targetId target transform he
      cases he
      exact h.exports _ (mem_of_lookup htarget)

/-- A builder that has nothing open finishes a regular image. -/
theorem Regular.complete (h : b.Regular n) (hsound : n.Sound) {g : GraphImage}
    (hcomplete : backend.complete b = .ok g) : g.Regular := by
  obtain ⟨hframes, rfl⟩ := complete_eq_ok.mp hcomplete
  have hfinished : b.finished = Node.finishedAll b.root.toList := by
    simp [finished, hframes]
  have hdistinct := hsound.distinct
  have hexported := h.exported
  have hgrounded := h.grounded
  have hwithin := h.within
  rw [hfinished] at hexported hgrounded hwithin
  refine ⟨⟨?_, hwithin, h.offsets⟩, hgrounded⟩
  rw [hexported]
  exact (List.reverse_perm _).nodup_iff.mpr (List.nodup_append.mp hdistinct).2.1

end GraphBuilder

/-- What a builder finishes is regular. -/
theorem GraphImage.regular_of_ofCalls {stamps : List Nat} {seed : NodeCache}
    (hseed : seed.Grown stamps) {stamp : Nat} (hstamp : stamp ∉ stamps) {shareNodes : Bool}
    {calls : List Call} {g : GraphImage}
    (h : GraphImage.ofCalls stamp shareNodes seed calls = .ok g) : g.Regular := by
  obtain ⟨items, hfounded⟩ := hseed.founded
  obtain ⟨q, hruns, -, hcomplete⟩ := Backend.replay_eq_ok.mp h
  obtain ⟨hsound, hregular, -⟩ := hruns.preserves
    (P := fun p => p.session.nesting.Sound ∧ p.session.state.Regular p.session.nesting ∧
      ∃ items, p.session.state.Coherent (stamp :: stamps) items)
    (fun hp hstep => by
      obtain ⟨hsound, hregular, items, hcoherent⟩ := hp
      cases hstep with
      | step hmap haccept hperform =>
        obtain ⟨hbuilds, hcoherent'⟩ := GraphBuilder.perform_spec hcoherent hperform
        exact ⟨hsound.step haccept, hregular.step hsound haccept hbuilds, hcoherent'⟩)
    ⟨Nesting.sound_start, GraphBuilder.regular_start stamp shareNodes seed, items,
      GraphBuilder.coherent_start hfounded hstamp shareNodes⟩
  exact hregular.complete hsound hcomplete

end VectorImage
