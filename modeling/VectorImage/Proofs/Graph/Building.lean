import VectorImage.Graph.Builder
import VectorImage.Proofs.Call.Replay
import VectorImage.Proofs.Graph.Coherence

/-!
What a builder does with a call, said once. `Makes` has one case for each kind of call: what is
shared, the node that is added and what becomes of the frames. Sharing stays coherent, so the parts
of the added node are the values that the call gave; `Builds` is what is then known of the step, up
to instances.
-/

set_option autoImplicit false
set_option relaxedAutoImplicit false

namespace VectorImage

/-- The mask half of a scope is in the inventory. -/
def GraphScope.Within (items : Inventory) : GraphScope → Prop
  | .maskContent nodes => items.HasNodes nodes
  | _ => True

theorem GraphScope.Within.mono {items items' : Inventory} (hsub : items ⊆ items')
    {scope : GraphScope} (h : scope.Within items) : scope.Within items' := by
  cases scope with
  | group attrs => trivial
  | mask => trivial
  | maskContent nodes => exact Inventory.HasNodes.mono hsub h

namespace GraphBuilder

/-- A builder with no open scope finishes, and its image is what it holds. -/
theorem complete_eq_ok {b : GraphBuilder} {g : GraphImage} : backend.complete b = .ok g ↔
    b.frames = [] ∧ g = {
      document := b.document
      root := ⟨⟨b.sharing.stamp, []⟩, b.root.toList⟩
      tables := b.tables
      gradients := b.gradients.entries
      cache := b.sharing.met } := by
  show b.complete = .ok g ↔ _
  unfold complete
  split
  · next hframes => simp only [hframes, Except.ok.injEq, true_and, eq_comm]
  · next hframes => simp only [hframes, reduceCtorEq, false_and]

/-- Add a finished node to the innermost scope. -/
def attach (b : GraphBuilder) (node : Node) : GraphBuilder :=
  match b.frames with
  | [] => { b with root := b.root.push node }
  | f :: rest => { b with frames := { f with children := f.children.push node } :: rest }

/-- Remember a finished group that has a name. -/
def remember (b : GraphBuilder) (exportId : Option StringId) (node : Node) : GraphBuilder :=
  match exportId with
  | some id => { b with exports := (id, node) :: b.exports }
  | none => b

/-- Something is true of a builder's sharing with an inventory, and the nodes that the builder holds
are in the inventory. -/
structure Holds (P : Inventory → Sharing → Prop) (items : Inventory) (b : GraphBuilder) : Prop where
  sharing : P items b.sharing
  root : items.HasNodes b.root.toList
  children : ∀ f ∈ b.frames, items.HasNodes f.children.toList
  scopes : ∀ f ∈ b.frames, f.scope.Within items
  exports : ∀ e ∈ b.exports, Item.node e.2 ∈ items

/-- A builder's sharing is coherent and the nodes it holds are in the inventory. -/
abbrev Coherent (stamps : List Nat) (items : Inventory) (b : GraphBuilder) : Prop :=
  b.Holds (Sharing.Coherent stamps) items

variable {P : Inventory → Sharing → Prop} {stamps : List Nat} {items items' : Inventory}
  {b b' : GraphBuilder}

theorem holds_start {stamp : Nat} {shareNodes : Bool} {seed : NodeCache}
    (h : P items (.start stamp seed)) : (start stamp shareNodes seed).Holds P items := by
  refine ⟨h, ?_, ?_, ?_, ?_⟩
  · intro n hn
    cases hn
  · intro f hf
    cases hf
  · intro f hf
    cases hf
  · intro e he
    cases he

/-- Sharing goes on while the inventory grows. -/
theorem Holds.share (h : b.Holds P items) (hsub : items ⊆ items') {s : Sharing} (hs : P items' s) :
    ({ b with sharing := s } : GraphBuilder).Holds P items' :=
  ⟨hs, h.root.mono hsub, fun f hf => (h.children f hf).mono hsub,
    fun f hf => (h.scopes f hf).mono hsub, fun e he => hsub (h.exports e he)⟩

theorem Holds.attach (h : b.Holds P items) {node : Node} (hnode : Item.node node ∈ items) :
    (b.attach node).Holds P items := by
  have hpush {nodes : Array Node} (hnodes : items.HasNodes nodes.toList) :
      items.HasNodes (nodes.push node).toList := by
    intro n hn
    rw [Array.toList_push, List.mem_append, List.mem_singleton] at hn
    rcases hn with hn | rfl
    · exact hnodes n hn
    · exact hnode
  unfold GraphBuilder.attach
  split
  · next hframes =>
    exact ⟨h.sharing, hpush h.root, h.children, h.scopes, h.exports⟩
  · next f rest hframes =>
    have hmem : f ∈ b.frames := hframes ▸ List.mem_cons_self
    have hrest : ∀ g ∈ rest, g ∈ b.frames := fun g hg => hframes ▸ List.mem_cons_of_mem f hg
    refine ⟨h.sharing, h.root, ?_, ?_, h.exports⟩
    · intro g hg
      rcases List.mem_cons.mp hg with rfl | hg
      · exact hpush (h.children f hmem)
      · exact h.children g (hrest g hg)
    · intro g hg
      rcases List.mem_cons.mp hg with rfl | hg
      · exact h.scopes f hmem
      · exact h.scopes g (hrest g hg)

theorem Holds.remember (h : b.Holds P items) {node : Node} (hnode : Item.node node ∈ items)
    (exportId : Option StringId) : (b.remember exportId node).Holds P items := by
  cases exportId with
  | none => exact h
  | some id =>
    refine ⟨h.sharing, h.root, h.children, h.scopes, fun e he => ?_⟩
    rcases List.mem_cons.mp he with rfl | he
    · exact hnode
    · exact h.exports e he

/-- Closing the innermost scope leaves the outer ones. -/
theorem Holds.close (h : b.Holds P items) {f : GraphFrame} {rest : List GraphFrame}
    (hframes : b.frames = f :: rest) :
    ({ b with frames := rest } : GraphBuilder).Holds P items ∧
      items.HasNodes f.children.toList ∧ f.scope.Within items := by
  have hmem : f ∈ b.frames := hframes ▸ List.mem_cons_self
  have hrest : ∀ g ∈ rest, g ∈ b.frames := fun g hg => hframes ▸ List.mem_cons_of_mem f hg
  exact ⟨⟨h.sharing, h.root, fun g hg => h.children g (hrest g hg),
    fun g hg => h.scopes g (hrest g hg), h.exports⟩, h.children f hmem, h.scopes f hmem⟩

theorem Holds.openScope (h : b.Holds P items) {scope : GraphScope} (hscope : scope.Within items) :
    ({ b with frames := ⟨scope, #[]⟩ :: b.frames } : GraphBuilder).Holds P items := by
  refine ⟨h.sharing, h.root, ?_, ?_, h.exports⟩
  · intro g hg
    rcases List.mem_cons.mp hg with rfl | hg
    · intro n hn
      cases hn
    · exact h.children g hg
  · intro g hg
    rcases List.mem_cons.mp hg with rfl | hg
    · exact hscope
    · exact h.scopes g hg

theorem withSharing_eq_ok {α : Type} {m : StateM Sharing α} {a : α}
    (h : withSharing m b = .ok (a, b')) :
    ∃ s, m b.sharing = (a, s) ∧ b' = { b with sharing := s } := by
  unfold withSharing at h
  generalize hm : m b.sharing = r at h
  obtain ⟨a', s⟩ := r
  cases h
  exact ⟨s, rfl, rfl⟩

/-- Adding a node makes it, shares it where nodes are shared, and attaches what comes of it. -/
private theorem add_eq_ok {f : Instance → Node} {node : Node} (hadd : add f b = .ok (node, b')) :
    ∃ s, b.sharing.Adds b.shareNodes f node s ∧
      b' = ({ b with sharing := s } : GraphBuilder).attach node := by
  obtain ⟨i, b₁, hmint, hadd⟩ := state_bind_eq_ok.mp hadd
  obtain ⟨s₁, hmint, rfl⟩ := withSharing_eq_ok hmint
  cases hmint
  obtain ⟨w, b₂, hget, hadd⟩ := state_bind_eq_ok.mp hadd
  obtain ⟨rfl, rfl⟩ := state_get_eq_ok.mp hget
  split at hadd
  · next hyes =>
    obtain ⟨n, b₃, hshare, hadd⟩ := state_bind_eq_ok.mp hadd
    obtain ⟨s₂, hnode, rfl⟩ := withSharing_eq_ok hshare
    obtain ⟨_, b₄, hmodify, hadd⟩ := state_bind_eq_ok.mp hadd
    obtain rfl := state_modify_eq_ok.mp hmodify
    obtain ⟨rfl, rfl⟩ := state_pure_eq_ok.mp hadd
    exact ⟨s₂, .shared hyes hnode, rfl⟩
  · next hno =>
    obtain ⟨n, b₃, hpure, hadd⟩ := state_bind_eq_ok.mp hadd
    obtain ⟨rfl, rfl⟩ := state_pure_eq_ok.mp hpure
    obtain ⟨_, b₄, hmodify, hadd⟩ := state_bind_eq_ok.mp hadd
    obtain rfl := state_modify_eq_ok.mp hmodify
    obtain ⟨rfl, rfl⟩ := state_pure_eq_ok.mp hadd
    exact ⟨_, .own (Bool.eq_false_iff.mpr hno), rfl⟩

/-- What the calls do to a builder, but for the sharing. -/
inductive Builds (b : GraphBuilder) : Call → GraphBuilder → Reply → Prop
  | init (t : Tables) (s : Sharing) : Builds b (.init t) { b with sharing := s, tables := t } .done
  | document (d : Document) : Builds b (.document d) { b with document := d } .done
  | gradient {g : Gradient} {table : CanonicalTable Gradient} {id : GradientId}
      (hintern : b.gradients.intern g = .ok (table, id)) :
    Builds b (.gradient g) { b with gradients := table } (.gradient id)
  | beginGroup (attrs : GroupAttrs) :
    Builds b (.beginGroup attrs) { b with frames := ⟨.group attrs, #[]⟩ :: b.frames } .done
  | endGroup {attrs : GroupAttrs} {children : Array Node} {rest : List GraphFrame}
      (hframes : b.frames = ⟨.group attrs, children⟩ :: rest) (s : Sharing) {node : Node}
      (i : Instance) {transform : Option (Shared Affine)}
      (htransform : sharedValue transform = attrs.transform)
      (hnode : node = .group i transform attrs.alpha attrs.exportId children.toList) :
    Builds b .endGroup
      ((({ b with sharing := s, frames := rest } : GraphBuilder).attach node).remember
        attrs.exportId node) .done
  | clip {c : ClipPath} (s : Sharing) (i : Instance) {path : Shared Path}
      {transform : Option (Shared Affine)} (hpath : path.value = c.path)
      (htransform : sharedValue transform = c.transform) :
    Builds b (.clip c)
      (({ b with sharing := s } : GraphBuilder).attach (.clip i path c.rule transform)) .done
  | beginMask : Builds b .beginMask { b with frames := ⟨.mask, #[]⟩ :: b.frames } .done
  | maskContent {children : Array Node} {rest : List GraphFrame}
      (hframes : b.frames = ⟨.mask, children⟩ :: rest) :
    Builds b .maskContent
      { b with frames := ⟨.maskContent children.toList, #[]⟩ :: rest } .done
  | endMask {nodes : List Node} {children : Array Node} {rest : List GraphFrame}
      (hframes : b.frames = ⟨.maskContent nodes, children⟩ :: rest) (s : Sharing) (i : Instance) :
    Builds b .endMask
      (({ b with sharing := s, frames := rest } : GraphBuilder).attach
        (.masked i nodes children.toList)) .done
  | shape {leaf : Shape} (s : Sharing) (i : Instance) {geometry : NodeGeometry}
      {paint : Shared Paint} {transform : Option (Shared Affine)}
      (hgeometry : geometry.value = leaf.geometry) (hpaint : paint.value = leaf.paint)
      (htransform : sharedValue transform = leaf.transform) :
    Builds b (.shape leaf)
      (({ b with sharing := s } : GraphBuilder).attach (.shape i geometry paint transform)) .done
  | image (leaf : ImageLeaf) (s : Sharing) (i : Instance) :
    Builds b (.image leaf) (({ b with sharing := s } : GraphBuilder).attach (.image i leaf)) .done
  | text (leaf : TextLeaf) (s : Sharing) (i : Instance) :
    Builds b (.text leaf) (({ b with sharing := s } : GraphBuilder).attach (.text i leaf)) .done
  | use {u : UseRef} {target : Node} (htarget : b.exports.lookup u.target = some target)
      (s : Sharing) (i : Instance) {transform : Option (Shared Affine)}
      (htransform : sharedValue transform = u.transform) :
    Builds b (.use u)
      (({ b with sharing := s } : GraphBuilder).attach (.use i u.target target transform)) .done

/-- What the calls do to a builder, its sharing included. -/
inductive Makes (b : GraphBuilder) : Call → GraphBuilder → Reply → Prop
  | init (t : Tables) {s : Sharing} (hs : b.sharing.Aside s) :
    Makes b (.init t) { b with sharing := s, tables := t } .done
  | document (d : Document) : Makes b (.document d) { b with document := d } .done
  | gradient {g : Gradient} {table : CanonicalTable Gradient} {id : GradientId}
      (hintern : b.gradients.intern g = .ok (table, id)) :
    Makes b (.gradient g) { b with gradients := table } (.gradient id)
  | beginGroup (attrs : GroupAttrs) :
    Makes b (.beginGroup attrs) { b with frames := ⟨.group attrs, #[]⟩ :: b.frames } .done
  | endGroup {attrs : GroupAttrs} {children : Array Node} {rest : List GraphFrame}
      (hframes : b.frames = ⟨.group attrs, children⟩ :: rest) {transform : Option (Shared Affine)}
      {node : Node} {s₁ s₂ : Sharing}
      (htransform : Sharing.transform attrs.transform b.sharing = (transform, s₁))
      (hadds : s₁.Adds b.shareNodes
        (fun i => .group i transform attrs.alpha attrs.exportId children.toList) node s₂) :
    Makes b .endGroup
      ((({ b with sharing := s₂, frames := rest } : GraphBuilder).attach node).remember
        attrs.exportId node) .done
  | clip {c : ClipPath} {path : Shared Path} {transform : Option (Shared Affine)} {node : Node}
      {s₁ s₂ s₃ : Sharing} (hpath : Sharing.path c.path b.sharing = (path, s₁))
      (htransform : Sharing.transform c.transform s₁ = (transform, s₂))
      (hadds : s₂.Adds b.shareNodes (fun i => .clip i path c.rule transform) node s₃) :
    Makes b (.clip c) (({ b with sharing := s₃ } : GraphBuilder).attach node) .done
  | beginMask : Makes b .beginMask { b with frames := ⟨.mask, #[]⟩ :: b.frames } .done
  | maskContent {children : Array Node} {rest : List GraphFrame}
      (hframes : b.frames = ⟨.mask, children⟩ :: rest) :
    Makes b .maskContent { b with frames := ⟨.maskContent children.toList, #[]⟩ :: rest } .done
  | endMask {nodes : List Node} {children : Array Node} {rest : List GraphFrame}
      (hframes : b.frames = ⟨.maskContent nodes, children⟩ :: rest) {node : Node} {s : Sharing}
      (hadds : b.sharing.Adds b.shareNodes (fun i => .masked i nodes children.toList) node s) :
    Makes b .endMask
      (({ b with sharing := s, frames := rest } : GraphBuilder).attach node) .done
  | shape {leaf : Shape} {geometry : NodeGeometry} {paint : Shared Paint}
      {transform : Option (Shared Affine)} {node : Node} {s₁ s₂ s₃ s₄ : Sharing}
      (hgeometry : Sharing.geometry leaf.geometry b.sharing = (geometry, s₁))
      (hpaint : Sharing.paint leaf.paint s₁ = (paint, s₂))
      (htransform : Sharing.transform leaf.transform s₂ = (transform, s₃))
      (hadds : s₃.Adds b.shareNodes (fun i => .shape i geometry paint transform) node s₄) :
    Makes b (.shape leaf) (({ b with sharing := s₄ } : GraphBuilder).attach node) .done
  | image (leaf : ImageLeaf) {node : Node} {s : Sharing}
      (hadds : b.sharing.Adds b.shareNodes (fun i => .image i leaf) node s) :
    Makes b (.image leaf) (({ b with sharing := s } : GraphBuilder).attach node) .done
  | text (leaf : TextLeaf) {node : Node} {s : Sharing}
      (hadds : b.sharing.Adds b.shareNodes (fun i => .text i leaf) node s) :
    Makes b (.text leaf) (({ b with sharing := s } : GraphBuilder).attach node) .done
  | use {u : UseRef} {target : Node} (htarget : b.exports.lookup u.target = some target)
      {transform : Option (Shared Affine)} {node : Node} {s₁ s₂ : Sharing}
      (htransform : Sharing.transform u.transform b.sharing = (transform, s₁))
      (hadds : s₁.Adds b.shareNodes (fun i => .use i u.target target transform) node s₂) :
    Makes b (.use u) (({ b with sharing := s₂ } : GraphBuilder).attach node) .done

/-! A call that is performed is one of these steps. -/

/-- A step that only meets values of kinds that no node has. -/
private def GoesAside (m : Build Unit) : Prop :=
  ∀ {b b' : GraphBuilder}, m b = .ok ((), b') →
    ∃ s, b.sharing.Aside s ∧ b' = { b with sharing := s }

private theorem goesAside_forM {α : Type} {f : α → Build Unit} (hf : ∀ v, GoesAside (f v))
    (vs : List α) : GoesAside (vs.forM f) := by
  induction vs with
  | nil =>
    intro b b' hm
    cases hm
    exact ⟨b.sharing, .refl _, rfl⟩
  | cons v vs ih =>
    intro b b' hm
    change (f v >>= fun _ => vs.forM f) b = .ok ((), b') at hm
    obtain ⟨_, b₁, hfirst, hm⟩ := state_bind_eq_ok.mp hm
    obtain ⟨s₁, h₁, rfl⟩ := hf v hfirst
    obtain ⟨s₂, h₂, rfl⟩ := ih hm
    exact ⟨s₂, h₁.trans h₂, rfl⟩

private theorem goesAside_value {α : Type} {m : StateM Sharing α}
    (hm : ∀ s : Sharing, s.Aside (m s).2) : GoesAside (do let _ ← withSharing m) := by
  intro b b' h
  obtain ⟨w, b₁, hshare, h⟩ := state_bind_eq_ok.mp h
  obtain ⟨-, rfl⟩ := state_pure_eq_ok.mp h
  obtain ⟨s, hs, rfl⟩ := withSharing_eq_ok hshare
  have haside := hm b.sharing
  rw [hs] at haside
  exact ⟨s, haside, rfl⟩

private theorem init_eq_ok {t : Tables} (hinit : init t b = .ok ((), b')) :
    ∃ s, b.sharing.Aside s ∧ b' = { b with sharing := s, tables := t } := by
  obtain ⟨_, b₁, himages, hinit⟩ := state_bind_eq_ok.mp hinit
  obtain ⟨_, b₂, hstrings, hinit⟩ := state_bind_eq_ok.mp hinit
  obtain ⟨_, b₃, hlists, hinit⟩ := state_bind_eq_ok.mp hinit
  obtain rfl := state_modify_eq_ok.mp hinit
  have hnext (s : Sharing) : s.next ≤ s.next + 1 := Nat.le_succ _
  obtain ⟨s₁, h₁, rfl⟩ := goesAside_forM (fun v => goesAside_value (m := Sharing.raster v)
    fun s => ⟨rfl, hnext s, rfl, rfl, rfl, rfl, rfl, rfl⟩) t.images himages
  obtain ⟨s₂, h₂, rfl⟩ := goesAside_forM (fun v => goesAside_value (m := Sharing.string v)
    fun s => ⟨rfl, hnext s, rfl, rfl, rfl, rfl, rfl, rfl⟩) t.strings hstrings
  obtain ⟨s₃, h₃, rfl⟩ := goesAside_forM (fun v => goesAside_value (m := Sharing.floatList v)
    fun s => ⟨rfl, hnext s, rfl, rfl, rfl, rfl, rfl, rfl⟩) t.floatLists hlists
  exact ⟨s₃, (h₁.trans h₂).trans h₃, rfl⟩

private theorem closeScope_eq_ok {f : GraphFrame} (hclose : closeScope b = .ok (f, b')) :
    ∃ rest, b.frames = f :: rest ∧ b' = { b with frames := rest } := by
  obtain ⟨c, b₁, hget, hframe⟩ := state_bind_eq_ok.mp hclose
  obtain ⟨rfl, rfl⟩ := state_get_eq_ok.mp hget
  cases hframes : b₁.frames with
  | nil =>
    rw [hframes] at hframe
    cases hframe
  | cons g rest =>
    rw [hframes] at hframe
    obtain ⟨_, b₂, hmodify, hpure⟩ := state_bind_eq_ok.mp hframe
    obtain rfl := state_modify_eq_ok.mp hmodify
    obtain ⟨rfl, rfl⟩ := state_pure_eq_ok.mp hpure
    exact ⟨rest, rfl, rfl⟩

private theorem makes_endGroup (hend : endGroup b = .ok ((), b')) : b.Makes .endGroup b' .done := by
  obtain ⟨⟨scope, children⟩, b₁, hclose, hend⟩ := state_bind_eq_ok.mp hend
  obtain ⟨rest, hframes, rfl⟩ := closeScope_eq_ok hclose
  cases scope with
  | mask => cases hend
  | maskContent nodes => cases hend
  | group attrs =>
    obtain ⟨transform, b₂, hshare, hnode⟩ := state_bind_eq_ok.mp hend
    obtain ⟨s₁, htransform, rfl⟩ := withSharing_eq_ok hshare
    obtain ⟨node, b₃, hadd, hexport⟩ := state_bind_eq_ok.mp hnode
    obtain ⟨s₂, hadds, rfl⟩ := add_eq_ok hadd
    have hmade := Makes.endGroup hframes htransform hadds
    cases hid : attrs.exportId with
    | none =>
      rw [hid] at hexport hmade
      obtain ⟨-, rfl⟩ := state_pure_eq_ok.mp hexport
      exact hmade
    | some id =>
      rw [hid] at hexport hmade
      obtain rfl := state_modify_eq_ok.mp hexport
      exact hmade

private theorem done_eq_ok {m : Build Unit} {reply : Reply}
    (h : (do m; return Reply.done) b = .ok (reply, b')) : m b = .ok ((), b') ∧ reply = .done := by
  obtain ⟨_, b₁, hm, hpure⟩ := state_bind_eq_ok.mp h
  obtain ⟨rfl, rfl⟩ := state_pure_eq_ok.mp hpure
  exact ⟨hm, rfl⟩

theorem makes_of_perform {call : Call} {reply : Reply}
    (hperform : b.perform call = .ok (b', reply)) : b.Makes call b' reply := by
  obtain ⟨⟨reply', b₀⟩, hcall, hpair⟩ := map_eq_ok.mp hperform
  cases hpair
  cases call with
  | init t =>
    obtain ⟨hinit, rfl⟩ := done_eq_ok hcall
    obtain ⟨s, hs, rfl⟩ := init_eq_ok hinit
    exact .init t hs
  | document d =>
    obtain ⟨hmodify, rfl⟩ := done_eq_ok hcall
    obtain rfl := state_modify_eq_ok.mp hmodify
    exact .document d
  | gradient g =>
    obtain ⟨id, b₁, hgradient, hpure⟩ := state_bind_eq_ok.mp hcall
    obtain ⟨rfl, rfl⟩ := state_pure_eq_ok.mp hpure
    obtain ⟨c, b₂, hget, hintern⟩ := state_bind_eq_ok.mp hgradient
    obtain ⟨rfl, rfl⟩ := state_get_eq_ok.mp hget
    obtain ⟨⟨table, id'⟩, b₃, hlift, hmodify⟩ := state_bind_eq_ok.mp hintern
    obtain ⟨htable, rfl⟩ := state_lift_eq_ok.mp hlift
    obtain ⟨_, b₄, hmodify, hpure⟩ := state_bind_eq_ok.mp hmodify
    obtain rfl := state_modify_eq_ok.mp hmodify
    obtain ⟨rfl, rfl⟩ := state_pure_eq_ok.mp hpure
    exact .gradient htable
  | beginGroup attrs =>
    obtain ⟨hopen, rfl⟩ := done_eq_ok hcall
    obtain rfl := state_modify_eq_ok.mp hopen
    exact .beginGroup attrs
  | endGroup =>
    obtain ⟨hend, rfl⟩ := done_eq_ok hcall
    exact makes_endGroup hend
  | clip c =>
    obtain ⟨hclip, rfl⟩ := done_eq_ok hcall
    obtain ⟨path, b₁, hshare, hclip⟩ := state_bind_eq_ok.mp hclip
    obtain ⟨s₁, hpath, rfl⟩ := withSharing_eq_ok hshare
    obtain ⟨transform, b₂, hshare, hnode⟩ := state_bind_eq_ok.mp hclip
    obtain ⟨s₂, htransform, rfl⟩ := withSharing_eq_ok hshare
    obtain ⟨node, b₃, hadd, hpure⟩ := state_bind_eq_ok.mp hnode
    obtain ⟨s₃, hadds, rfl⟩ := add_eq_ok hadd
    obtain ⟨-, rfl⟩ := state_pure_eq_ok.mp hpure
    exact .clip hpath htransform hadds
  | beginMask =>
    obtain ⟨hopen, rfl⟩ := done_eq_ok hcall
    obtain rfl := state_modify_eq_ok.mp hopen
    exact .beginMask
  | maskContent =>
    obtain ⟨hmask, rfl⟩ := done_eq_ok hcall
    obtain ⟨⟨scope, children⟩, b₁, hclose, hopen⟩ := state_bind_eq_ok.mp hmask
    obtain ⟨rest, hframes, rfl⟩ := closeScope_eq_ok hclose
    cases scope with
    | group attrs => cases hopen
    | maskContent nodes => cases hopen
    | mask =>
      obtain rfl := state_modify_eq_ok.mp hopen
      exact .maskContent hframes
  | endMask =>
    obtain ⟨hend, rfl⟩ := done_eq_ok hcall
    obtain ⟨⟨scope, children⟩, b₁, hclose, hnode⟩ := state_bind_eq_ok.mp hend
    obtain ⟨rest, hframes, rfl⟩ := closeScope_eq_ok hclose
    cases scope with
    | group attrs => cases hnode
    | mask => cases hnode
    | maskContent nodes =>
      obtain ⟨node, b₃, hadd, hpure⟩ := state_bind_eq_ok.mp hnode
      obtain ⟨s, hadds, rfl⟩ := add_eq_ok hadd
      obtain ⟨-, rfl⟩ := state_pure_eq_ok.mp hpure
      exact .endMask hframes hadds
  | shape leaf =>
    obtain ⟨hshape, rfl⟩ := done_eq_ok hcall
    obtain ⟨geometry, b₁, hshare, hshape⟩ := state_bind_eq_ok.mp hshape
    obtain ⟨s₁, hgeometry, rfl⟩ := withSharing_eq_ok hshare
    obtain ⟨paint, b₂, hshare, hshape⟩ := state_bind_eq_ok.mp hshape
    obtain ⟨s₂, hpaint, rfl⟩ := withSharing_eq_ok hshare
    obtain ⟨transform, b₃, hshare, hnode⟩ := state_bind_eq_ok.mp hshape
    obtain ⟨s₃, htransform, rfl⟩ := withSharing_eq_ok hshare
    obtain ⟨node, b₄, hadd, hpure⟩ := state_bind_eq_ok.mp hnode
    obtain ⟨s₄, hadds, rfl⟩ := add_eq_ok hadd
    obtain ⟨-, rfl⟩ := state_pure_eq_ok.mp hpure
    exact .shape hgeometry hpaint htransform hadds
  | image leaf =>
    obtain ⟨node, b₁, hadd, hpure⟩ := state_bind_eq_ok.mp hcall
    obtain ⟨s, hadds, rfl⟩ := add_eq_ok hadd
    obtain ⟨rfl, rfl⟩ := state_pure_eq_ok.mp hpure
    exact .image leaf hadds
  | text leaf =>
    obtain ⟨node, b₁, hadd, hpure⟩ := state_bind_eq_ok.mp hcall
    obtain ⟨s, hadds, rfl⟩ := add_eq_ok hadd
    obtain ⟨rfl, rfl⟩ := state_pure_eq_ok.mp hpure
    exact .text leaf hadds
  | use u =>
    obtain ⟨huse, rfl⟩ := done_eq_ok hcall
    obtain ⟨c, b₁, hget, hmatch⟩ := state_bind_eq_ok.mp huse
    obtain ⟨rfl, rfl⟩ := state_get_eq_ok.mp hget
    cases hlookup : b₁.exports.lookup u.target with
    | none =>
      rw [hlookup] at hmatch
      cases hmatch
    | some target =>
      rw [hlookup] at hmatch
      obtain ⟨transform, b₂, hshare, hnode⟩ := state_bind_eq_ok.mp hmatch
      obtain ⟨s₁, htransform, rfl⟩ := withSharing_eq_ok hshare
      obtain ⟨node, b₃, hadd, hpure⟩ := state_bind_eq_ok.mp hnode
      obtain ⟨s₂, hadds, rfl⟩ := add_eq_ok hadd
      obtain ⟨-, rfl⟩ := state_pure_eq_ok.mp hpure
      exact .use hlookup htransform hadds

/-! What a step keeps true. -/

/-- A node is added whose parts are in the inventory. -/
private theorem Holds.adds (h : b.Holds P items) (law : Sharing.Law b.shareNodes P)
    (hsub : items ⊆ items') {s s' : Sharing} (hs : P items' s) {f : Instance → Node} {node : Node}
    (hadds : s.Adds b.shareNodes f node s') (hinst : ∀ i, (f i).inst = i)
    (hrenew : ∀ i j, (f i).renew j = f j) (hparts : ∀ i, items'.HasParts (f i)) :
    ∃ items'' i, items ⊆ items'' ∧ node = f i ∧ Item.node node ∈ items'' ∧
      (({ b with sharing := s' } : GraphBuilder).attach node).Holds P items'' := by
  obtain ⟨items'', i, hmore, hs', hnode, hmem⟩ := law.adds hs hadds hinst hrenew hparts
  have hall : items ⊆ items'' := fun a ha => hmore (hsub ha)
  exact ⟨items'', i, hall, hnode, hmem, (h.share hall hs').attach hmem⟩

/-- A step builds what its call asks for, and keeps what sharing keeps, of a larger inventory. -/
theorem Makes.spec {call : Call} {reply : Reply} (hmakes : b.Makes call b' reply)
    (law : Sharing.Law b.shareNodes P) (h : b.Holds P items) :
    b.Builds call b' reply ∧ ∃ items', items ⊆ items' ∧ b'.Holds P items' := by
  have hrefl : items ⊆ items := fun a ha => ha
  cases hmakes with
  | init t hs =>
    exact ⟨.init t _, items, hrefl, law.aside h.sharing hs, h.root, h.children, h.scopes, h.exports⟩
  | document d =>
    exact ⟨.document d, items, hrefl, h.sharing, h.root, h.children, h.scopes, h.exports⟩
  | gradient hintern =>
    exact ⟨.gradient hintern, items, hrefl, h.sharing, h.root, h.children, h.scopes, h.exports⟩
  | beginGroup attrs => exact ⟨.beginGroup attrs, items, hrefl, h.openScope trivial⟩
  | @endGroup attrs children rest hframes transform node s₁ s₂ htransform hadds =>
    obtain ⟨h₁, hchildren, -⟩ := h.close hframes
    obtain ⟨items₁, hsub, hs₁, hmem⟩ := law.transform? h.sharing htransform
    obtain ⟨items₂, i, hall, hnode, hitem, h₂⟩ := h₁.adds law hsub hs₁ hadds (fun _ => rfl)
      (fun _ _ => rfl) fun _ => ⟨hmem, hchildren.mono hsub⟩
    exact ⟨.endGroup hframes s₂ i (Sharing.value_transform htransform) hnode, items₂, hall,
      h₂.remember hitem _⟩
  | @clip c path transform node s₁ s₂ s₃ hpath htransform hadds =>
    obtain ⟨items₁, hsub₁, hs₁, hmem₁⟩ := law.path h.sharing hpath
    obtain ⟨items₂, hsub₂, hs₂, hmem₂⟩ := law.transform? hs₁ htransform
    obtain ⟨items₃, i, hall, rfl, -, h₃⟩ := h.adds law (fun a ha => hsub₂ (hsub₁ ha)) hs₂ hadds
      (fun _ => rfl) (fun _ _ => rfl) fun _ => ⟨hsub₂ hmem₁, hmem₂⟩
    exact ⟨.clip s₃ i (Sharing.value_shareValue hpath) (Sharing.value_transform htransform), items₃,
      hall, h₃⟩
  | beginMask => exact ⟨.beginMask, items, hrefl, h.openScope trivial⟩
  | maskContent hframes =>
    obtain ⟨h₁, hchildren, -⟩ := h.close hframes
    exact ⟨.maskContent hframes, items, hrefl, h₁.openScope hchildren⟩
  | @endMask nodes children rest hframes node s hadds =>
    obtain ⟨h₁, hchildren, hmask⟩ := h.close hframes
    obtain ⟨items₁, i, hall, rfl, -, h₂⟩ := h₁.adds law hrefl h.sharing hadds (fun _ => rfl)
      (fun _ _ => rfl) fun _ => ⟨hmask, hchildren⟩
    exact ⟨.endMask hframes s i, items₁, hall, h₂⟩
  | @shape leaf geometry paint transform node s₁ s₂ s₃ s₄ hgeometry hpaint htransform hadds =>
    obtain ⟨items₁, hsub₁, hs₁, hmem₁⟩ := law.geometry h.sharing hgeometry
    obtain ⟨items₂, hsub₂, hs₂, hmem₂⟩ := law.paint hs₁ hpaint
    obtain ⟨items₃, hsub₃, hs₃, hmem₃⟩ := law.transform? hs₂ htransform
    obtain ⟨items₄, i, hall, rfl, -, h₄⟩ := h.adds law (fun a ha => hsub₃ (hsub₂ (hsub₁ ha))) hs₃
      hadds (fun _ => rfl) (fun _ _ => rfl)
      fun _ => ⟨hmem₁.mono fun a ha => hsub₃ (hsub₂ ha), hsub₃ hmem₂, hmem₃⟩
    exact ⟨.shape s₄ i (Sharing.value_geometry hgeometry) (Sharing.value_shareValue hpaint)
      (Sharing.value_transform htransform), items₄, hall, h₄⟩
  | @image leaf node s hadds =>
    obtain ⟨items₁, i, hall, rfl, -, h₁⟩ := h.adds law hrefl h.sharing hadds (fun _ => rfl)
      (fun _ _ => rfl) fun _ => trivial
    exact ⟨.image leaf s i, items₁, hall, h₁⟩
  | @text leaf node s hadds =>
    obtain ⟨items₁, i, hall, rfl, -, h₁⟩ := h.adds law hrefl h.sharing hadds (fun _ => rfl)
      (fun _ _ => rfl) fun _ => trivial
    exact ⟨.text leaf s i, items₁, hall, h₁⟩
  | @use u target htarget transform node s₁ s₂ htransform hadds =>
    have hmem : Item.node target ∈ items := h.exports _ (mem_of_lookup htarget)
    obtain ⟨items₁, hsub, hs₁, hmem₁⟩ := law.transform? h.sharing htransform
    obtain ⟨items₂, i, hall, rfl, -, h₂⟩ := h.adds law hsub hs₁ hadds (fun _ => rfl)
      (fun _ _ => rfl) fun _ => ⟨hsub hmem, hmem₁⟩
    exact ⟨.use htarget s₂ i (Sharing.value_transform htransform), items₂, hall, h₂⟩

theorem Makes.shareNodes_eq {call : Call} {reply : Reply} (hmakes : b.Makes call b' reply) :
    b'.shareNodes = b.shareNodes := by
  have hattach (b : GraphBuilder) (n : Node) : (b.attach n).shareNodes = b.shareNodes := by
    unfold GraphBuilder.attach
    split <;> rfl
  cases hmakes with
  | @endGroup attrs =>
    have hremember (b : GraphBuilder) (n : Node) :
        (b.remember attrs.exportId n).shareNodes = b.shareNodes := by
      unfold GraphBuilder.remember
      split <;> rfl
    rw [hremember, hattach]
  | init | document | gradient | beginGroup | beginMask | maskContent => rfl
  | clip | endMask | shape | image | text | use => rw [hattach]

/-- A call that is performed is one of the steps, and sharing stays coherent. -/
theorem perform_spec (h : b.Coherent stamps items) {call : Call} {reply : Reply}
    (hperform : b.perform call = .ok (b', reply)) :
    Builds b call b' reply ∧ ∃ items', b'.Coherent stamps items' := by
  obtain ⟨hbuilds, items', -, hcoherent⟩ :=
    (makes_of_perform hperform).spec (Sharing.coherent_law stamps _) h
  exact ⟨hbuilds, items', hcoherent⟩

end GraphBuilder

/-- What a cache holds is in an inventory of the runs that filled it. -/
structure NodeCache.Founded (stamps : List Nat) (c : NodeCache) (items : Inventory) : Prop where
  unambiguous : items.Unambiguous
  closed : ∀ n, Item.node n ∈ items → items.HasParts n
  origin : ∀ a ∈ items, a.inst.stamp ∈ stamps
  within : c.Within items

/-- The caches that builds leave behind: each build starts from a cache of earlier ones, under a
stamp that none of them had. -/
inductive NodeCache.Grown : List Nat → NodeCache → Prop
  | empty : Grown [] .empty
  | build {stamps : List Nat} {seed : NodeCache} (hseed : Grown stamps seed) {stamp : Nat}
      (hstamp : stamp ∉ stamps) (shareNodes : Bool) (calls : List Call) :
    Grown (stamp :: stamps)
      (GraphBuilder.backend.issueAll (.start (.start stamp shareNodes seed)) calls).1.state.sharing.met

namespace GraphBuilder

/-- A build from a cache of earlier ones starts out coherent. -/
theorem coherent_start {stamps : List Nat} {seed : NodeCache} {items : Inventory}
    (hseed : seed.Founded stamps items) {stamp : Nat} (hstamp : stamp ∉ stamps)
    (shareNodes : Bool) : (start stamp shareNodes seed).Coherent (stamp :: stamps) items := by
  refine holds_start ⟨hseed.unambiguous, hseed.closed, List.mem_cons_self, ?_, ?_, hseed.within,
    .empty items⟩
  · exact fun a ha => List.mem_cons_of_mem stamp (hseed.origin a ha)
  · intro a ha he
    have hmem := hseed.origin a ha
    rw [he] at hmem
    exact absurd hmem hstamp

/-- What sharing keeps is kept by a session, whatever it answers, with an inventory that grows. -/
theorem Holds.issueAll {P : Inventory → Sharing → Prop} {items : Inventory}
    {s : Session GraphBuilder} (h : s.state.Holds P items)
    (law : Sharing.Law s.state.shareNodes P) (calls : List Call) :
    ∃ items', items ⊆ items' ∧ (backend.issueAll s calls).1.state.Holds P items' := by
  have hstep {b b' : GraphBuilder} {call : Call} {reply : Reply}
      (hb : b.shareNodes = s.state.shareNodes ∧ ∃ items', items ⊆ items' ∧ b.Holds P items')
      (hperform : b.perform call = .ok (b', reply)) :
      b'.shareNodes = s.state.shareNodes ∧ ∃ items', items ⊆ items' ∧ b'.Holds P items' := by
    obtain ⟨hshare, items', hsub, hholds⟩ := hb
    have hmakes := makes_of_perform hperform
    obtain ⟨-, items'', hmore, hholds'⟩ := hmakes.spec (hshare ▸ law) hholds
    exact ⟨hmakes.shareNodes_eq.trans hshare, items'', fun a ha => hmore (hsub ha), hholds'⟩
  exact (Backend.issueAll_preserves (P := fun b : GraphBuilder => b.shareNodes = s.state.shareNodes ∧
    ∃ items', items ⊆ items' ∧ b.Holds P items') hstep ⟨rfl, items, fun a ha => ha, h⟩ calls).2

end GraphBuilder

/-- What a build leaves is founded on the inventory that it ends with. -/
theorem Sharing.Coherent.founded {stamps : List Nat} {items : Inventory} {s : Sharing}
    (h : s.Coherent stamps items) : s.met.Founded stamps items :=
  ⟨h.unambiguous, h.closed, h.origin, h.met⟩

theorem NodeCache.Grown.founded {stamps : List Nat} {c : NodeCache} (h : c.Grown stamps) :
    ∃ items, c.Founded stamps items := by
  induction h with
  | empty =>
    refine ⟨[], ?_, ?_, ?_, .empty []⟩
    · intro a ha
      cases ha
    · intro n hn
      cases hn
    · intro a ha
      cases ha
  | build hseed hstamp shareNodes calls ih =>
    obtain ⟨items, hfounded⟩ := ih
    obtain ⟨items', -, h⟩ := GraphBuilder.Holds.issueAll (s := .start _)
      (GraphBuilder.coherent_start hfounded hstamp shareNodes) (Sharing.coherent_law _ _) calls
    exact ⟨items', h.sharing.founded⟩

end VectorImage
