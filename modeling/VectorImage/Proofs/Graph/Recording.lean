import VectorImage.Proofs.Graph.Identity

/-!
What a build has met is what it holds. Every value that is met stands in some node that the builder
holds, finished or in an open scope, and is listed once; values of the seed are met only when a call
asks for them.
-/

set_option autoImplicit false
set_option relaxedAutoImplicit false

namespace VectorImage

/-! One table. -/

/-- Sharing answers what was met, or meets what it answers. -/
theorem CanonicalTable.Continues.met_or_push {α : Type} [Keyed α] [KeyDigest]
    {seed met met' : CanonicalTable α} {v w : α} (h : Continues seed met)
    (hshare : VectorImage.shareIn seed met v = (w, met')) :
    met' = met ∨ met' = met.push w ∧ w ∉ met.entries := by
  have hnew (hfind : met.findEntry? v = none) {u : α} (hkey : Keyed.key u = Keyed.key v) :
      u ∉ met.entries := by
    intro hu
    obtain ⟨x, hx⟩ := h.metBuilt.bucketed.findEntry?_progress hu hkey.symm
    cases hfind.symm.trans hx
  unfold VectorImage.shareIn at hshare
  split at hshare
  · cases hshare
    exact .inl rfl
  · next hfind =>
    split at hshare
    · next x hx =>
      cases hshare
      exact .inr ⟨rfl, hnew hfind (findEntry?_key hx).2⟩
    · cases hshare
      exact .inr ⟨rfl, hnew hfind rfl⟩

/-! All tables. -/

namespace NodeCache

/-- The nodes that are held, and the values that nodes are made of. -/
def listing (c : NodeCache) : List Item :=
  c.transforms.entries.toList.map .transform ++ c.paths.entries.toList.map .path ++
    c.polys.entries.toList.map .poly ++ c.paints.entries.toList.map .paint ++
    c.nodes.entries.toList.map .node

theorem mem_listing {c : NodeCache} {a : Item} : a ∈ c.listing ↔ c.Has a := by
  cases a <;> simp [listing, Has]

/-! One more value of a kind. -/

private theorem perm_push (before kind after : List Item) (w : Item) :
    (before ++ (kind ++ [w]) ++ after).Perm (w :: (before ++ kind ++ after)) := by
  rw [← List.append_assoc, List.append_assoc]
  exact List.perm_middle

variable (c : NodeCache)

theorem listing_push_transform (w : Shared Affine) :
    ({ c with transforms := c.transforms.push w } : NodeCache).listing.Perm
      (.transform w :: c.listing) := by
  simp only [listing, CanonicalTable.entries_push, Array.toList_push, List.map_append]
  exact ((((perm_push [] _ _ _).append_right _).append_right _).append_right _)

theorem listing_push_path (w : Shared Path) :
    ({ c with paths := c.paths.push w } : NodeCache).listing.Perm (.path w :: c.listing) := by
  simp only [listing, CanonicalTable.entries_push, Array.toList_push, List.map_append]
  exact ((perm_push _ _ _ _).append_right _).append_right _

theorem listing_push_poly (w : Shared PolyGeom) :
    ({ c with polys := c.polys.push w } : NodeCache).listing.Perm (.poly w :: c.listing) := by
  simp only [listing, CanonicalTable.entries_push, Array.toList_push, List.map_append]
  exact (perm_push _ _ _ _).append_right _

theorem listing_push_paint (w : Shared Paint) :
    ({ c with paints := c.paints.push w } : NodeCache).listing.Perm (.paint w :: c.listing) := by
  simp only [listing, CanonicalTable.entries_push, Array.toList_push, List.map_append]
  exact perm_push _ _ _ _

theorem listing_push_node (w : Node) :
    ({ c with nodes := c.nodes.push w } : NodeCache).listing.Perm (.node w :: c.listing) := by
  simp only [listing, CanonicalTable.entries_push, Array.toList_push, List.map_append]
  rw [← List.append_assoc]
  exact List.perm_append_singleton _ _

end NodeCache

namespace Sharing

/-- Sharing goes on exactly: what it meets is among the new items, and is listed once. -/
structure Records (s s' : Sharing) (new : List Item) : Prop where
  exact : s'.Exact
  nodup : s.met.listing.Nodup → s'.met.listing.Nodup
  mem : ∀ a, s'.met.Has a → s.met.Has a ∨ a ∈ new

variable {s s' s'' : Sharing} {new new' : List Item}

theorem Records.refl (h : s.Exact) : s.Records s [] := ⟨h, fun hn => hn, fun _ ha => .inl ha⟩

theorem Records.trans (h : s.Records s' new) (h' : s'.Records s'' new') :
    s.Records s'' (new ++ new') := by
  refine ⟨h'.exact, fun hn => h'.nodup (h.nodup hn), fun a ha => ?_⟩
  rw [List.mem_append]
  rcases h'.mem a ha with ha | ha
  · exact (h.mem a ha).imp_right .inl
  · exact .inr (.inr ha)

/-- One value of one kind is shared. -/
private theorem records_put {α : Type} [Keyed α] {pick : NodeCache → CanonicalTable α}
    (put : NodeCache → CanonicalTable α → NodeCache) (wrap : α → Item)
    (hput : ∀ c w, (put c ((pick c).push w)).listing.Perm (wrap w :: c.listing))
    (hself : ∀ c, put c (pick c) = c) (hhas : ∀ c w, c.Has (wrap w) → w ∈ (pick c).entries)
    (hcontinues : (pick s.seed).Continues (pick s.met)) {v w : α} {table : CanonicalTable α}
    (hin : shareIn (pick s.seed) (pick s.met) v = (w, table)) (hexact : s'.Exact)
    (hmet : s'.met = put s.met table) : s.Records s' [wrap w] := by
  rcases hcontinues.met_or_push hin with rfl | ⟨rfl, hnew⟩
  · rw [hself] at hmet
    exact ⟨hexact, fun hn => hmet ▸ hn, fun a ha => .inl (hmet ▸ ha)⟩
  · have hperm : s'.met.listing.Perm (wrap w :: s.met.listing) := hmet ▸ hput s.met w
    refine ⟨hexact, fun hn => ?_, fun a ha => ?_⟩
    · refine hperm.nodup_iff.mpr (List.nodup_cons.mpr ⟨fun hw => hnew ?_, hn⟩)
      exact hhas _ _ (NodeCache.mem_listing.mp hw)
    · rcases List.mem_cons.mp (hperm.mem_iff.mp (NodeCache.mem_listing.mpr ha)) with rfl | ha
      · exact .inr List.mem_cons_self
      · exact .inl (NodeCache.mem_listing.mp ha)

theorem Exact.records_aside (h : s.Exact) (hs : s.Aside s') : s.Records s' [] := by
  have hlisting : s'.met.listing = s.met.listing := by
    simp only [NodeCache.listing, hs.transforms, hs.paths, hs.polys, hs.paints, hs.nodes]
  refine ⟨(h.aside hs).1, fun hn => hlisting ▸ hn, fun a ha => .inl ?_⟩
  rw [← NodeCache.mem_listing] at ha ⊢
  exact hlisting ▸ ha

theorem Exact.records_transform (h : s.Exact) {v : Option Affine} {w : Option (Shared Affine)}
    (hshare : Sharing.transform v s = (w, s')) : s.Records s' (transformItems w) := by
  rcases transform_cases hshare with ⟨-, rfl, rfl⟩ | ⟨m, t, -, rfl, hvalue⟩
  · exact .refl h
  · obtain ⟨table, hin, rfl⟩ := shareValue_eq hvalue
    exact records_put (fun c t => { c with transforms := t }) .transform
      NodeCache.listing_push_transform (fun _ => rfl) (fun _ _ hw => hw) h.transforms hin
      (h.transform hvalue).exact rfl

theorem Exact.records_path (h : s.Exact) {v : Path} {w : Shared Path}
    (hshare : Sharing.path v s = (w, s')) : s.Records s' [.path w] := by
  obtain ⟨table, hin, rfl⟩ := shareValue_eq hshare
  exact records_put (fun c t => { c with paths := t }) .path NodeCache.listing_push_path
    (fun _ => rfl) (fun _ _ hw => hw) h.paths hin (h.path hshare).exact rfl

theorem Exact.records_poly (h : s.Exact) {v : PolyGeom} {w : Shared PolyGeom}
    (hshare : Sharing.poly v s = (w, s')) : s.Records s' [.poly w] := by
  obtain ⟨table, hin, rfl⟩ := shareValue_eq hshare
  exact records_put (fun c t => { c with polys := t }) .poly NodeCache.listing_push_poly
    (fun _ => rfl) (fun _ _ hw => hw) h.polys hin (h.poly hshare).exact rfl

theorem Exact.records_paint (h : s.Exact) {v : Paint} {w : Shared Paint}
    (hshare : Sharing.paint v s = (w, s')) : s.Records s' [.paint w] := by
  obtain ⟨table, hin, rfl⟩ := shareValue_eq hshare
  exact records_put (fun c t => { c with paints := t }) .paint NodeCache.listing_push_paint
    (fun _ => rfl) (fun _ _ hw => hw) h.paints hin (h.paint hshare).exact rfl

theorem Exact.records_geometry (h : s.Exact) {v : Geometry} {w : NodeGeometry}
    (hshare : Sharing.geometry v s = (w, s')) : s.Records s' w.items := by
  rcases geometry_cases hshare with ⟨rfl, ⟨g, -, rfl⟩ | ⟨g, -, rfl⟩⟩ | ⟨p, u, -, rfl, hvalue⟩ |
    ⟨g, u, -, rfl, hvalue⟩
  · exact .refl h
  · exact .refl h
  · exact h.records_path hvalue
  · exact h.records_poly hvalue

/-- A node is met only where nodes are shared. -/
theorem Exact.records_adds (h : s.Exact) {shareNodes : Bool} {f : Instance → Node} {n : Node}
    (hadds : s.Adds shareNodes f n s') :
    s.Records s' (if shareNodes then [.node n] else []) := by
  cases hadds with
  | own hkeep => exact hkeep ▸ ⟨h.minted, fun hn => hn, fun _ ha => .inl ha⟩
  | shared hyes hnode =>
    have hexact := (h.minted.node hnode).exact
    unfold Sharing.node share at hnode
    generalize hin : shareIn s.minted.seed.nodes s.minted.met.nodes (f s.fresh) = r at hnode
    obtain ⟨u, table⟩ := r
    cases hnode
    rw [if_pos hyes]
    obtain ⟨hexact, hnodup, hmem⟩ := records_put (s := s.minted)
      (fun c t => { c with nodes := t }) .node NodeCache.listing_push_node (fun _ => rfl)
      (fun _ _ hw => hw) h.minted.nodes hin hexact rfl
    exact ⟨hexact, hnodup, hmem⟩

end Sharing

/-! What a builder holds. -/

theorem Node.itemsAll_append (first rest : List Node) :
    itemsAll (first ++ rest) = itemsAll first ++ itemsAll rest := by
  induction first with
  | nil => rw [List.nil_append, itemsAll, List.nil_append]
  | cons n first ih => rw [List.cons_append, itemsAll, itemsAll, ih, List.append_assoc]

theorem Node.mem_itemsAll_push {nodes : Array Node} {n : Node} {a : Item} :
    a ∈ itemsAll (nodes.push n).toList ↔ a ∈ itemsAll nodes.toList ∨ a ∈ n.items := by
  rw [Array.toList_push, itemsAll_append, List.mem_append, itemsAll, itemsAll, List.append_nil]

/-- The values in the mask half of a scope. -/
def GraphScope.items : GraphScope → List Item
  | .maskContent nodes => Node.itemsAll nodes
  | _ => []

def GraphFrame.items (f : GraphFrame) : List Item :=
  f.scope.items ++ Node.itemsAll f.children.toList

namespace GraphBuilder

/-- The values in the nodes that are finished, and those in the open scopes. -/
def items (b : GraphBuilder) : List Item :=
  Node.itemsAll b.root.toList ++ b.frames.flatMap GraphFrame.items

variable {b b' : GraphBuilder} {a : Item}

theorem items_frames {f : GraphFrame} {rest : List GraphFrame} (hframes : b.frames = f :: rest) :
    a ∈ b.items ↔ a ∈ ({ b with frames := rest } : GraphBuilder).items ∨ a ∈ f.items := by
  simp only [items, hframes, List.flatMap_cons, List.mem_append, or_assoc, or_comm, or_left_comm]

theorem mem_items_attach {n : Node} : a ∈ (b.attach n).items ↔ a ∈ b.items ∨ a ∈ n.items := by
  unfold attach
  split
  · next hframes =>
    simp only [items, hframes, List.mem_append, Node.mem_itemsAll_push, or_right_comm]
  · next f rest hframes =>
    simp only [items, hframes, List.flatMap_cons, List.mem_append, GraphFrame.items,
      Node.mem_itemsAll_push, or_assoc, or_comm, or_left_comm]

theorem sharing_attach (n : Node) : (b.attach n).sharing = b.sharing := by
  unfold attach
  split <;> rfl

theorem shareNodes_attach (n : Node) : (b.attach n).shareNodes = b.shareNodes := by
  unfold attach
  split <;> rfl

/-- A builder has met, once each, values of its nodes; nodes only where they are shared. -/
structure Recorded (b : GraphBuilder) : Prop where
  nodup : b.sharing.met.listing.Nodup
  mem : ∀ a, b.sharing.met.Has a → a ∈ b.items
  nodes : ∀ n, b.sharing.met.Has (.node n) → b.shareNodes = true

theorem recorded_start (stamp : Nat) (shareNodes : Bool) (seed : NodeCache) :
    (start stamp shareNodes seed).Recorded := by
  have hnone (a : Item) : ¬ (start stamp shareNodes seed).sharing.met.Has a :=
    fun ha => List.not_mem_nil (NodeCache.mem_listing.mpr ha)
  exact ⟨List.nodup_nil, fun a ha => absurd ha (hnone a), fun n hn => absurd hn (hnone _)⟩

/-- Nothing is met, and what was held is held. -/
private theorem Recorded.keep (h : b.Recorded) (hrecords : b.sharing.Records b'.sharing [])
    (hitems : ∀ a ∈ b.items, a ∈ b'.items) (hshare : b'.shareNodes = b.shareNodes) :
    b'.Recorded := by
  have hmet (a : Item) (ha : b'.sharing.met.Has a) : b.sharing.met.Has a :=
    (hrecords.mem a ha).resolve_right List.not_mem_nil
  exact ⟨hrecords.nodup h.nodup, fun a ha => hitems a (h.mem a (hmet a ha)),
    fun n hn => hshare.trans (h.nodes n (hmet _ hn))⟩

/-- A node is added whose parts are met, and it holds what leaves the open scopes. -/
private theorem Recorded.adds (h : b.Recorded) (frames : List GraphFrame) {parts : List Item}
    {s s' : Sharing} (hparts : b.sharing.Records s parts) {f : Instance → Node} {node : Node}
    (hadds : s.Adds b.shareNodes f node s')
    (hheld : ∀ a ∈ b.items, a ∈ ({ b with frames := frames } : GraphBuilder).items ∨ a ∈ node.items)
    (hnode : parts ⊆ node.items) (hvalues : ∀ n, .node n ∉ parts) :
    (({ b with sharing := s', frames := frames } : GraphBuilder).attach node).Recorded := by
  have hrecords := hparts.trans (hparts.exact.records_adds hadds)
  refine ⟨?_, fun a ha => ?_, fun n hn => ?_⟩
  · rw [sharing_attach]
    exact hrecords.nodup h.nodup
  · rw [sharing_attach] at ha
    refine mem_items_attach.mpr ?_
    rcases hrecords.mem a ha with ha | ha
    · exact hheld a (h.mem a ha)
    · rcases List.mem_append.mp ha with ha | ha
      · exact .inr (hnode ha)
      · split at ha
        · exact .inr (List.mem_singleton.mp ha ▸ node.self_mem_items)
        · cases ha
  · rw [sharing_attach] at hn
    rw [shareNodes_attach]
    rcases hrecords.mem _ hn with hn | hn
    · exact h.nodes n hn
    · rcases List.mem_append.mp hn with hn | hn
      · exact absurd hn (hvalues n)
      · split at hn
        · assumption
        · cases hn

private theorem Recorded.remember (h : b.Recorded) (exportId : Option StringId) (n : Node) :
    (b.remember exportId n).Recorded := by
  cases exportId with
  | none => exact h
  | some id => exact ⟨h.nodup, h.mem, h.nodes⟩

variable {stamps : List Nat} {items : Inventory} {call : Call} {reply : Reply}

/-- A step meets only values of the node that it adds. -/
theorem Makes.recorded (hmakes : b.Makes call b' reply) (hcoherent : b.Coherent stamps items)
    (hexact : b.sharing.Exact) (h : b.Recorded) : b'.Recorded := by
  have law := Sharing.coherent_law stamps b.shareNodes
  have hs := hcoherent.sharing
  cases hmakes with
  | init t haside => exact h.keep (hexact.records_aside haside) (fun a ha => ha) rfl
  | document d => exact h.keep (.refl hexact) (fun a ha => ha) rfl
  | gradient hintern => exact h.keep (.refl hexact) (fun a ha => ha) rfl
  | beginGroup attrs =>
    exact h.keep (.refl hexact) (fun a ha => (items_frames rfl).mpr (.inl ha)) rfl
  | beginMask => exact h.keep (.refl hexact) (fun a ha => (items_frames rfl).mpr (.inl ha)) rfl
  | maskContent hframes =>
    refine h.keep (.refl hexact) (fun a ha => (items_frames rfl).mpr ?_) rfl
    exact ((items_frames hframes).mp ha).imp_right fun hf => List.mem_append_left _ hf
  | @endGroup attrs children rest hframes transform node s₁ s₂ htransform hadds =>
    obtain ⟨-, hchildren, -⟩ := hcoherent.close hframes
    obtain ⟨items₁, hsub, hs₁, hmem⟩ := law.transform? hs htransform
    obtain ⟨-, i, -, -, hnode, -⟩ := law.adds hs₁ hadds (fun _ => rfl) (fun _ _ => rfl)
      fun _ => ⟨hmem, hchildren.mono hsub⟩
    have hitems : node.items = .node node :: (transformItems transform ++
        Node.itemsAll children.toList) := by
      rw [hnode, Node.items]
    refine (h.adds rest (hexact.records_transform htransform) hadds (fun a ha => ?_) (fun a ha => ?_)
      fun n => node_not_mem_transformItems n transform).remember _ _
    · refine ((items_frames hframes).mp ha).imp_right fun hf => ?_
      exact hitems ▸ List.mem_cons_of_mem _ (List.mem_append_right _ hf)
    · exact hitems ▸ List.mem_cons_of_mem _ (List.mem_append_left _ ha)
  | @endMask nodes children rest hframes node s hadds =>
    obtain ⟨-, hchildren, hmask⟩ := hcoherent.close hframes
    obtain ⟨-, i, -, -, hnode, -⟩ := law.adds hs hadds (fun _ => rfl) (fun _ _ => rfl)
      fun _ => ⟨hmask, hchildren⟩
    have hitems : node.items = .node node :: (Node.itemsAll nodes ++
        Node.itemsAll children.toList) := by
      rw [hnode, Node.items]
    refine h.adds rest (.refl hexact) hadds (fun a ha => ?_) (List.nil_subset _)
      fun n => List.not_mem_nil
    refine ((items_frames hframes).mp ha).imp_right fun hf => ?_
    exact hitems ▸ List.mem_cons_of_mem _ hf
  | @clip c path transform node s₁ s₂ s₃ hpath htransform hadds =>
    obtain ⟨items₁, hsub₁, hs₁, hmem₁⟩ := law.path hs hpath
    obtain ⟨items₂, hsub₂, hs₂, hmem₂⟩ := law.transform? hs₁ htransform
    obtain ⟨-, i, -, -, hnode, -⟩ := law.adds hs₂ hadds (fun _ => rfl) (fun _ _ => rfl)
      fun _ => ⟨hsub₂ hmem₁, hmem₂⟩
    have hpath' := hexact.records_path hpath
    refine h.adds b.frames (hpath'.trans (hpath'.exact.records_transform htransform)) hadds
      (fun a ha => .inl ha) (fun a ha => ?_) fun n hn => ?_
    · rw [hnode, Node.items]
      exact List.mem_cons_of_mem _ ha
    · rcases List.mem_append.mp hn with hn | hn
      · cases List.mem_singleton.mp hn
      · exact node_not_mem_transformItems n transform hn
  | @shape leaf geometry paint transform node s₁ s₂ s₃ s₄ hgeometry hpaint htransform hadds =>
    obtain ⟨items₁, hsub₁, hs₁, hmem₁⟩ := law.geometry hs hgeometry
    obtain ⟨items₂, hsub₂, hs₂, hmem₂⟩ := law.paint hs₁ hpaint
    obtain ⟨items₃, hsub₃, hs₃, hmem₃⟩ := law.transform? hs₂ htransform
    obtain ⟨-, i, -, -, hnode, -⟩ := law.adds hs₃ hadds (fun _ => rfl) (fun _ _ => rfl)
      fun _ => ⟨hmem₁.mono fun a ha => hsub₃ (hsub₂ ha), hsub₃ hmem₂, hmem₃⟩
    have hgeometry' := hexact.records_geometry hgeometry
    have hpaint' := hgeometry'.trans (hgeometry'.exact.records_paint hpaint)
    refine h.adds b.frames (hpaint'.trans (hpaint'.exact.records_transform htransform)) hadds
      (fun a ha => .inl ha) (fun a ha => ?_) fun n hn => ?_
    · rw [hnode, Node.items]
      simp only [List.mem_append, List.mem_cons] at ha ⊢
      grind
    · rcases List.mem_append.mp hn with hn | hn
      · rcases List.mem_append.mp hn with hn | hn
        · exact geometry.node_not_mem_items n hn
        · cases List.mem_singleton.mp hn
      · exact node_not_mem_transformItems n transform hn
  | @image leaf node s hadds =>
    exact h.adds b.frames (.refl hexact) hadds (fun a ha => .inl ha) (List.nil_subset _)
      fun n => List.not_mem_nil
  | @text leaf node s hadds =>
    exact h.adds b.frames (.refl hexact) hadds (fun a ha => .inl ha) (List.nil_subset _)
      fun n => List.not_mem_nil
  | @use u target htarget transform node s₁ s₂ htransform hadds =>
    have hmem : Item.node target ∈ items := hcoherent.exports _ (mem_of_lookup htarget)
    obtain ⟨items₁, hsub, hs₁, hmem₁⟩ := law.transform? hs htransform
    obtain ⟨-, i, -, -, hnode, -⟩ := law.adds hs₁ hadds (fun _ => rfl) (fun _ _ => rfl)
      fun _ => ⟨hsub hmem, hmem₁⟩
    refine h.adds b.frames (hexact.records_transform htransform) hadds (fun a ha => .inl ha)
      (fun a ha => ?_) fun n => node_not_mem_transformItems n transform
    rw [hnode, Node.items]
    exact List.mem_cons_of_mem _ (List.mem_append_left _ ha)

/-- What a builder holds is in the inventory that it keeps. -/
theorem Holds.items_subset {P : Inventory → Sharing → Prop} (h : b.Holds P items)
    (hclosed : ∀ n, .node n ∈ items → items.HasParts n) : b.items ⊆ items := by
  refine List.append_subset.mpr ⟨Inventory.itemsAll_subset hclosed _ h.root, fun a ha => ?_⟩
  obtain ⟨f, hf, ha⟩ := List.mem_flatMap.mp ha
  rcases List.mem_append.mp ha with ha | ha
  · have hscope := h.scopes f hf
    cases hf' : f.scope with
    | maskContent nodes =>
      rw [hf'] at hscope ha
      exact Inventory.itemsAll_subset hclosed nodes hscope ha
    | _ =>
      rw [hf'] at ha
      cases ha
  · exact Inventory.itemsAll_subset hclosed _ (h.children f hf) ha

/-- A settled builder is coherent with all that is known. -/
theorem Holds.coherent_of_settled {shareNodes : Bool} {seed : NodeCache} {known : Inventory}
    (h : b.Holds (Sharing.Settled stamps shareNodes seed known) items) :
    ∃ all, b.Coherent stamps all := by
  obtain ⟨all, -, hall, hcoherent⟩ := h.sharing.coherent
  exact ⟨all, hcoherent, h.root.mono hall, fun f hf => (h.children f hf).mono hall,
    fun f hf => (h.scopes f hf).mono hall, fun e he => hall (h.exports e he)⟩

/-- A session of a build that starts from what earlier builds have left is settled and has met just
values of its nodes, whatever it answers. -/
theorem recorded_issueAll {seed : NodeCache} {known : Inventory}
    (hseed : seed.Settled stamps known) {stamp : Nat} (hstamp : stamp ∉ stamps) (shareNodes : Bool)
    (calls : List Call) :
    let b := (backend.issueAll (.start (.start stamp shareNodes seed)) calls).1.state
    b.shareNodes = shareNodes ∧ b.Recorded ∧
      ∃ items, b.Holds (Sharing.Settled (stamp :: stamps) shareNodes seed known) items := by
  refine Backend.issueAll_preserves (P := fun b : GraphBuilder => b.shareNodes = shareNodes ∧
    b.Recorded ∧ ∃ items, b.Holds (Sharing.Settled (stamp :: stamps) shareNodes seed known) items)
    ?_ ⟨rfl, recorded_start .., [], settled_start hseed hstamp shareNodes⟩ calls
  rintro b b' call reply ⟨rfl, hrecorded, items, hholds⟩ hperform
  have hmakes := makes_of_perform hperform
  obtain ⟨all, hcoherent⟩ := hholds.coherent_of_settled
  obtain ⟨-, items', -, hholds'⟩ := hmakes.spec (Sharing.settled_law ..) hholds
  exact ⟨hmakes.shareNodes_eq, hmakes.recorded hcoherent hholds.sharing.exact hrecorded, items',
    hholds'⟩

end GraphBuilder

/-! Values of caches that agree. -/

namespace NodeCache

/-- All that a node is made of is where the node is. -/
def Whole (c : NodeCache) : Prop := ∀ n, c.Has (.node n) → ∀ a ∈ n.items, c.Has a

/-- What a session of a build has met: values of its nodes, all of them if nodes are shared. -/
theorem has_iff_of_session {stamps : List Nat} {seed : NodeCache} {known : Inventory}
    (hseed : seed.Settled stamps known) {stamp : Nat} (hstamp : stamp ∉ stamps) (shareNodes : Bool)
    (calls : List Call) (a : Item) :
    let b := (GraphBuilder.backend.issueAll (.start (.start stamp shareNodes seed)) calls).1.state
    b.sharing.met.Has a ↔ a ∈ b.items ∧ (a.isNode = true → shareNodes = true) := by
  obtain ⟨hshare, hrecorded, items, hholds⟩ :=
    GraphBuilder.recorded_issueAll hseed hstamp shareNodes calls
  refine ⟨fun ha => ⟨hrecorded.mem a ha, fun hnode => ?_⟩, fun ⟨ha, hshared⟩ => ?_⟩
  · cases a with
    | node n => exact hshare ▸ hrecorded.nodes n ha
    | _ => cases hnode
  · exact hholds.sharing.covers.has a
      (hholds.items_subset hholds.sharing.covers.closed ha) hshared

end NodeCache

end VectorImage
