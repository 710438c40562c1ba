import Mathlib.Data.List.Perm.Subperm
import VectorImage.Proofs.Call.Recording
import VectorImage.Proofs.Graph.Regularity

/-!
The calls that describe a tree, replayed. The nesting check admits the calls of a node whose
indices are in range exactly when every use in it finds its group exported; then the names of the
node are exported behind those known before. A recorder takes the calls of an image on the same
terms, since its gradients come first and are numbered in order.
-/

set_option autoImplicit false
set_option relaxedAutoImplicit false

namespace VectorImage

/-- A state of the tree phase, over these tables. -/
structure Nesting.Inside (t : Tables) (n : Nesting) : Prop where
  phase : n.phase = .tree
  images : n.images = t.images.length
  strings : n.strings = t.strings.length
  floatLists : n.floatLists = t.floatLists.length
  exported : ∀ id ∈ n.exported, id.toNat < t.strings.length

/-- The state once groups of these names have been closed, in order. -/
def Nesting.exporting (n : Nesting) (ids : List StringId) : Nesting :=
  { n with exported := ids.reverse ++ n.exported }

/-- Names of the nodes are used once, and not already. -/
def Nesting.Apart (n : Nesting) (nodes : List Node) : Prop :=
  (Node.names nodes ++ (n.openNames ++ n.exported)).Nodup

namespace Nesting

variable {t : Tables} {n m : Nesting} {gradients : Nat}

theorem exporting_append (n : Nesting) (first rest : List StringId) :
    n.exporting (first ++ rest) = (n.exporting first).exporting rest := by
  simp [exporting]

theorem exporting_group (n : Nesting) (scopes : List Scope) (ids : List StringId)
    (exportId : Option StringId) :
    { ({ n with scopes := scopes } : Nesting).exporting ids with
      scopes := n.scopes
      exported := exportId.toList ++ (ids.reverse ++ n.exported) } =
        n.exporting (ids ++ exportId.toList) := by
  cases exportId with
  | none => simp [exporting]
  | some id => simp [exporting]

theorem Inside.phase_eq (h : n.Inside t) : { n with phase := .tree } = n := by
  obtain ⟨phase, scopes, exported, images, strings, floatLists⟩ := n
  obtain rfl : phase = .tree := h.phase
  rfl

theorem Inside.phase_ne (h : n.Inside t) : n.phase ≠ .fresh := by
  rw [h.phase]
  nofun

theorem Inside.rescope (h : n.Inside t) (scopes : List Scope) :
    ({ n with scopes := scopes } : Nesting).Inside t :=
  ⟨h.phase, h.images, h.strings, h.floatLists, h.exported⟩

/-- The names of nodes in range are in range. -/
theorem Inside.exporting (h : n.Inside t) {nodes : List Node}
    (hwithin : ∀ a ∈ nodes, a.Within t gradients) :
    (n.exporting (Node.names nodes)).Inside t := by
  refine ⟨h.phase, h.images, h.strings, h.floatLists, fun id hid => ?_⟩
  rcases List.mem_append.mp hid with hid | hid
  · obtain ⟨a, ha, hname⟩ := Node.mem_names.mp (List.mem_reverse.mp hid)
    cases a with
    | group inst transform alpha exportId children => exact hwithin _ ha id hname
    | _ => cases hname
  · exact h.exported id hid

/-- The names of later nodes are apart from those of nodes that are closed. -/
theorem Apart.exporting {first rest : List Node} (h : n.Apart (first ++ rest)) :
    (n.exporting (Node.names first)).Apart rest := by
  have hperm : (Node.names rest ++ (n.openNames ++ ((Node.names first).reverse ++ n.exported))).Perm
      (Node.names (first ++ rest) ++ (n.openNames ++ n.exported)) := by
    rw [Node.names_append, List.append_assoc]
    refine (List.Perm.append_left _ ?_).trans (List.perm_append_comm_assoc _ _ _)
    refine (List.perm_append_comm_assoc _ _ _).trans ?_
    exact (List.reverse_perm _).append_right _
  exact hperm.nodup_iff.mpr h

theorem Apart.left {first rest : List Node} (h : n.Apart (first ++ rest)) : n.Apart first := by
  refine List.Nodup.sublist ?_ h
  rw [Node.names_append, List.append_assoc]
  exact List.Sublist.append_left (List.sublist_append_right _ _) _

/-- A name of nodes apart is free. -/
theorem Apart.free (hn : n.Inside t) {nodes : List Node} (h : n.Apart nodes)
    (hwithin : ∀ a ∈ nodes, a.Within t gradients) {id : StringId} (hid : id ∈ Node.names nodes) :
    n.Free id := by
  obtain ⟨-, -, happart⟩ := List.nodup_append.mp h
  obtain ⟨a, ha, hname⟩ := Node.mem_names.mp hid
  refine ⟨?_, ?_, ?_⟩
  · rw [hn.strings]
    cases a with
    | group inst transform alpha exportId children => exact hwithin _ ha id hname
    | _ => cases hname
  · exact fun hmem => happart id hid id (List.mem_append_right _ hmem) rfl
  · exact isOpen_eq_false.mpr fun hmem => happart id hid id (List.mem_append_left _ hmem) rfl

/-- A name that is exported can be referred to. -/
theorem Apart.closed (hn : n.Inside t) {nodes : List Node} (h : n.Apart nodes) {id : StringId}
    (hid : id ∈ n.exported) : n.Closed id := by
  obtain ⟨-, hknown, -⟩ := List.nodup_append.mp h
  obtain ⟨-, -, happart⟩ := List.nodup_append.mp hknown
  refine ⟨?_, ?_, hid⟩
  · rw [hn.strings]
    exact hn.exported id hid
  · exact isOpen_eq_false.mpr fun hmem => happart id hmem id hid rfl

/-- The parts of a group are apart from its own name as well. -/
theorem Apart.children {inst : Instance} {transform : Option (Shared Affine)} {alpha : UInt8}
    {exportId : Option StringId} {children : List Node}
    (h : n.Apart (Node.finished (.group inst transform alpha exportId children))) :
    ({ n with scopes := .group exportId :: n.scopes } : Nesting).Apart
      (Node.finishedAll children) := by
  have hnames : ({ n with scopes := .group exportId :: n.scopes } : Nesting).openNames =
      exportId.toList ++ n.openNames := by
    rw [openNames, List.filterMap_cons]
    cases exportId <;> rfl
  unfold Apart at h ⊢
  rw [Node.names_finished_group, List.append_assoc] at h
  rw [hnames, List.append_assoc]
  exact h

/-- The mask of a masked node is apart, and so is its content once the mask is closed. -/
theorem Apart.masks {inst : Instance} {mask content : List Node}
    (h : n.Apart (Node.finished (.masked inst mask content))) :
    ({ n with scopes := .mask :: n.scopes } : Nesting).Apart (Node.finishedAll mask) := by
  rw [Node.finished, List.append_assoc] at h
  exact h.left

theorem Apart.contents {inst : Instance} {mask content : List Node}
    (h : n.Apart (Node.finished (.masked inst mask content))) :
    (({ n with scopes := .maskContent :: n.scopes } : Nesting).exporting
      (Node.names (Node.finishedAll mask))).Apart (Node.finishedAll content) := by
  rw [Node.finished] at h
  exact h.left.exporting

/-! Steps of the check inside a tree. -/

theorem Inside.accepted_beginGroup (hn : n.Inside t) {attrs : GroupAttrs}
    (hfree : ∀ id, attrs.exportId = some id → n.Free id) :
    Accepted gradients n (.beginGroup attrs) m ↔
      m = { n with scopes := .group attrs.exportId :: n.scopes } := by
  constructor
  · intro h
    cases h
    rw [← hn.phase]
  · rintro rfl
    have h : Accepted gradients n (.beginGroup attrs)
        { n with phase := .tree, scopes := .group attrs.exportId :: n.scopes } :=
      .beginGroup attrs hn.phase_ne hfree
    rwa [← hn.phase] at h

theorem accepted_endGroup {exportId : Option StringId} {rest : List Scope}
    (hscopes : n.scopes = .group exportId :: rest) :
    Accepted gradients n .endGroup m ↔
      m = { n with scopes := rest, exported := exportId.toList ++ n.exported } := by
  constructor
  · intro h
    cases h with
    | endGroup exportId' rest' hscopes' =>
      cases hscopes.symm.trans hscopes'
      rfl
  · rintro rfl
    exact .endGroup exportId rest hscopes

theorem Inside.accepted_beginMask (hn : n.Inside t) :
    Accepted gradients n .beginMask m ↔ m = { n with scopes := .mask :: n.scopes } := by
  constructor
  · intro h
    cases h
    rw [← hn.phase]
  · rintro rfl
    have h : Accepted gradients n .beginMask
        { n with phase := .tree, scopes := .mask :: n.scopes } := .beginMask hn.phase_ne
    rwa [← hn.phase] at h

theorem accepted_maskContent {rest : List Scope} (hscopes : n.scopes = .mask :: rest) :
    Accepted gradients n .maskContent m ↔ m = { n with scopes := .maskContent :: rest } := by
  constructor
  · intro h
    cases h with
    | maskContent rest' hscopes' =>
      cases hscopes.symm.trans hscopes'
      rfl
  · rintro rfl
    exact .maskContent rest hscopes

theorem accepted_endMask {rest : List Scope} (hscopes : n.scopes = .maskContent :: rest) :
    Accepted gradients n .endMask m ↔ m = { n with scopes := rest } := by
  constructor
  · intro h
    cases h with
    | endMask rest' hscopes' =>
      cases hscopes.symm.trans hscopes'
      rfl
  · rintro rfl
    exact .endMask rest hscopes

/-- A use is accepted when its group is exported. -/
theorem Inside.accepted_use (hn : n.Inside t) {nodes : List Node} (h : n.Apart nodes)
    {u : UseRef} :
    Accepted gradients n (.use u) m ↔ m = n ∧ u.target ∈ n.exported := by
  constructor
  · intro h
    cases h with
    | use _ hphase hclosed => exact ⟨hn.phase_eq, hclosed.exported⟩
  · rintro ⟨rfl, hid⟩
    have haccept : Accepted gradients m (.use u) { m with phase := .tree } :=
      .use u hn.phase_ne (h.closed hn hid)
    rwa [hn.phase_eq] at haccept

/-- A leaf that is accepted changes nothing. -/
theorem Inside.accepted_leaf (hn : n.Inside t) {call : Call}
    (haccept : Accepted gradients n call { n with phase := .tree }) :
    Accepted gradients n call m ↔ m = n := by
  rw [hn.phase_eq] at haccept
  constructor
  · intro h
    exact Except.ok.inj (h.accept.symm.trans haccept.accept)
  · rintro rfl
    exact haccept

end Nesting

/-! The calls of a node are admitted when its uses find their groups. -/

open Nesting in
mutual
theorem Node.admits_calls {t : Tables} {gradients : Nat} {n m : Nesting} (hn : n.Inside t)
    {node : Node} (hwithin : ∀ a ∈ Node.finished node, a.Within t gradients)
    (hapart : n.Apart (Node.finished node)) :
    Admits gradients n (Node.calls node) m ↔
      m = n.exporting (Node.names (Node.finished node)) ∧
        Node.Resolved n.exported (Node.finished node) := by
  cases node with
  | group inst transform alpha exportId children =>
    have hfree : ∀ id, exportId = some id → n.Free id := by
      rintro id rfl
      refine hapart.free hn hwithin ?_
      rw [Node.names_finished_group]
      exact List.mem_append_right _ (List.mem_singleton_self id)
    have hchildren := hapart.children
    rw [Node.finished] at hwithin ⊢
    have hinner := fun a ha => hwithin a (List.mem_append_left _ ha)
    have hcalls := fun l => Node.admits_callsAll (m := l) (hn.rescope _) hinner hchildren
    have hbegin (l : Nesting) :
        Accepted gradients n (.beginGroup ⟨sharedValue transform, alpha, exportId⟩) l ↔
          l = { n with scopes := .group exportId :: n.scopes } := hn.accepted_beginGroup hfree
    rw [Node.calls, admits_cons]
    simp only [hbegin, exists_eq_left, admits_append, admits_singleton, hcalls, and_assoc]
    rw [accepted_endGroup rfl, and_comm, Node.resolved_append, Node.names_append,
      Node.names_singleton]
    refine and_congr ?_ (and_iff_left ⟨nofun, trivial⟩).symm
    rw [← exporting_group]
    rfl
  | masked inst mask content =>
    have hmasks := hapart.masks
    have hcontents := hapart.contents
    rw [Node.finished, List.append_assoc] at hwithin
    have hfirst := fun a ha => hwithin a (List.mem_append_left _ ha)
    have hsecond := fun a ha => hwithin a (List.mem_append_right _ (List.mem_append_left _ ha))
    have hmaskCalls := fun l => Node.admits_callsAll (m := l) (hn.rescope _) hfirst hmasks
    have hcontentCalls := fun l => Node.admits_callsAll (m := l)
      ((hn.rescope _).exporting hfirst) hsecond hcontents
    have hbegin (l : Nesting) : Accepted gradients n .beginMask l ↔
        l = { n with scopes := .mask :: n.scopes } := hn.accepted_beginMask
    have hmiddle (l : Nesting) : Accepted gradients
        (({ n with scopes := .mask :: n.scopes } : Nesting).exporting
          (Node.names (Node.finishedAll mask))) .maskContent l ↔
        l = ({ n with scopes := .maskContent :: n.scopes } : Nesting).exporting
          (Node.names (Node.finishedAll mask)) := accepted_maskContent rfl
    rw [Node.calls, admits_cons]
    simp only [hbegin, exists_eq_left, admits_append, admits_cons, admits_nil, exists_eq_right',
      hmaskCalls, hmiddle, hcontentCalls, and_assoc]
    rw [accepted_endMask rfl, Node.names_finished_masked, exporting_append, Node.finished,
      Node.resolved_append, Node.resolved_append]
    constructor
    · rintro ⟨hmask, hcontent, rfl⟩
      exact ⟨rfl, ⟨hmask, hcontent⟩, nofun, trivial⟩
    · rintro ⟨rfl, ⟨hmask, hcontent⟩, -⟩
      exact ⟨hmask, hcontent, rfl⟩
  | clip inst path rule transform =>
    rw [Node.calls, admits_singleton, hn.accepted_leaf (.clip _ hn.phase_ne), Node.finished]
    exact (and_iff_left ⟨nofun, trivial⟩).symm
  | shape inst geometry paint transform =>
    have hpaint : paint.value.Within gradients t.floatLists.length :=
      hwithin _ (Node.mem_finished_self _)
    rw [← hn.floatLists] at hpaint
    have haccept := Accepted.shape ⟨geometry.value, paint.value, sharedValue transform⟩
      hn.phase_ne hpaint
    rw [Node.calls, admits_singleton, hn.accepted_leaf haccept, Node.finished]
    exact (and_iff_left ⟨nofun, trivial⟩).symm
  | image inst leaf =>
    have himage : leaf.image.toNat < t.images.length := hwithin _ (Node.mem_finished_self _)
    rw [← hn.images] at himage
    have haccept : Accepted gradients n (.image leaf) { n with phase := .tree } :=
      .image leaf hn.phase_ne himage
    rw [Node.calls, admits_singleton, hn.accepted_leaf haccept, Node.finished]
    exact (and_iff_left ⟨nofun, trivial⟩).symm
  | text inst leaf =>
    obtain ⟨hpaint, htext, hfamily⟩ := hwithin _ (Node.mem_finished_self _)
    rw [← hn.floatLists] at hpaint
    rw [← hn.strings] at htext hfamily
    have haccept := Accepted.text leaf hn.phase_ne hpaint htext hfamily
    rw [Node.calls, admits_singleton, hn.accepted_leaf haccept, Node.finished]
    exact (and_iff_left ⟨nofun, trivial⟩).symm
  | use inst targetId target transform =>
    rw [Node.calls, admits_singleton, hn.accepted_use hapart, Node.finished]
    refine and_congr_right fun _ => ⟨fun hid => ⟨?_, trivial⟩, fun h => h.1 targetId rfl⟩
    intro id he
    cases he
    exact hid

theorem Node.admits_callsAll {t : Tables} {gradients : Nat} {n m : Nesting} (hn : n.Inside t)
    {nodes : List Node} (hwithin : ∀ a ∈ Node.finishedAll nodes, a.Within t gradients)
    (hapart : n.Apart (Node.finishedAll nodes)) :
    Admits gradients n (Node.callsAll nodes) m ↔
      m = n.exporting (Node.names (Node.finishedAll nodes)) ∧
        Node.Resolved n.exported (Node.finishedAll nodes) := by
  cases nodes with
  | nil =>
    rw [Node.callsAll, admits_nil, Node.finishedAll]
    exact (and_iff_left trivial).symm
  | cons node rest =>
    rw [Node.finishedAll_cons] at hwithin hapart ⊢
    have hfirst := fun a ha => hwithin a (List.mem_append_left _ ha)
    have hrest := fun a ha => hwithin a (List.mem_append_right _ ha)
    rw [Node.callsAll, admits_append, Node.resolved_append, Node.names_append, exporting_append]
    simp only [Node.admits_calls hn hfirst hapart.left]
    constructor
    · rintro ⟨l, ⟨rfl, hresolved⟩, hadmits⟩
      obtain ⟨hm, hlater⟩ :=
        (Node.admits_callsAll (hn.exporting hfirst) hrest hapart.exporting).mp hadmits
      exact ⟨hm, hresolved, hlater⟩
    · rintro ⟨hm, hresolved, hlater⟩
      exact ⟨_, ⟨rfl, hresolved⟩,
        (Node.admits_callsAll (hn.exporting hfirst) hrest hapart.exporting).mpr ⟨hm, hlater⟩⟩
end

/-! The paints of the calls are those of the leaves. -/

mutual
theorem Node.paints_calls (node : Node) :
    (Node.calls node).filterMap Call.paint? = (Node.visited node).filterMap Node.paint? := by
  cases node with
  | group inst transform alpha exportId children =>
    rw [Node.calls, Node.visited, List.filterMap_cons_none rfl, List.filterMap_cons_none rfl,
      List.filterMap_append, Node.paints_callsAll]
    exact List.append_nil _
  | masked inst mask content =>
    rw [Node.calls, Node.visited, List.filterMap_cons_none rfl, List.filterMap_cons_none rfl,
      List.filterMap_append, List.filterMap_append, List.filterMap_cons_none rfl,
      List.filterMap_append, Node.paints_callsAll, Node.paints_callsAll]
    exact congrArg _ (List.append_nil _)
  | clip inst path rule transform => rw [Node.calls, Node.visited]; rfl
  | shape inst geometry paint transform => rw [Node.calls, Node.visited]; rfl
  | image inst leaf => rw [Node.calls, Node.visited]; rfl
  | text inst leaf => rw [Node.calls, Node.visited]; rfl
  | use inst targetId target transform => rw [Node.calls, Node.visited]; rfl

theorem Node.paints_callsAll (nodes : List Node) :
    (Node.callsAll nodes).filterMap Call.paint? =
      (Node.visitedAll nodes).filterMap Node.paint? := by
  cases nodes with
  | nil => rw [Node.callsAll, Node.visitedAll]; rfl
  | cons node rest =>
    rw [Node.callsAll, Node.visitedAll, List.filterMap_append, List.filterMap_append,
      Node.paints_calls, Node.paints_callsAll]
end

mutual
theorem Node.isPart_calls {node : Node} {call : Call} (hcall : call ∈ Node.calls node) :
    call.isPart = true := by
  cases node with
  | group inst transform alpha exportId children =>
    rw [Node.calls, List.mem_cons, List.mem_append, List.mem_singleton] at hcall
    rcases hcall with rfl | hcall | rfl
    · rfl
    · exact Node.isPart_callsAll hcall
    · rfl
  | masked inst mask content =>
    rw [Node.calls, List.mem_cons, List.mem_append, List.mem_cons, List.mem_append,
      List.mem_singleton] at hcall
    rcases hcall with rfl | hcall | rfl | hcall | rfl
    · rfl
    · exact Node.isPart_callsAll hcall
    · rfl
    · exact Node.isPart_callsAll hcall
    · rfl
  | _ =>
    rw [Node.calls, List.mem_singleton] at hcall
    subst hcall
    rfl

theorem Node.isPart_callsAll {nodes : List Node} {call : Call}
    (hcall : call ∈ Node.callsAll nodes) : call.isPart = true := by
  cases nodes with
  | nil =>
    rw [Node.callsAll] at hcall
    cases hcall
  | cons node rest =>
    rw [Node.callsAll, List.mem_append] at hcall
    rcases hcall with hcall | hcall
    · exact Node.isPart_calls hcall
    · exact Node.isPart_callsAll hcall
end

/-! The gradients in use. -/

private theorem length_le_of_nodup {l : List GradientId} (h : l.Nodup) : l.length ≤ 2 ^ 32 := by
  have hmap : (l.map UInt32.toNat).Nodup :=
    List.Pairwise.map _ (fun _ _ hne he => hne (UInt32.toNat_inj.mp he)) h
  have hsub : l.map UInt32.toNat ⊆ List.range (2 ^ 32) := by
    intro i hi
    obtain ⟨id, -, rfl⟩ := List.mem_map.mp hi
    exact List.mem_range.mpr id.toNat_lt
  have hlength := (hmap.subperm hsub).length_le
  rwa [List.length_map, List.length_range] at hlength

namespace GraphImage

variable {g : GraphImage}

theorem paints_visited (g : GraphImage) :
    g.visited.filterMap Node.paint? = (Node.callsAll g.root.children).filterMap Call.paint? := by
  rw [visited, GraphRoot.toNode, Node.visited, List.filterMap_cons_none rfl, Node.paints_callsAll]

theorem mem_liveGradients {id : GradientId} :
    id ∈ g.liveGradients ↔
      ∃ p ∈ (Node.callsAll g.root.children).filterMap Call.paint?, id ∈ p.gradientIds := by
  rw [liveGradients, List.mem_mergeSort, List.mem_eraseDups, ← paints_visited, List.mem_flatMap]
  simp only [List.mem_filterMap]
  constructor
  · rintro ⟨n, hn, hid⟩
    cases hpaint : n.paint? with
    | none => simp [hpaint] at hid
    | some p => exact ⟨p, ⟨n, hn, hpaint⟩, by simpa [hpaint] using hid⟩
  · rintro ⟨p, ⟨n, hn, hpaint⟩, hid⟩
    exact ⟨n, hn, by simpa [hpaint] using hid⟩

theorem length_liveGradients_le (g : GraphImage) : g.liveGradients.length ≤ 2 ^ 32 := by
  rw [liveGradients, List.length_mergeSort]
  exact length_le_of_nodup (nodup_eraseDups _)

theorem InRange.liveGradients (hg : g.InRange) {id : GradientId} (hid : id ∈ g.liveGradients) :
    id.toNat < g.gradients.size := by
  obtain ⟨p, hp, hmem⟩ := mem_liveGradients.mp hid
  rw [Node.paints_callsAll] at hp
  obtain ⟨n, hn, hp⟩ := List.mem_filterMap.mp hp
  have hwithin := hg.within n (Node.mem_finishedAll.mpr hn)
  cases n with
  | shape inst geometry paint transform =>
    cases hp
    exact hwithin.gradients id hmem
  | text inst leaf =>
    cases hp
    exact hwithin.1.gradients id hmem
  | _ => cases hp

theorem renumber_eq_ok {live : List GradientId} {i j : GradientId}
    (h : renumber live i = .ok j) : i ∈ live ∧ j.toNat < live.length := by
  unfold renumber at h
  split at h
  · next k hk =>
    cases h
    obtain ⟨hlt, hentry, -⟩ := List.idxOf?_eq_some_iff.mp hk
    refine ⟨hentry ▸ List.getElem_mem hlt, Nat.lt_of_le_of_lt ?_ hlt⟩
    rw [UInt32.toNat_ofNat']
    exact Nat.mod_le _ _
  · cases h

/-- A number is the place of a gradient among those in use. -/
theorem renumber_entry {live : List GradientId} (hlive : live.length ≤ 2 ^ 32) {i j : GradientId}
    (h : renumber live i = .ok j) : live[j.toNat]? = some i := by
  unfold renumber at h
  split at h
  · next k hk =>
    cases h
    obtain ⟨hlt, hentry, -⟩ := List.idxOf?_eq_some_iff.mp hk
    rw [toNat_ofNat_of_lt (Nat.lt_of_lt_of_le hlt hlive), List.getElem?_eq_getElem hlt, hentry]
  · cases h

theorem renumber_progress {live : List GradientId} {i : GradientId} (h : i ∈ live) :
    ∃ j, renumber live i = .ok j := by
  unfold renumber
  split
  · exact ⟨_, rfl⟩
  · next hnone => exact absurd h (List.idxOf?_eq_none_iff.mp hnone)

/-- Every call of the tree can be given the numbers of the gradients in use. -/
private theorem renumber_call {call : Call} (hcall : call ∈ Node.callsAll g.root.children) :
    ∃ call', call.mapGradients (renumber g.liveGradients) = .ok call' := by
  have hlive {paint : Paint} (hpaint : call.paint? = some paint) :
      ∃ q, paint.mapGradients (renumber g.liveGradients) = .ok q := by
    refine Paint.mapGradients_progress fun i hi => renumber_progress (mem_liveGradients.mpr ?_)
    exact ⟨paint, List.mem_filterMap.mpr ⟨call, hcall, hpaint⟩, hi⟩
  cases call with
  | shape s =>
    obtain ⟨q, hq⟩ := hlive rfl
    exact ⟨_, map_eq_ok.mpr ⟨q, hq, rfl⟩⟩
  | text leaf =>
    obtain ⟨q, hq⟩ := hlive rfl
    exact ⟨_, map_eq_ok.mpr ⟨q, hq, rfl⟩⟩
  | _ => exact ⟨_, rfl⟩

/-- The calls of an image in range: the gradients in use, then the tree over these gradients. -/
theorem InRange.calls (hg : g.InRange) :
    ∃ (gradients : List Gradient) (tree : List Call),
      g.calls = .ok (.init g.tables :: .document g.document ::
        (gradients.map .gradient ++ tree)) ∧ gradients.length = g.liveGradients.length ∧
      (∀ a ∈ gradients, a.offsets.toNat < g.tables.floatLists.length) ∧
      (Node.callsAll g.root.children).mapM (Call.mapGradients (renumber g.liveGradients)) =
        .ok tree := by
  obtain ⟨gradients, hgradients⟩ := mapM_succeeds.mpr fun id hid => by
    obtain ⟨a, -, ha⟩ := Resources.lookup_progress .gradient (hg.liveGradients hid)
    exact ⟨a, ha⟩
  obtain ⟨tree, htree⟩ := mapM_succeeds.mpr fun _ hcall => renumber_call hcall
  refine ⟨gradients, tree, ?_, mapM_length hgradients, ?_, htree⟩
  · exact bind_eq_ok.mpr ⟨gradients, hgradients, bind_eq_ok.mpr ⟨tree, htree, rfl⟩⟩
  · intro a ha
    obtain ⟨id, -, hid⟩ := mem_of_mapM hgradients ha
    exact hg.offsets a (Array.mem_of_getElem? (lookup_eq_ok_iff.mp hid))

end GraphImage

namespace Recorder

variable {p : Position Recorder}

/-- The calls before the tree leave a recorder in the tree phase. -/
theorem runs_opening (t : Tables) (d : Document) :
    ∃ q, backend.Runs (.start empty) [.init t, .document d] q ∧ Numbered q ∧
      q.session.nesting =
        { Nesting.initialized t.images.length t.strings.length t.floatLists.length with
          phase := .tree } ∧ q.ids.size = 0 := by
  obtain ⟨q, hinit, hq⟩ := (numbered_start.advances_iff rfl).mpr (.init t rfl)
  obtain ⟨hnumbered, hids⟩ := numbered_start.advance rfl hinit
  have haccept : Nesting.Accepted q.ids.size q.session.nesting (.document d)
      { q.session.nesting with phase := .tree } := .document d (by rw [hq])
  obtain ⟨r, hdocument, hr⟩ := (hnumbered.advances_iff rfl).mpr haccept
  obtain ⟨hnumbered', hids'⟩ := hnumbered.advance rfl hdocument
  refine ⟨r, .cons hinit (.single hdocument), hnumbered', ?_, ?_⟩
  · rw [hr, hq]
    rfl
  · rw [hids', hids]
    rfl

/-- Gradients whose offsets are in range are registered in order. -/
theorem Numbered.registers (h : Numbered p) {t : Tables} (hn : p.session.nesting.Inside t)
    {gradients : List Gradient}
    (hoffsets : ∀ a ∈ gradients, a.offsets.toNat < t.floatLists.length)
    (hroom : p.ids.size + gradients.length ≤ 2 ^ 32) :
    ∃ q, backend.Runs p (gradients.map .gradient) q ∧ Numbered q ∧
      q.session.nesting = p.session.nesting ∧ q.ids.size = p.ids.size + gradients.length := by
  induction gradients generalizing p with
  | nil => exact ⟨p, .nil p, h, rfl, rfl⟩
  | cons a rest ih =>
    rw [List.length_cons] at hroom
    have hoffset := hoffsets a List.mem_cons_self
    rw [← hn.floatLists] at hoffset
    have haccept : Nesting.Accepted p.ids.size p.session.nesting (.gradient a)
        { p.session.nesting with phase := .tree } := .gradient a hn.phase_ne hoffset
    rw [hn.phase_eq] at haccept
    obtain ⟨q, hstep, hq, hnesting, hsize⟩ := h.gradient (by omega) haccept
    rw [← hnesting] at hn
    obtain ⟨r, hruns, hr, hsame, hcount⟩ := ih hq hn
      (fun b hb => hoffsets b (List.mem_cons_of_mem a hb)) (by omega)
    refine ⟨r, .cons hstep hruns, hr, hsame.trans hnesting, ?_⟩
    rw [hcount, hsize, List.length_cons]
    omega

end Recorder

/-- A recorder takes the calls of an image in range exactly when every use in it finds a group of
its name among those that have ended before it. -/
theorem GraphImage.InRange.records_iff {g : GraphImage} (hg : g.InRange) :
    (∃ calls log, g.calls = .ok calls ∧ Recorder.record calls = .ok log) ↔
      Node.Resolved [] (Node.finishedAll g.root.children) := by
  obtain ⟨gradients, tree, hcalls, hlength, hoffsets, htree⟩ := hg.calls
  obtain ⟨p, hopening, hp, hstart, hnone⟩ := Recorder.runs_opening g.tables g.document
  have hinside : p.session.nesting.Inside g.tables := by
    rw [hstart]
    refine ⟨rfl, rfl, rfl, rfl, ?_⟩
    intro id hid
    cases hid
  obtain ⟨q, hregisters, hq, hsame, hcount⟩ := hp.registers hinside hoffsets (by
    rw [hnone, hlength, Nat.zero_add]
    exact g.length_liveGradients_le)
  rw [hnone, hlength, Nat.zero_add] at hcount
  have hprelude := hopening.append hregisters
  have hgradient : ∀ call ∈ tree, call.isGradient = false := by
    intro call hcall
    obtain ⟨source, hsource, hmap⟩ := mem_of_mapM htree hcall
    rw [Call.isGradient_mapGradients hmap]
    exact Call.isGradient_of_isPart (Node.isPart_callsAll hsource)
  have hapart : q.session.nesting.Apart (Node.finishedAll g.root.children) := by
    rw [hsame, hstart]
    unfold Nesting.Apart
    rw [Nesting.openNames, Nesting.initialized, List.filterMap_nil, List.append_nil,
      List.append_nil]
    exact hg.distinct
  have hadmits (m : Nesting) : Nesting.Admits q.ids.size q.session.nesting tree m ↔
      m = q.session.nesting.exporting (Node.names (Node.finishedAll g.root.children)) ∧
        Node.Resolved [] (Node.finishedAll g.root.children) := by
    have hrenumber : Nesting.Admits q.ids.size q.session.nesting tree m ↔
        Nesting.Admits g.gradients.size q.session.nesting (Node.callsAll g.root.children) m :=
      Nesting.admits_mapGradients (fun i j hij => hg.liveGradients (renumber_eq_ok hij).1)
        (fun i j hij => hcount ▸ (renumber_eq_ok hij).2) htree
    rw [hrenumber, Node.admits_callsAll (hsame ▸ hinside) hg.within hapart, hsame, hstart]
    rfl
  constructor
  · rintro ⟨calls, log, hcalls', hrecord⟩
    cases hcalls.symm.trans hcalls'
    obtain ⟨r, hruns, -, -⟩ := Backend.replay_eq_ok.mp hrecord
    have hparts : Recorder.backend.Runs (.start .empty)
        ([.init g.tables, .document g.document] ++ gradients.map .gradient ++ tree) r := hruns
    obtain ⟨q', hfirst, hlater⟩ := hparts.split
    obtain rfl := hprelude.unique hfirst
    exact ((hadmits _).mp ((hq.runs_iff hgradient).mp ⟨r, hlater, rfl⟩)).2
  · intro hresolved
    obtain ⟨r, hlater, hr⟩ := (hq.runs_iff hgradient).mpr ((hadmits _).mpr ⟨rfl, hresolved⟩)
    refine ⟨_, r.session.state.calls.toList, hcalls,
      Backend.replay_eq_ok.mpr ⟨r, hprelude.append hlater, ?_, rfl⟩⟩
    rw [hr, hsame, hstart]
    refine Nesting.checkClosed_eq_ok.mpr ⟨?_, rfl⟩
    intro hphase
    cases hphase

end VectorImage
