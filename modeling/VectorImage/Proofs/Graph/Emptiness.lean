import VectorImage.Proofs.Graph.Census
import VectorImage.Proofs.Graph.Furnishing

/-!
When a build leaves nothing. What it leaves is what a later build may have again: nothing is left
exactly if no later build can have anything of it. The check for emptiness looks at nodes, paths and
strings alone; it misses pictures and lists of numbers, and where nodes are not shared it misses
transforms, point lists and paints.
-/

set_option autoImplicit false
set_option relaxedAutoImplicit false

namespace VectorImage

namespace NodeCache

/-- The instances of all that is held, of every kind. -/
def instances (c : NodeCache) : List Instance :=
  c.images.entries.toList.map Shared.inst ++ c.strings.entries.toList.map Shared.inst ++
    c.floatLists.entries.toList.map Shared.inst ++ c.listing.map Item.inst

variable {c : NodeCache}

theorem mem_instances {i : Instance} : i ∈ c.instances ↔
    (∃ w ∈ c.images.entries, w.inst = i) ∨ (∃ w ∈ c.strings.entries, w.inst = i) ∨
      (∃ w ∈ c.floatLists.entries, w.inst = i) ∨ ∃ a, c.Has a ∧ a.inst = i := by
  simp only [instances, List.mem_append, List.mem_map, Array.mem_toList_iff, mem_listing, or_assoc]

theorem instances_eq_nil_iff : c.instances = [] ↔
    c.images.entries = #[] ∧ c.strings.entries = #[] ∧ c.floatLists.entries = #[] ∧
      ∀ a, ¬ c.Has a := by
  have hlisting : c.listing = [] ↔ ∀ a, ¬ c.Has a := by
    simp only [List.eq_nil_iff_forall_not_mem, mem_listing]
  simp only [instances, List.append_eq_nil_iff, List.map_eq_nil_iff, Array.toList_eq_nil_iff,
    hlisting, and_assoc]

theorem isEmpty_iff : c.isEmpty = true ↔
    (∀ n, ¬ c.Has (.node n)) ∧ (∀ p, ¬ c.Has (.path p)) ∧ c.strings.entries = #[] := by
  simp only [isEmpty, Bool.and_eq_true, beq_iff_eq, CanonicalTable.size, Array.size_eq_zero_iff,
    Array.eq_empty_iff_forall_not_mem, Has, and_assoc]

end NodeCache

theorem Tables.eq_empty_iff {t : Tables} :
    t = .empty ↔ t.images = [] ∧ t.strings = [] ∧ t.floatLists = [] := by
  obtain ⟨images, strings, floatLists⟩ := t
  rw [empty, Tables.mk.injEq]

namespace GraphImage

variable {stamps : List Nat} {seed : NodeCache} {stamp : Nat} {shareNodes : Bool}
  {calls : List Call} {g g' : GraphImage}

theorem Alike.items (h : g.Alike g') : g.items.map Item.plain = g'.items.map Item.plain := by
  rw [GraphImage.items, GraphImage.items, ← Node.itemsAll_plain, ← Node.itemsAll_plain, h.children]

theorem node_mem_items {n : Node} (hn : n ∈ g.root.children) : Item.node n ∈ g.items :=
  Node.items_subset_itemsAll hn n.self_mem_items

namespace Left

/-- No node is left if there is none, or if nodes are not shared. -/
theorem forall_not_node_iff (h : g.Left shareNodes seed) :
    (∀ n, ¬ g.cache.Has (.node n)) ↔ (shareNodes = true → g.root.children = []) := by
  constructor
  · intro hnone hshare
    refine List.eq_nil_iff_forall_not_mem.mpr fun n hn => hnone n ?_
    exact (h.has_iff _).mpr ⟨node_mem_items hn, fun _ => hshare⟩
  · intro hchildren n hn
    obtain ⟨hmem, hshare⟩ := (h.has_iff _).mp hn
    rw [GraphImage.items, hchildren (hshare rfl), Node.itemsAll] at hmem
    cases hmem

theorem forall_not_path_iff (h : g.Left shareNodes seed) :
    (∀ p, ¬ g.cache.Has (.path p)) ↔ ∀ p, .path p ∉ g.items :=
  forall_congr' fun _ => not_congr ((h.has_iff _).trans (and_iff_left nofun))

/-- Nothing that nodes are made of is left, and no node. -/
theorem forall_not_has_iff (h : g.Left shareNodes seed) :
    (∀ a, ¬ g.cache.Has a) ↔
      (∀ a ∈ g.items, a.isNode = true) ∧ (shareNodes = true → g.root.children = []) := by
  rw [← h.forall_not_node_iff]
  constructor
  · refine fun hnone => ⟨fun a ha => ?_, fun n => hnone _⟩
    by_contra hnode
    exact hnone a ((h.has_iff a).mpr ⟨ha, fun hyes => absurd hyes hnode⟩)
  · rintro ⟨hitems, hnodes⟩ a ha
    have hnode := hitems a ((h.has_iff a).mp ha).1
    cases a with
    | node n => exact hnodes n ha
    | _ => cases hnode

/-- The check for emptiness asks for strings, paths, and nodes if they are shared. -/
theorem isEmpty_iff (h : g.Left shareNodes seed) (hfurnished : seed.Furnished g.cache g.tables) :
    g.cache.isEmpty = true ↔ g.tables.strings = [] ∧ (∀ p, .path p ∉ g.items) ∧
      (shareNodes = true → g.root.children = []) := by
  rw [NodeCache.isEmpty_iff, h.forall_not_node_iff, h.forall_not_path_iff,
    hfurnished.strings.entries_eq_empty_iff]
  tauto

/-- Nothing is left if the tables are empty and the image is made of nodes alone, of none if they are
shared. -/
theorem instances_eq_nil_iff (h : g.Left shareNodes seed)
    (hfurnished : seed.Furnished g.cache g.tables) :
    g.cache.instances = [] ↔ g.tables = .empty ∧ (∀ a ∈ g.items, a.isNode = true) ∧
      (shareNodes = true → g.root.children = []) := by
  rw [NodeCache.instances_eq_nil_iff, h.forall_not_has_iff, Tables.eq_empty_iff,
    hfurnished.images.entries_eq_empty_iff, hfurnished.strings.entries_eq_empty_iff,
    hfurnished.floatLists.entries_eq_empty_iff, and_assoc, and_assoc]

/-! An image that is alike, built from what the first build left, with nodes shared as they were. -/

/-- It is made of all that was left of nodes and of what they are made of. -/
theorem has_again (h : g.Left shareNodes seed) (h' : g'.Left shareNodes g.cache)
    (halike : g.Alike g') {a : Item} (ha : g.cache.Has a) : g'.cache.Has a := by
  obtain ⟨hmem, hshared⟩ := (h.has_iff a).mp ha
  obtain ⟨b, hb, hplain⟩ := List.mem_map.mp (halike.items ▸ List.mem_map_of_mem hmem)
  refine (h'.has_seed_iff h.whole ha).mpr ⟨b, hb, fun hnode => hshared ?_, hplain⟩
  rwa [← Item.isNode_plain, ← hplain, Item.isNode_plain]

/-- It has all that was left. -/
theorem instances_subset (h : g.Left shareNodes seed) (h' : g'.Left shareNodes g.cache)
    (hfurnished : seed.Furnished g.cache g.tables)
    (hfurnished' : g.cache.Furnished g'.cache g'.tables) (halike : g.Alike g') :
    g.cache.instances ⊆ g'.cache.instances := by
  intro i hi
  rw [NodeCache.mem_instances] at hi ⊢
  rw [← halike.tables] at hfurnished'
  rcases hi with ⟨w, hw, rfl⟩ | ⟨w, hw, rfl⟩ | ⟨w, hw, rfl⟩ | ⟨a, ha, rfl⟩
  · have hmem := (hfurnished.images.mem_iff _).mpr ⟨w, hw, rfl⟩
    exact .inl ⟨w, hfurnished'.images.mem_of_seed hw hmem, rfl⟩
  · have hmem := (hfurnished.strings.mem_iff _).mpr ⟨w, hw, rfl⟩
    exact .inr (.inl ⟨w, hfurnished'.strings.mem_of_seed hw hmem, rfl⟩)
  · have hmem := (hfurnished.floatLists.mem_iff _).mpr ⟨w, hw, rfl⟩
    exact .inr (.inr (.inl ⟨w, hfurnished'.floatLists.mem_of_seed hw hmem, rfl⟩))
  · exact .inr (.inr (.inr ⟨a, h.has_again h' halike ha, rfl⟩))

end Left

/-- Nothing is left if no later build has anything of it: one that is given the same calls, with nodes
shared as they were, would have all. -/
theorem instances_eq_nil_of_apart (hseed : seed.Grown stamps) (hstamp : stamp ∉ stamps)
    (h : GraphBuilder.backend.finish (GraphBuilder.backend.issueAll
      (.start (.start stamp shareNodes seed)) calls).1 = .ok g)
    (hapart : ∀ later ∉ stamp :: stamps, ∀ shareLater after g',
      GraphBuilder.backend.finish (GraphBuilder.backend.issueAll
        (.start (.start later shareLater g.cache)) after).1 = .ok g' →
      g'.cache.instances.Disjoint g.cache.instances) : g.cache.instances = [] := by
  obtain ⟨hgrown, hleft⟩ := left_of_session hseed hstamp h
  obtain ⟨later, hlater⟩ := Infinite.exists_notMem_finset (stamp :: stamps).toFinset
  rw [List.mem_toFinset] at hlater
  obtain ⟨g', h', halike⟩ := alike_of_session hseed hgrown hstamp hlater h shareNodes
  obtain ⟨-, hleft'⟩ := left_of_session hgrown hlater h'
  have hagain := hleft.instances_subset hleft' (furnished_of_session hseed hstamp h)
    (furnished_of_session hgrown hlater h') halike
  refine List.eq_nil_iff_forall_not_mem.mpr fun i hi => ?_
  exact hapart later hlater shareNodes calls g' h' (hagain hi) hi

/-- What the check for emptiness asks of an image, and when its build leaves nothing. Nothing is left
exactly if no later build that starts from it, whatever it is given, has any instance of it. For that
the check is not enough: the tables must have no pictures and no lists of numbers either, and no
transform, path, point list or paint may be in the image. -/
theorem isEmpty_iff_of_session (hseed : seed.Grown stamps) (hstamp : stamp ∉ stamps)
    (h : GraphBuilder.backend.finish (GraphBuilder.backend.issueAll
      (.start (.start stamp shareNodes seed)) calls).1 = .ok g) :
    (g.cache.isEmpty = true ↔ g.tables.strings = [] ∧ (∀ p, .path p ∉ g.items) ∧
      (shareNodes = true → g.root.children = [])) ∧
    (g.cache.instances = [] ↔ g.tables = .empty ∧ (∀ a ∈ g.items, a.isNode = true) ∧
      (shareNodes = true → g.root.children = [])) ∧
    (g.cache.instances = [] ↔ ∀ later ∉ stamp :: stamps, ∀ shareLater after g',
      GraphBuilder.backend.finish (GraphBuilder.backend.issueAll
        (.start (.start later shareLater g.cache)) after).1 = .ok g' →
      g'.cache.instances.Disjoint g.cache.instances) ∧
    (g.cache.instances = [] ↔ g.cache.isEmpty = true ∧ g.tables.images = [] ∧
      g.tables.floatLists = [] ∧ ∀ a ∈ g.items, a.isNode = true) := by
  obtain ⟨-, hleft⟩ := left_of_session hseed hstamp h
  have hfurnished := furnished_of_session hseed hstamp h
  have hchecked := hleft.isEmpty_iff hfurnished
  have hnothing := hleft.instances_eq_nil_iff hfurnished
  refine ⟨hchecked, hnothing, ⟨fun hnil => ?_, instances_eq_nil_of_apart hseed hstamp h⟩, ?_⟩
  · intro later hlater shareLater after g' h' i hi hmem
    rw [hnil] at hmem
    cases hmem
  · have hpaths (hitems : ∀ a ∈ g.items, a.isNode = true) (p : Shared Path) : .path p ∉ g.items :=
      fun hp => absurd (hitems _ hp) Bool.noConfusion
    rw [hnothing, hchecked, Tables.eq_empty_iff]
    tauto

end GraphImage

/-! Tables with a picture that nothing shows, and a rectangle moved aside. -/

namespace Poster

private def stocked : List Call := [.init ⟨[⟨1, 1, [0, 0, 0, 255]⟩], [], []⟩]

private def moved : List Call :=
  [.init .empty, .shape ⟨.rect ⟨⟨.zero, .zero, .one, .one⟩, .zero, .zero⟩,
    .filled ⟨0, 0, 0, 255⟩, some (.translate .one .one)⟩]

private def session (stamp : Nat) (shareNodes : Bool) (seed : NodeCache) (calls : List Call) :
    Except Error GraphImage :=
  GraphBuilder.backend.finish
    (GraphBuilder.backend.issueAll (.start (.start stamp shareNodes seed)) calls).1

private theorem session_stocked : ∃ g, session 0 true .empty stocked = .ok g ∧
    g.tables = ⟨[⟨1, 1, [0, 0, 0, 255]⟩], [], []⟩ ∧ g.root.children = [] :=
  ⟨_, rfl, rfl, rfl⟩

private theorem session_moved : ∃ g, session 0 false .empty moved = .ok g ∧
    g.cache.isEmpty = true ∧ ∃ inst geometry paint transform,
      g.root.children = [.shape inst geometry paint (some transform)] :=
  ⟨_, rfl, by decide +kernel, _, _, _, _, rfl⟩

end Poster

namespace GraphImage

/-- The picture is left and a later build has it again, although what is checked is empty. -/
theorem isEmpty_iff_of_session_stocked : ∃ g, Poster.session 0 true .empty Poster.stocked = .ok g ∧
    g.cache.isEmpty = true ∧ g.cache.instances ≠ [] ∧
    ∃ later ∉ [0], ∃ shareLater after g', Poster.session later shareLater g.cache after = .ok g' ∧
      ¬ g'.cache.instances.Disjoint g.cache.instances := by
  obtain ⟨g, h, htables, hchildren⟩ := Poster.session_stocked
  obtain ⟨hchecked, hnothing, hapart, -⟩ := isEmpty_iff_of_session .empty List.not_mem_nil h
  have hitems : g.items = [] := by rw [GraphImage.items, hchildren, Node.itemsAll]
  have hleft : g.cache.instances ≠ [] := by
    intro hnil
    have hempty := (hnothing.mp hnil).1
    rw [htables, Tables.eq_empty_iff] at hempty
    exact absurd hempty.1 (List.cons_ne_nil _ _)
  refine ⟨g, h, ?_, hleft, ?_⟩
  · refine hchecked.mpr ⟨by rw [htables], fun p hp => ?_, fun _ => hchildren⟩
    rw [hitems] at hp
    cases hp
  · by_contra hnone
    refine hleft (hapart.mpr fun later hlater shareLater after g' h' => ?_)
    by_contra hmeet
    exact hnone ⟨later, hlater, shareLater, after, g', h', hmeet⟩

/-- What is checked is empty, and yet a transform is left that the next image is made of. -/
theorem exists_reused_of_isEmpty : ∃ g g', Poster.session 0 false .empty Poster.moved = .ok g ∧
    g.cache.isEmpty = true ∧ Poster.session 1 false g.cache Poster.moved = .ok g' ∧
    ∃ t ∈ g.cache.transforms.entries, .transform t ∈ g'.items := by
  obtain ⟨g, h, hempty, inst, geometry, paint, t, hchildren⟩ := Poster.session_moved
  obtain ⟨hgrown, hleft⟩ := left_of_session .empty List.not_mem_nil h
  have hlater : 1 ∉ [0] := by decide
  obtain ⟨g', h', halike⟩ := alike_of_session .empty hgrown List.not_mem_nil hlater h false
  obtain ⟨-, hleft'⟩ := left_of_session hgrown hlater h'
  have hmem : .transform t ∈ g.items := by
    simp [GraphImage.items, hchildren, Node.itemsAll, Node.items, transformItems]
  have hmet : g.cache.Has (.transform t) :=
    (hleft.has_iff _).mpr ⟨hmem, fun hnode => absurd hnode Bool.false_ne_true⟩
  have hagain := hleft.has_again hleft' halike hmet
  exact ⟨g, g', h, hempty, h', t, hmet, ((hleft'.has_iff _).mp hagain).1⟩

end GraphImage

end VectorImage
