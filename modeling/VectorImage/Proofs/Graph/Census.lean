import Mathlib.Data.Set.Card
import VectorImage.Proofs.Graph.Recording

/-!
The values that a finished build leaves are those of its image: each once, and no others. So their
numbers are those of the different values in the image, whatever the build started from; and a build
of the same calls that starts from them gives the nodes again.
-/

set_option autoImplicit false
set_option relaxedAutoImplicit false

namespace VectorImage

namespace NodeCache

variable {c d : NodeCache}

theorem Grown.whole {stamps : List Nat} (h : c.Grown stamps) : c.Whole := by
  cases h with
  | empty => exact fun n hn => absurd (mem_listing.mpr hn) List.not_mem_nil
  | build hseed hstamp shareNodes calls =>
    obtain ⟨known, hsettled⟩ := hseed.settled
    obtain ⟨hshare, hrecorded, items, hholds⟩ :=
      GraphBuilder.recorded_issueAll hsettled hstamp shareNodes calls
    intro n hn a ha
    have hcovers := hholds.sharing.covers
    have hmem := hholds.items_subset hcovers.closed (hrecorded.mem _ hn)
    exact hcovers.has a (Inventory.items_subset hcovers.closed n hmem ha)
      fun _ => hshare ▸ hrecorded.nodes n hn

/-- Values of two caches that are equal but for their instances are one value. -/
theorem Agrees.eq_of_plain (h : c.Agrees d) (hc : c.Whole) (hd : d.Whole) {a b : Item}
    (ha : c.Has a) (hb : d.Has b) (hplain : a.plain = b.plain) : a = b := by
  cases a with
  | transform t =>
    cases b with
    | transform u => exact congrArg _ (shared_eq h.transforms ha hb (Item.transform.inj hplain))
    | _ => cases hplain
  | path p =>
    cases b with
    | path q => exact congrArg _ (shared_eq h.paths ha hb (Item.path.inj hplain))
    | _ => cases hplain
  | poly g =>
    cases b with
    | poly k => exact congrArg _ (shared_eq h.polys ha hb (Item.poly.inj hplain))
    | _ => cases hplain
  | paint p =>
    cases b with
    | paint q => exact congrArg _ (shared_eq h.paints ha hb (Item.paint.inj hplain))
    | _ => cases hplain
  | node m =>
    cases b with
    | node n =>
      exact congrArg _ (Node.eq_of_plain h m n (hc m ha) (hd n hb) (Item.node.inj hplain))
    | _ => cases hplain

end NodeCache

/-! Two sessions that issue the same calls. -/

namespace GraphBuilder

theorem Alike.symm {b b' : GraphBuilder} (h : b.Alike b') : b'.Alike b :=
  ⟨h.document.symm, h.tables.symm, h.gradients.symm, h.root.symm, h.frames.symm,
    fun name => (h.exports name).symm⟩

/-- Sessions of two builders that have got equally far and hold the same but for instances. -/
structure Abreast (stamps stamps' : List Nat) (s s' : Session GraphBuilder) : Prop where
  nesting : s.nesting = s'.nesting
  alike : s.state.Alike s'.state
  coherent : ∃ items, s.state.Coherent stamps items
  coherent' : ∃ items, s'.state.Coherent stamps' items

variable {stamps stamps' : List Nat} {s s' : Session GraphBuilder}

theorem Abreast.symm (h : Abreast stamps stamps' s s') : Abreast stamps' stamps s' s :=
  ⟨h.nesting.symm, h.alike.symm, h.coherent', h.coherent⟩

/-- What one builder performs the other performs too. -/
private theorem Abreast.perform (h : Abreast stamps stamps' s s') {call : Call} {b : GraphBuilder}
    {reply : Reply} (hperform : s.state.perform call = .ok (b, reply)) :
    ∃ b', s'.state.perform call = .ok (b', reply) ∧
      ∀ nesting, Abreast stamps stamps' ⟨nesting, b⟩ ⟨nesting, b'⟩ := by
  obtain ⟨items, hcoherent⟩ := h.coherent
  obtain ⟨items', hcoherent'⟩ := h.coherent'
  obtain ⟨hbuilds, hafter⟩ := perform_spec hcoherent hperform
  obtain ⟨b', reply', hperform'⟩ := perform_of_ready (h.alike.ready hbuilds)
  obtain ⟨hbuilds', hafter'⟩ := perform_spec hcoherent' hperform'
  obtain ⟨halike, rfl⟩ := h.alike.step hbuilds hbuilds'
  exact ⟨b', hperform', fun nesting => ⟨rfl, halike, hafter, hafter'⟩⟩

theorem Abreast.issue (h : Abreast stamps stamps' s s') (call : Call) :
    Abreast stamps stamps' (backend.issue s call).1 (backend.issue s' call).1 := by
  have hcount : backend.gradientCount s.state = backend.gradientCount s'.state :=
    congrArg CanonicalTable.size h.alike.gradients
  unfold Backend.issue
  rw [h.nesting, hcount]
  split
  · exact ⟨rfl, h.alike, h.coherent, h.coherent'⟩
  · next nesting _ =>
    cases hfirst : backend.perform s.state call with
    | ok r =>
      obtain ⟨b', hsecond, hpaired⟩ := h.perform hfirst
      rw [show backend.perform s'.state call = .ok (b', r.2) from hsecond]
      exact hpaired nesting
    | error e =>
      cases hsecond : backend.perform s'.state call with
      | ok r =>
        obtain ⟨b, hperform, -⟩ := h.symm.perform hsecond
        cases hfirst.symm.trans hperform
      | error e' => exact ⟨rfl, h.alike, h.coherent, h.coherent'⟩

theorem Abreast.issueAll (h : Abreast stamps stamps' s s') (calls : List Call) :
    Abreast stamps stamps' (backend.issueAll s calls).1 (backend.issueAll s' calls).1 := by
  induction calls generalizing s s' with
  | nil => exact h
  | cons call rest ih => exact ih (h.issue call)

end GraphBuilder

namespace GraphImage

variable {stamps : List Nat} {seed : NodeCache} {stamp : Nat} {shareNodes : Bool}
  {calls : List Call} {g : GraphImage}

/-- What a session builds, the same calls build again, from whatever earlier builds left to share
and with nodes shared or not, and the images are alike. -/
theorem alike_of_session {stamps' : List Nat} {seed' : NodeCache} (hseed : seed.Grown stamps)
    (hseed' : seed'.Grown stamps') {stamp' : Nat} (hstamp : stamp ∉ stamps)
    (hstamp' : stamp' ∉ stamps')
    (h : GraphBuilder.backend.finish (GraphBuilder.backend.issueAll
      (.start (.start stamp shareNodes seed)) calls).1 = .ok g) (shareNodes' : Bool) :
    ∃ g', GraphBuilder.backend.finish (GraphBuilder.backend.issueAll
      (.start (.start stamp' shareNodes' seed')) calls).1 = .ok g' ∧ g.Alike g' := by
  obtain ⟨items, hfounded⟩ := hseed.founded
  obtain ⟨items', hfounded'⟩ := hseed'.founded
  have hstart : GraphBuilder.Abreast (stamp :: stamps) (stamp' :: stamps')
      (.start (.start stamp shareNodes seed)) (.start (.start stamp' shareNodes' seed')) :=
    ⟨rfl, GraphBuilder.alike_start .., ⟨items, GraphBuilder.coherent_start hfounded hstamp _⟩,
      ⟨items', GraphBuilder.coherent_start hfounded' hstamp' _⟩⟩
  have hpaired := hstart.issueAll calls
  obtain ⟨_, hclosed, hcomplete⟩ := bind_eq_ok.mp h
  have hsame := hpaired.alike.complete
  rw [hcomplete] at hsame
  obtain ⟨g', hcomplete', halike⟩ := hsame.of_ok
  exact ⟨g', bind_eq_ok.mpr ⟨_, hpaired.nesting ▸ hclosed, hcomplete'⟩, halike⟩

/-- What a finished build leaves: every value of its image, nodes only if they are shared, and
nothing else, each once and as the seed has it. -/
structure Left (g : GraphImage) (shareNodes : Bool) (seed : NodeCache) : Prop where
  nodup : g.cache.listing.Nodup
  has_iff : ∀ a, g.cache.Has a ↔ a ∈ g.items ∧ (a.isNode = true → shareNodes = true)
  whole : g.cache.Whole
  apart : g.cache.Agrees g.cache
  agrees : g.cache.Agrees seed

/-- A finished image is made of all that its builder holds. -/
theorem items_eq_of_finish {s : Session GraphBuilder} (h : GraphBuilder.backend.finish s = .ok g) :
    g.items = s.state.items := by
  obtain ⟨_, -, hcomplete⟩ := bind_eq_ok.mp h
  obtain ⟨hframes, -⟩ := GraphBuilder.complete_eq_ok.mp hcomplete
  rw [GraphBuilder.items, hframes, ← (parts_of_finish h).1, List.flatMap_nil, List.append_nil, items]

theorem left_of_session (hseed : seed.Grown stamps) (hstamp : stamp ∉ stamps)
    (h : GraphBuilder.backend.finish (GraphBuilder.backend.issueAll
      (.start (.start stamp shareNodes seed)) calls).1 = .ok g) :
    g.cache.Grown (stamp :: stamps) ∧ g.Left shareNodes seed := by
  obtain ⟨known, hsettled⟩ := hseed.settled
  obtain ⟨-, hrecorded, items, hholds⟩ :=
    GraphBuilder.recorded_issueAll hsettled hstamp shareNodes calls
  have hhas := NodeCache.has_iff_of_session hsettled hstamp shareNodes calls
  have hcache := cache_of_finish h
  have hgrown : g.cache.Grown (stamp :: stamps) := hcache ▸ .build hseed hstamp shareNodes calls
  have hexact := hholds.sharing.exact
  refine ⟨hgrown, hcache ▸ hrecorded.nodup, fun a => ?_, hgrown.whole, hcache ▸ hexact.agrees_met, ?_⟩
  · rw [hcache, items_eq_of_finish h]
    exact hhas a
  · have hagrees := hexact.agrees_seed
    rwa [hholds.sharing.seed, ← hcache] at hagrees

/-- A table without repetitions is as large as there are different values in it. -/
private theorem encard_of_entries {α β : Type} (f : α → β) (wrap : α → Item) {entries : Array α}
    {items : List Item} (hnodup : (entries.toList.map wrap).Nodup)
    (hf : ∀ a ∈ entries, ∀ b ∈ entries, f a = f b → a = b)
    (hitems : ∀ a, a ∈ entries ↔ wrap a ∈ items) :
    {b | ∃ a, wrap a ∈ items ∧ f a = b}.encard = entries.size := by
  have himage : (entries.toList.map f).Nodup := hnodup.of_map.map_on fun a ha b hb =>
    hf a (Array.mem_toList_iff.mp ha) b (Array.mem_toList_iff.mp hb)
  have hset : {b | ∃ a, wrap a ∈ items ∧ f a = b} =
      (⟨↑(entries.toList.map f), himage⟩ : Finset β) := by
    ext b
    refine Iff.trans (exists_congr fun a => and_congr_left fun _ => ?_) List.mem_map.symm
    exact (hitems a).symm.trans Array.mem_toList_iff.symm
  rw [hset, Set.encard_coe_eq_coe_finsetCard]
  exact congrArg Nat.cast ((List.length_map f).trans Array.length_toList)

namespace Left

theorem encard_transforms (h : g.Left shareNodes seed) :
    {m : Affine | ∃ t, .transform t ∈ g.items ∧ t.value = m}.encard = g.cache.transformCount :=
  encard_of_entries Shared.value .transform
    h.nodup.of_append_left.of_append_left.of_append_left.of_append_left
    (fun t ht u hu hvalue => h.apart.transforms t ht u hu
      (congrArg (Keyed.key (α := Affine)) hvalue))
    fun t => (h.has_iff (.transform t)).trans (and_iff_left nofun)

theorem encard_paths (h : g.Left shareNodes seed) :
    {v : Path | ∃ p, .path p ∈ g.items ∧ p.value = v}.encard = g.cache.pathCount :=
  encard_of_entries Shared.value .path
    h.nodup.of_append_left.of_append_left.of_append_left.of_append_right
    (fun p hp q hq hvalue => h.apart.paths p hp q hq
      (congrArg (Keyed.key (α := Path)) hvalue))
    fun p => (h.has_iff (.path p)).trans (and_iff_left nofun)

theorem encard_nodes (h : g.Left true seed) :
    {m : Node | ∃ n, .node n ∈ g.items ∧ n.plain = m}.encard = g.cache.nodeCount :=
  encard_of_entries Node.plain .node h.nodup.of_append_right
    (fun _ hm _ hn hplain => Item.node.inj
      (h.apart.eq_of_plain h.whole h.whole hm hn (congrArg Item.node hplain)))
    fun n => (h.has_iff (.node n)).trans (and_iff_left fun _ => rfl)

/-- Where nodes are not shared, none is met. -/
theorem nodeCount_eq_zero (h : g.Left false seed) : g.cache.nodeCount = 0 := by
  refine Array.size_eq_zero_iff.mpr (Array.eq_empty_iff_forall_not_mem.mpr fun n hn => ?_)
  exact absurd (((h.has_iff (.node n)).mp hn).2 rfl) Bool.noConfusion

/-- A value of the seed is left just if a value of the image is equal to it. -/
theorem has_seed_iff (h : g.Left shareNodes seed) (hseed : seed.Whole) {a : Item}
    (ha : seed.Has a) : g.cache.Has a ↔
      ∃ b ∈ g.items, (b.isNode = true → shareNodes = true) ∧ b.plain = a.plain := by
  refine ⟨fun hmet => ?_, fun ⟨b, hb, hshared, hplain⟩ => ?_⟩
  · obtain ⟨hmem, hshared⟩ := (h.has_iff a).mp hmet
    exact ⟨a, hmem, hshared, rfl⟩
  · have hmet := (h.has_iff b).mpr ⟨hb, hshared⟩
    exact h.agrees.eq_of_plain h.whole hseed hmet ha hplain ▸ hmet

/-- An image that is alike and built from what the first build left is made of the same nodes. -/
theorem children_eq {g' : GraphImage} (h : g.Left true seed) (h' : g'.Left true g.cache)
    (halike : g.Alike g') : g'.root.children = g.root.children :=
  Node.eq_of_plainAll h'.agrees _ _ (fun a ha => (h'.has_iff a).mpr ⟨ha, fun _ => rfl⟩)
    (fun a ha => (h.has_iff a).mpr ⟨ha, fun _ => rfl⟩) halike.children.symm

end Left

/-- What a build leaves describes its image and nothing before. With nodes shared there are as many
nodes as there are different ones in the image, and without there are none; there are as many paths
and transforms as there are different ones in the image. Each value is there once, and a value of
the seed just if a value of the image is equal to it. The same calls, with nodes shared both times,
then build the image again from these very nodes, and leave as many. -/
theorem cache_census (hseed : seed.Grown stamps) (hstamp : stamp ∉ stamps)
    (h : GraphBuilder.backend.finish (GraphBuilder.backend.issueAll
      (.start (.start stamp shareNodes seed)) calls).1 = .ok g) :
    (g.cache.nodeCount : ℕ∞) =
      (if shareNodes then {m | ∃ n, .node n ∈ g.items ∧ n.plain = m}.encard else 0) ∧
    (g.cache.pathCount : ℕ∞) = {v : Path | ∃ p, .path p ∈ g.items ∧ p.value = v}.encard ∧
    (g.cache.transformCount : ℕ∞) =
      {m : Affine | ∃ t, .transform t ∈ g.items ∧ t.value = m}.encard ∧
    g.cache.listing.Nodup ∧
    (∀ a, a ∈ g.cache.listing ↔ a ∈ g.items ∧ (a.isNode = true → shareNodes = true)) ∧
    (∀ a ∈ seed.listing, a ∈ g.cache.listing ↔
      ∃ b ∈ g.items, (b.isNode = true → shareNodes = true) ∧ b.plain = a.plain) ∧
    (shareNodes = true → ∀ again ∉ stamp :: stamps, ∃ g',
      GraphBuilder.backend.finish (GraphBuilder.backend.issueAll
        (.start (.start again true g.cache)) calls).1 = .ok g' ∧
      g'.root.children = g.root.children ∧ g'.cache.nodeCount = g.cache.nodeCount ∧
      g'.cache.pathCount = g.cache.pathCount ∧
      g'.cache.transformCount = g.cache.transformCount) := by
  obtain ⟨hgrown, hleft⟩ := left_of_session hseed hstamp h
  refine ⟨?_, hleft.encard_paths.symm, hleft.encard_transforms.symm, hleft.nodup, fun a => ?_,
    fun a ha => ?_, fun hshare again hagain => ?_⟩
  · cases shareNodes with
    | true => exact hleft.encard_nodes.symm
    | false => exact congrArg Nat.cast hleft.nodeCount_eq_zero
  · exact NodeCache.mem_listing.trans (hleft.has_iff a)
  · exact NodeCache.mem_listing.trans
      (hleft.has_seed_iff hseed.whole (NodeCache.mem_listing.mp ha))
  · subst hshare
    obtain ⟨g', h', halike⟩ := alike_of_session hseed hgrown hstamp hagain h true
    obtain ⟨-, hleft'⟩ := left_of_session hgrown hagain h'
    have hchildren := hleft.children_eq hleft' halike
    have hitems : g'.items = g.items := congrArg Node.itemsAll hchildren
    refine ⟨g', h', hchildren, ?_, ?_, ?_⟩
    · exact Nat.cast_injective (hleft'.encard_nodes.symm.trans (hitems ▸ hleft.encard_nodes))
    · exact Nat.cast_injective (hleft'.encard_paths.symm.trans (hitems ▸ hleft.encard_paths))
    · exact Nat.cast_injective
        (hleft'.encard_transforms.symm.trans (hitems ▸ hleft.encard_transforms))

end GraphImage

/-! A picture under a clip, and then, from what that build has left, the bare picture twice. -/

namespace Gallery

private def picture : ImageLeaf := ⟨0, ⟨.zero, .zero, .one, .one⟩, none⟩

private def tables : Call := .init ⟨[⟨1, 1, [0, 0, 0, 255]⟩], [], []⟩

private def clipped : List Call :=
  [tables, .clip ⟨.empty, .evenOdd, some (.translate .one .one)⟩, .image picture]

private def bare : List Call := [tables, .image picture, .image picture]

private def session (stamp : Nat) (shareNodes : Bool) (seed : NodeCache) (calls : List Call) :
    Except Error GraphImage :=
  GraphBuilder.backend.finish
    (GraphBuilder.backend.issueAll (.start (.start stamp shareNodes seed)) calls).1

private theorem session_clipped : ∃ g, session 0 true .empty clipped = .ok g := by
  have haccepted : (session 0 true .empty clipped).toBool = true := by decide +kernel
  exact toBool_eq_true.mp haccepted

private theorem plain_bare : ∃ g, session 0 false .empty bare = .ok g ∧
    Node.plainAll g.root.children = [.image default picture, .image default picture] :=
  ⟨_, rfl, rfl⟩

private theorem items_of_plain {n : Node} (h : n.plain = .image default picture) :
    n.items = [.node n] := by
  cases n with
  | image inst leaf => rw [Node.items]
  | _ =>
    rw [Node.plain] at h
    cases h

end Gallery

namespace GraphImage

/-- Neither the clip nor its outline and transform are left, and the picture is left once; the same
calls give it again. -/
theorem cache_census_bare : ∃ g₀ g g' : GraphImage,
    Gallery.session 0 true .empty Gallery.clipped = .ok g₀ ∧
      Gallery.session 1 true g₀.cache Gallery.bare = .ok g ∧ g.cache.nodeCount = 1 ∧
      g.cache.pathCount = 0 ∧ g.cache.transformCount = 0 ∧
      Gallery.session 2 true g.cache Gallery.bare = .ok g' ∧
      g'.root.children = g.root.children ∧ g'.cache.nodeCount = 1 := by
  have hnew (stamp : Nat) : stamp ∉ ([] : List Nat) := List.not_mem_nil
  obtain ⟨g₀, h₀⟩ := Gallery.session_clipped
  obtain ⟨hgrown, -⟩ := left_of_session .empty (hnew 0) h₀
  -- A build that shares nothing computes; the other is made of the same.
  obtain ⟨u, hu, hplain⟩ := Gallery.plain_bare
  have hstamp : 1 ∉ [0] := by decide
  obtain ⟨g, h, halike⟩ := alike_of_session .empty hgrown (hnew 0) hstamp hu true
  rw [halike.children, Node.plainAll_eq_map] at hplain
  obtain ⟨first, rest, hchildren, hfirst, hrest⟩ := List.map_eq_cons_iff.mp hplain
  obtain ⟨second, rest, rfl, hsecond, hrest⟩ := List.map_eq_cons_iff.mp hrest
  obtain rfl := List.map_eq_nil_iff.mp hrest
  have hitems : g.items = [.node first, .node second] := by
    rw [GraphImage.items, hchildren, Node.itemsAll, Node.itemsAll, Node.itemsAll,
      Gallery.items_of_plain hfirst, Gallery.items_of_plain hsecond]
    rfl
  obtain ⟨hnodes, hpaths, htransforms, -, -, -, hagain⟩ := cache_census hgrown hstamp h
  obtain ⟨g', h', hsame, hcount, -⟩ := hagain rfl 2 (by decide)
  have hone : g.cache.nodeCount = 1 := by
    refine Nat.cast_injective (R := ℕ∞) (hnodes.trans ((if_pos rfl).trans ?_))
    refine Eq.trans (congrArg Set.encard (Set.ext fun m => ?_))
      (Set.encard_singleton (Node.image default Gallery.picture))
    rw [hitems, Set.mem_singleton_iff]
    constructor
    · rintro ⟨n, hn, rfl⟩
      rcases List.mem_cons.mp hn with hn | hn
      · exact Item.node.inj hn ▸ hfirst
      · exact Item.node.inj (List.mem_singleton.mp hn) ▸ hsecond
    · rintro rfl
      exact ⟨first, List.mem_cons_self, hfirst⟩
  refine ⟨g₀, g, g', h₀, h, hone, ?_, ?_, h', hsame, hcount.trans hone⟩
  · refine Nat.cast_injective (R := ℕ∞) (hpaths.trans (Set.encard_eq_zero.mpr ?_))
    refine Set.eq_empty_of_forall_notMem fun v hv => ?_
    obtain ⟨p, hp, -⟩ := hv
    simp [hitems] at hp
  · refine Nat.cast_injective (R := ℕ∞) (htransforms.trans (Set.encard_eq_zero.mpr ?_))
    refine Set.eq_empty_of_forall_notMem fun v hv => ?_
    obtain ⟨t, ht, -⟩ := hv
    simp [hitems] at ht

end GraphImage

end VectorImage
