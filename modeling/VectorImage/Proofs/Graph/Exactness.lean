import VectorImage.Proofs.Graph.Building

/-!
Sharing is exact. What a build has met has each value once, and as its seed has it; what the builder
holds is made of values it has met.
-/

set_option autoImplicit false
set_option relaxedAutoImplicit false

namespace VectorImage

/-! One table of a seed and of a build. -/

/-- What a build has met of a kind: in it and in its seed a key has one entry, the same one. -/
structure CanonicalTable.Continues {α : Type} [Keyed α] [KeyDigest] (seed met : CanonicalTable α) :
    Prop where
  seedBuilt : seed.Built
  metBuilt : met.Built
  seedApart : seed.Agrees seed
  metApart : met.Agrees met
  both : met.Agrees seed

namespace CanonicalTable.Continues

variable {α : Type} [Keyed α] [KeyDigest] {seed met met' : CanonicalTable α} {v w : α}

theorem start (hbuilt : seed.Built) (hapart : seed.Agrees seed) :
    Continues seed (empty : CanonicalTable α) :=
  ⟨hbuilt, built_empty, hapart, agrees_empty _, agrees_empty _⟩

/-- A value joins what was met: nothing met has its key, and the seed has it or has no such key. -/
private theorem push (h : Continues seed met) (hmet : ∀ u ∈ met.entries, Keyed.key w ≠ Keyed.key u)
    (hseed : ∀ u ∈ seed.entries, Keyed.key w = Keyed.key u → w = u) :
    Continues seed (met.push w) := by
  have hself : (met.push w).Agrees met :=
    h.metApart.push fun u hu hkey => absurd hkey (hmet u hu)
  refine ⟨h.seedBuilt, h.metBuilt.push w, h.seedApart, ?_, h.both.push hseed⟩
  refine hself.symm.push fun u hu hkey => ?_
  rcases Array.mem_push.mp hu with hu | rfl
  · exact absurd hkey (hmet u hu)
  · rfl

/-- Sharing keeps this, and what it answers is met from then on. -/
theorem shareIn (h : Continues seed met) (hshare : VectorImage.shareIn seed met v = (w, met')) :
    Continues seed met' ∧ w ∈ met'.entries ∧ ∀ u ∈ met.entries, u ∈ met'.entries := by
  have hnone {t : CanonicalTable α} (hbuilt : t.Built) (hfind : t.findEntry? v = none) :
      ∀ u ∈ t.entries, Keyed.key v ≠ Keyed.key u := by
    intro u hu hkey
    obtain ⟨x, hx⟩ := hbuilt.bucketed.findEntry?_progress hu hkey
    cases hfind.symm.trans hx
  have hpush (x : α) : x ∈ (met.push x).entries ∧ ∀ u ∈ met.entries, u ∈ (met.push x).entries :=
    ⟨Array.mem_push_self, fun u hu => Array.mem_push_of_mem x hu⟩
  unfold VectorImage.shareIn at hshare
  split at hshare
  · next x hx =>
    cases hshare
    exact ⟨h, (findEntry?_key hx).1, fun u hu => hu⟩
  · next hmet =>
    split at hshare
    · next x hx =>
      cases hshare
      obtain ⟨hmem, hkey⟩ := findEntry?_key hx
      refine ⟨h.push (fun u hu he => ?_) (h.seedApart _ hmem), hpush _⟩
      exact hnone h.metBuilt hmet u hu (hkey.symm.trans he)
    · next hseed =>
      cases hshare
      refine ⟨h.push (hnone h.metBuilt hmet) fun u hu he => ?_, hpush _⟩
      exact absurd he (hnone h.seedBuilt hseed u hu)

end CanonicalTable.Continues

/-! The tables of nodes and of what they are made of. -/

namespace NodeCache

/-- A value is in the table of its kind. -/
def Has (c : NodeCache) : Item → Prop
  | .transform t => t ∈ c.transforms.entries
  | .path p => p ∈ c.paths.entries
  | .poly g => g ∈ c.polys.entries
  | .paint p => p ∈ c.paints.entries
  | .node n => n ∈ c.nodes.entries

/-- All that is in one cache is in another. -/
def Sub (c d : NodeCache) : Prop := ∀ a, c.Has a → d.Has a

/-- Values of two caches that have one key are one value. -/
structure Agrees (c d : NodeCache) : Prop where
  transforms : c.transforms.Agrees d.transforms
  paths : c.paths.Agrees d.paths
  polys : c.polys.Agrees d.polys
  paints : c.paints.Agrees d.paints
  nodes : c.nodes.Agrees d.nodes

end NodeCache

namespace Sharing

/-- In the seed and in what was met, a key has one value, the same in both. -/
structure Exact (s : Sharing) : Prop where
  transforms : s.seed.transforms.Continues s.met.transforms
  paths : s.seed.paths.Continues s.met.paths
  polys : s.seed.polys.Continues s.met.polys
  paints : s.seed.paints.Continues s.met.paints
  nodes : s.seed.nodes.Continues s.met.nodes

variable {s s' : Sharing}

theorem Exact.agrees_met (h : s.Exact) : s.met.Agrees s.met :=
  ⟨h.transforms.metApart, h.paths.metApart, h.polys.metApart, h.paints.metApart, h.nodes.metApart⟩

theorem Exact.agrees_seed (h : s.Exact) : s.met.Agrees s.seed :=
  ⟨h.transforms.both, h.paths.both, h.polys.both, h.paints.both, h.nodes.both⟩

/-- A build that starts from what another has met. -/
theorem Exact.start (h : s.Exact) (stamp : Nat) : (Sharing.start stamp s.met).Exact :=
  ⟨.start h.transforms.metBuilt h.transforms.metApart, .start h.paths.metBuilt h.paths.metApart,
    .start h.polys.metBuilt h.polys.metApart, .start h.paints.metBuilt h.paints.metApart,
    .start h.nodes.metBuilt h.nodes.metApart⟩

theorem Exact.minted (h : s.Exact) : s.minted.Exact :=
  ⟨h.transforms, h.paths, h.polys, h.paints, h.nodes⟩

theorem Exact.aside (h : s.Exact) (hs : s.Aside s') : s'.Exact ∧ s.met.Sub s'.met := by
  refine ⟨⟨?_, ?_, ?_, ?_, ?_⟩, fun a ha => ?_⟩
  · exact hs.seed ▸ hs.transforms ▸ h.transforms
  · exact hs.seed ▸ hs.paths ▸ h.paths
  · exact hs.seed ▸ hs.polys ▸ h.polys
  · exact hs.seed ▸ hs.paints ▸ h.paints
  · exact hs.seed ▸ hs.nodes ▸ h.nodes
  · cases a with
    | transform t => simpa only [NodeCache.Has, hs.transforms] using ha
    | path p => simpa only [NodeCache.Has, hs.paths] using ha
    | poly g => simpa only [NodeCache.Has, hs.polys] using ha
    | paint p => simpa only [NodeCache.Has, hs.paints] using ha
    | node n => simpa only [NodeCache.Has, hs.nodes] using ha

/-- Sharing goes on exactly and meets a value. -/
structure Meets (s s' : Sharing) (a : Item) : Prop where
  exact : s'.Exact
  seed : s'.seed = s.seed
  sub : s.met.Sub s'.met
  has : s'.met.Has a

theorem Exact.transform (h : s.Exact) {v : Affine} {w : Shared Affine}
    (hshare : shareValue NodeCache.transforms (fun c t => { c with transforms := t }) v s = (w, s')) :
    s.Meets s' (.transform w) := by
  obtain ⟨table, hin, rfl⟩ := shareValue_eq hshare
  obtain ⟨hcontinues, hmem, hsub⟩ := h.transforms.shareIn hin
  refine ⟨{ h with transforms := hcontinues }, rfl, fun a ha => ?_, hmem⟩
  cases a with
  | transform t => exact hsub t ha
  | _ => exact ha

theorem Exact.path (h : s.Exact) {v : Path} {w : Shared Path} (hshare : path v s = (w, s')) :
    s.Meets s' (.path w) := by
  obtain ⟨table, hin, rfl⟩ := shareValue_eq hshare
  obtain ⟨hcontinues, hmem, hsub⟩ := h.paths.shareIn hin
  refine ⟨{ h with paths := hcontinues }, rfl, fun a ha => ?_, hmem⟩
  cases a with
  | path p => exact hsub p ha
  | _ => exact ha

theorem Exact.poly (h : s.Exact) {v : PolyGeom} {w : Shared PolyGeom}
    (hshare : poly v s = (w, s')) : s.Meets s' (.poly w) := by
  obtain ⟨table, hin, rfl⟩ := shareValue_eq hshare
  obtain ⟨hcontinues, hmem, hsub⟩ := h.polys.shareIn hin
  refine ⟨{ h with polys := hcontinues }, rfl, fun a ha => ?_, hmem⟩
  cases a with
  | poly g => exact hsub g ha
  | _ => exact ha

theorem Exact.paint (h : s.Exact) {v : Paint} {w : Shared Paint} (hshare : paint v s = (w, s')) :
    s.Meets s' (.paint w) := by
  obtain ⟨table, hin, rfl⟩ := shareValue_eq hshare
  obtain ⟨hcontinues, hmem, hsub⟩ := h.paints.shareIn hin
  refine ⟨{ h with paints := hcontinues }, rfl, fun a ha => ?_, hmem⟩
  cases a with
  | paint p => exact hsub p ha
  | _ => exact ha

theorem Exact.node (h : s.Exact) {n w : Node} (hshare : node n s = (w, s')) :
    s.Meets s' (.node w) := by
  unfold Sharing.node share at hshare
  generalize hin : shareIn s.seed.nodes s.met.nodes n = r at hshare
  obtain ⟨u, table⟩ := r
  cases hshare
  obtain ⟨hcontinues, hmem, hsub⟩ := h.nodes.shareIn hin
  refine ⟨{ h with nodes := hcontinues }, rfl, fun a ha => ?_, hmem⟩
  cases a with
  | node m => exact hsub m ha
  | _ => exact ha

end Sharing

def Item.isNode : Item → Bool
  | .node _ => true
  | _ => false

/-- A cache has all of an inventory that holds the parts of its nodes; the nodes themselves only if
nodes are shared. -/
structure NodeCache.Covers (c : NodeCache) (shareNodes : Bool) (items : Inventory) : Prop where
  closed : ∀ n, .node n ∈ items → items.HasParts n
  has : ∀ a ∈ items, (a.isNode = true → shareNodes = true) → c.Has a

theorem NodeCache.covers_nil (c : NodeCache) (shareNodes : Bool) : c.Covers shareNodes [] :=
  ⟨nofun, nofun⟩

namespace Sharing

/-- Sharing goes on exactly, and has met all of an inventory, which has names of its own together
with all that is known from before. -/
structure Settled (stamps : List Nat) (shareNodes : Bool) (seed : NodeCache)
    (known items : Inventory) (s : Sharing) : Prop where
  coherent : ∃ all, known ⊆ all ∧ items ⊆ all ∧ s.Coherent stamps all
  seed : s.seed = seed
  exact : s.Exact
  covers : s.met.Covers shareNodes items

variable {stamps : List Nat} {shareNodes : Bool} {seed : NodeCache} {known items : Inventory}
  {s s' : Sharing}

/-- A value joins the inventory as it is met. -/
private theorem Settled.add (h : s.Settled stamps shareNodes seed known items) {all : Inventory}
    (hknown : known ⊆ all) (hitems : items ⊆ all) {a : Item}
    (hcoherent : ∃ all', all ⊆ all' ∧ s'.Coherent stamps all' ∧ a ∈ all') (hseed : s'.seed = s.seed)
    (hexact : s'.Exact) (hsub : s.met.Sub s'.met)
    (hhas : (a.isNode = true → shareNodes = true) → s'.met.Has a)
    (hparts : ∀ n, a = .node n → items.HasParts n) :
    ∃ items', items ⊆ items' ∧ s'.Settled stamps shareNodes seed known items' ∧ a ∈ items' := by
  obtain ⟨all', hall, hs', ha⟩ := hcoherent
  have hmore : items ⊆ a :: items := fun b hb => List.mem_cons_of_mem a hb
  refine ⟨a :: items, hmore, ⟨⟨all', fun b hb => hall (hknown hb), ?_, hs'⟩, hseed.trans h.seed,
    hexact, ?_, ?_⟩, List.mem_cons_self⟩
  · intro b hb
    rcases List.mem_cons.mp hb with rfl | hb
    · exact ha
    · exact hall (hitems hb)
  · intro n hn
    rcases List.mem_cons.mp hn with hna | hn
    · exact (hparts n hna.symm).mono hmore
    · exact (h.covers.closed n hn).mono hmore
  · intro b hb hshared
    rcases List.mem_cons.mp hb with rfl | hb
    · exact hhas hshared
    · exact hsub b (h.covers.has b hb hshared)

theorem settled_law (stamps : List Nat) (shareNodes : Bool) (seed : NodeCache) (known : Inventory) :
    Law shareNodes (Settled stamps shareNodes seed known) where
  aside h hs := by
    obtain ⟨all, hknown, hitems, hcoherent⟩ := h.coherent
    obtain ⟨hexact, hsub⟩ := h.exact.aside hs
    exact ⟨⟨all, hknown, hitems, hcoherent.aside hs⟩, hs.seed.trans h.seed, hexact, h.covers.closed,
      fun a ha hshared => hsub a (h.covers.has a ha hshared)⟩
  transform h hshare := by
    obtain ⟨all, hknown, hitems, hcoherent⟩ := h.coherent
    have hmeets := h.exact.transform hshare
    exact h.add hknown hitems ((coherent_law stamps shareNodes).transform hcoherent hshare) hmeets.seed
      hmeets.exact hmeets.sub (fun _ => hmeets.has) nofun
  path h hshare := by
    obtain ⟨all, hknown, hitems, hcoherent⟩ := h.coherent
    have hmeets := h.exact.path hshare
    exact h.add hknown hitems ((coherent_law stamps shareNodes).path hcoherent hshare) hmeets.seed
      hmeets.exact hmeets.sub (fun _ => hmeets.has) nofun
  poly h hshare := by
    obtain ⟨all, hknown, hitems, hcoherent⟩ := h.coherent
    have hmeets := h.exact.poly hshare
    exact h.add hknown hitems ((coherent_law stamps shareNodes).poly hcoherent hshare) hmeets.seed
      hmeets.exact hmeets.sub (fun _ => hmeets.has) nofun
  paint h hshare := by
    obtain ⟨all, hknown, hitems, hcoherent⟩ := h.coherent
    have hmeets := h.exact.paint hshare
    exact h.add hknown hitems ((coherent_law stamps shareNodes).paint hcoherent hshare) hmeets.seed
      hmeets.exact hmeets.sub (fun _ => hmeets.has) nofun
  adds {items s s' f n} h hadds hinst hrenew hparts := by
    obtain ⟨all, hknown, hitems, hcoherent⟩ := h.coherent
    obtain ⟨all', i, hall, hs', hnode, hmem⟩ := (coherent_law stamps shareNodes).adds hcoherent hadds
      hinst hrenew fun i => (hparts i).mono hitems
    have hpart : ∀ m, Item.node n = .node m → items.HasParts m := by
      intro m hm
      cases hm
      exact hnode ▸ hparts i
    cases hadds with
    | own hkeep =>
      have hnot (hshared : (Item.node (f s.fresh)).isNode = true → shareNodes = true) :
          s.met.Has (.node (f s.fresh)) := absurd ((hshared rfl).symm.trans hkeep) Bool.noConfusion
      obtain ⟨items', hmore, hsettled, hin⟩ := h.add hknown hitems ⟨all', hall, hs', hmem⟩ rfl
        h.exact.minted (fun a ha => ha) hnot hpart
      exact ⟨items', i, hmore, hsettled, hnode, hin⟩
    | shared _ hshare =>
      have hmeets := h.exact.minted.node hshare
      obtain ⟨items', hmore, hsettled, hin⟩ := h.add hknown hitems ⟨all', hall, hs', hmem⟩ hmeets.seed
        hmeets.exact hmeets.sub (fun _ => hmeets.has) hpart
      exact ⟨items', i, hmore, hsettled, hnode, hin⟩

end Sharing

end VectorImage
