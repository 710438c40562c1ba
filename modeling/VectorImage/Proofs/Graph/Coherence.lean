import VectorImage.Proofs.Canonical.Table
import VectorImage.Proofs.Graph.Inventory

/-!
Sharing keeps an inventory. Whatever a build shares, there is an inventory of all values it has
met or may find in its seed, an instance names one of them, and the next instance is new. So a
shared value is the value that was given, and a shared node is the node that was given but for
its instance.
-/

set_option autoImplicit false
set_option relaxedAutoImplicit false

namespace VectorImage

/-- The values of a cache that nodes are made of are in an inventory. -/
structure NodeCache.Within (items : Inventory) (c : NodeCache) : Prop where
  transforms : ∀ t ∈ c.transforms.entries, Item.transform t ∈ items
  paths : ∀ p ∈ c.paths.entries, Item.path p ∈ items
  polys : ∀ g ∈ c.polys.entries, Item.poly g ∈ items
  paints : ∀ p ∈ c.paints.entries, Item.paint p ∈ items
  nodes : ∀ n ∈ c.nodes.entries, Item.node n ∈ items

namespace NodeCache.Within

variable {items items' : Inventory} {c : NodeCache}

theorem mono (hsub : items ⊆ items') (h : c.Within items) : c.Within items' :=
  ⟨fun t ht => hsub (h.transforms t ht), fun p hp => hsub (h.paths p hp),
    fun g hg => hsub (h.polys g hg), fun p hp => hsub (h.paints p hp),
    fun n hn => hsub (h.nodes n hn)⟩

theorem empty (items : Inventory) : NodeCache.empty.Within items := by
  constructor <;> intro a ha <;> simp [NodeCache.empty, CanonicalTable.empty] at ha

end NodeCache.Within

/-- Sharing may answer what was given, a value met before, or a value of the seed. -/
theorem shareIn_cases {α : Type} [Keyed α] [KeyDigest] {seed met met' : CanonicalTable α} {v w : α}
    (h : shareIn seed met v = (w, met')) :
    (w = v ∧ met' = met.push w) ∨
      (w ∈ met.entries ∧ Keyed.key w = Keyed.key v ∧ met' = met) ∨
      (w ∈ seed.entries ∧ Keyed.key w = Keyed.key v ∧ met' = met.push w) := by
  unfold shareIn at h
  split at h
  · next u hu =>
    cases h
    obtain ⟨hmem, hkey⟩ := CanonicalTable.findEntry?_key hu
    exact Or.inr (Or.inl ⟨hmem, hkey, rfl⟩)
  · split at h
    · next u hu =>
      cases h
      obtain ⟨hmem, hkey⟩ := CanonicalTable.findEntry?_key hu
      exact Or.inr (Or.inr ⟨hmem, hkey, rfl⟩)
    · cases h
      exact Or.inl ⟨rfl, rfl⟩

namespace Sharing

/-- The state of a build's sharing fits an inventory, whose values were made by the runs `stamps`,
the build among them. -/
structure Coherent (stamps : List Nat) (items : Inventory) (s : Sharing) : Prop where
  unambiguous : items.Unambiguous
  closed : ∀ n, Item.node n ∈ items → items.HasParts n
  current : s.stamp ∈ stamps
  origin : ∀ a ∈ items, a.inst.stamp ∈ stamps
  issued : ∀ a ∈ items, a.inst.stamp = s.stamp → ∃ k < s.next, a.inst.place = [k]
  seed : s.seed.Within items
  met : s.met.Within items

/-- The next instance of a build. -/
def fresh (s : Sharing) : Instance := ⟨s.stamp, [s.next]⟩

/-- The state once the next instance is issued. -/
def minted (s : Sharing) : Sharing := { s with next := s.next + 1 }

variable {stamps : List Nat} {items : Inventory} {s : Sharing}

theorem Coherent.minted (h : Coherent stamps items s) : Coherent stamps items s.minted := by
  refine ⟨h.unambiguous, h.closed, h.current, h.origin, ?_, h.seed, h.met⟩
  intro a ha hstamp
  obtain ⟨k, hk, hplace⟩ := h.issued a ha hstamp
  exact ⟨k, Nat.lt_succ_of_lt hk, hplace⟩

/-- A value under the next instance joins the inventory. -/
theorem Coherent.add (h : Coherent stamps items s) {a : Item} (hinst : a.inst = s.fresh)
    (hparts : ∀ n, a = .node n → items.HasParts n) : Coherent stamps (a :: items) s.minted := by
  have hnew : ∀ b ∈ items, b.inst ≠ a.inst := by
    intro b hb he
    rw [hinst] at he
    obtain ⟨k, hk, hplace⟩ := h.issued b hb (congrArg Instance.stamp he)
    rw [he] at hplace
    simp only [fresh, List.cons.injEq, and_true] at hplace
    omega
  have hsub : items ⊆ a :: items := fun b hb => List.mem_cons_of_mem a hb
  refine ⟨?_, ?_, h.current, ?_, ?_, h.seed.mono hsub, h.met.mono hsub⟩
  · intro b hb c hc he
    rcases List.mem_cons.mp hb with hba | hb
    · rcases List.mem_cons.mp hc with hca | hc
      · rw [hba, hca]
      · exact absurd (hba ▸ he).symm (hnew c hc)
    · rcases List.mem_cons.mp hc with hca | hc
      · exact absurd (hca ▸ he) (hnew b hb)
      · exact h.unambiguous b hb c hc he
  · intro n hn
    rcases List.mem_cons.mp hn with he | hn
    · exact (hparts n he.symm).mono hsub
    · exact (h.closed n hn).mono hsub
  · intro b hb
    rcases List.mem_cons.mp hb with rfl | hb
    · rw [hinst]
      exact h.current
    · exact h.origin b hb
  · intro b hb hstamp
    rcases List.mem_cons.mp hb with rfl | hb
    · exact ⟨s.next, Nat.lt_succ_self _, by rw [hinst]; rfl⟩
    · exact h.minted.issued b hb hstamp

/-- A state that differs in what it has met, all of it in the inventory. -/
theorem Coherent.meet (h : Coherent stamps items s) {c : NodeCache} (hc : c.Within items) :
    Coherent stamps items { s with met := c } :=
  ⟨h.unambiguous, h.closed, h.current, h.origin, h.issued, h.seed, hc⟩

/-! The values that are answered. -/

/-- A value is looked up under the next instance. -/
theorem shareValue_eq {α : Type} [Keyed α] {pick : NodeCache → CanonicalTable (Shared α)}
    {put : NodeCache → CanonicalTable (Shared α) → NodeCache} {v : α} {w : Shared α} {s' : Sharing}
    (h : shareValue pick put v s = (w, s')) :
    ∃ table, shareIn (pick s.seed) (pick s.met) ⟨s.fresh, v⟩ = (w, table) ∧
      s' = { s.minted with met := put s.met table } := by
  change share pick put ⟨s.fresh, v⟩ s.minted = (w, s') at h
  unfold share at h
  generalize hin : shareIn (pick s.minted.seed) (pick s.minted.met) ⟨s.fresh, v⟩ = r at h
  obtain ⟨u, table⟩ := r
  cases h
  exact ⟨table, hin, rfl⟩

/-- What is answered for a value is that value. -/
theorem value_shareValue {α : Type} [Keyed α] [LawfulKeyed α]
    {pick : NodeCache → CanonicalTable (Shared α)}
    {put : NodeCache → CanonicalTable (Shared α) → NodeCache} {v : α} {w : Shared α} {s' : Sharing}
    (h : shareValue pick put v s = (w, s')) : w.value = v := by
  obtain ⟨table, hin, -⟩ := shareValue_eq h
  rcases shareIn_cases hin with ⟨rfl, -⟩ | ⟨-, hkey, -⟩ | ⟨-, hkey, -⟩
  · rfl
  · exact LawfulKeyed.eq_of_key hkey
  · exact LawfulKeyed.eq_of_key hkey

/-- There is a transform to share, or there is none and nothing happens. -/
theorem transform_cases {v : Option Affine} {w : Option (Shared Affine)} {s' : Sharing}
    (h : transform v s = (w, s')) :
    (v = none ∧ w = none ∧ s' = s) ∨ ∃ m t, v = some m ∧ w = some t ∧
      shareValue NodeCache.transforms (fun c t => { c with transforms := t }) m s = (t, s') := by
  cases v with
  | none =>
    cases h
    exact .inl ⟨rfl, rfl, rfl⟩
  | some m =>
    cases h
    exact .inr ⟨m, _, rfl, rfl, rfl⟩

theorem value_transform {v : Option Affine} {w : Option (Shared Affine)} {s' : Sharing}
    (h : transform v s = (w, s')) : sharedValue w = v := by
  rcases transform_cases h with ⟨rfl, rfl, -⟩ | ⟨m, t, rfl, rfl, hshare⟩
  · rfl
  · exact congrArg some (value_shareValue hshare)

/-- Of the outlines, paths and point lists are shared. -/
theorem geometry_cases {v : Geometry} {w : NodeGeometry} {s' : Sharing}
    (h : geometry v s = (w, s')) :
    (s' = s ∧ ((∃ g, v = .rect g ∧ w = .rect g) ∨ ∃ g, v = .ellipse g ∧ w = .ellipse g)) ∨
      (∃ p u, v = .path p ∧ w = .path u ∧ path p s = (u, s')) ∨
      ∃ g u, v = .poly g ∧ w = .poly u ∧ poly g s = (u, s') := by
  cases v with
  | rect g =>
    cases h
    exact .inl ⟨rfl, .inl ⟨g, rfl, rfl⟩⟩
  | ellipse g =>
    cases h
    exact .inl ⟨rfl, .inr ⟨g, rfl, rfl⟩⟩
  | path p =>
    cases h
    exact .inr (.inl ⟨p, _, rfl, rfl, rfl⟩)
  | poly g =>
    cases h
    exact .inr (.inr ⟨g, _, rfl, rfl, rfl⟩)

theorem value_geometry {v : Geometry} {w : NodeGeometry} {s' : Sharing}
    (h : geometry v s = (w, s')) : w.value = v := by
  rcases geometry_cases h with ⟨-, ⟨g, rfl, rfl⟩ | ⟨g, rfl, rfl⟩⟩ | ⟨p, u, rfl, rfl, hshare⟩ |
    ⟨g, u, rfl, rfl, hshare⟩
  · rfl
  · rfl
  · exact congrArg Geometry.path (value_shareValue hshare)
  · exact congrArg Geometry.poly (value_shareValue hshare)

/-- Sharing goes on and meets no value that nodes are made of. -/
structure Aside (s s' : Sharing) : Prop where
  stamp : s'.stamp = s.stamp
  next : s.next ≤ s'.next
  seed : s'.seed = s.seed
  transforms : s'.met.transforms = s.met.transforms
  paths : s'.met.paths = s.met.paths
  polys : s'.met.polys = s.met.polys
  paints : s'.met.paints = s.met.paints
  nodes : s'.met.nodes = s.met.nodes

theorem Aside.refl (s : Sharing) : s.Aside s := ⟨rfl, Nat.le_refl _, rfl, rfl, rfl, rfl, rfl, rfl⟩

theorem Aside.trans {s₁ s₂ s₃ : Sharing} (h : s₁.Aside s₂) (h' : s₂.Aside s₃) : s₁.Aside s₃ :=
  ⟨h'.stamp.trans h.stamp, Nat.le_trans h.next h'.next, h'.seed.trans h.seed,
    h'.transforms.trans h.transforms, h'.paths.trans h.paths, h'.polys.trans h.polys,
    h'.paints.trans h.paints, h'.nodes.trans h.nodes⟩

theorem Coherent.aside (h : Coherent stamps items s) {s' : Sharing} (hs : s.Aside s') :
    Coherent stamps items s' := by
  refine ⟨h.unambiguous, h.closed, hs.stamp ▸ h.current, h.origin, fun a ha hstamp => ?_,
    hs.seed ▸ h.seed, ?_, ?_, ?_, ?_, ?_⟩
  · obtain ⟨k, hk, hplace⟩ := h.issued a ha (hstamp.trans hs.stamp)
    exact ⟨k, Nat.lt_of_lt_of_le hk hs.next, hplace⟩
  · exact hs.transforms ▸ h.met.transforms
  · exact hs.paths ▸ h.met.paths
  · exact hs.polys ▸ h.met.polys
  · exact hs.paints ▸ h.met.paints
  · exact hs.nodes ▸ h.met.nodes

/-- A node is made under the next instance and, where nodes are shared, shared. -/
inductive Adds (shareNodes : Bool) (s : Sharing) (f : Instance → Node) : Node → Sharing → Prop
  | own (hkeep : shareNodes = false) : Adds shareNodes s f (f s.fresh) s.minted
  | shared (hshare : shareNodes = true) {n : Node} {s' : Sharing}
      (hnode : node (f s.fresh) s.minted = (n, s')) : Adds shareNodes s f n s'

/-- What a build keeps true of its sharing together with an inventory: each way of sharing leaves
it true, and what is answered is in the inventory that it is then true of. -/
structure Law (shareNodes : Bool) (P : Inventory → Sharing → Prop) : Prop where
  aside : ∀ {items : Inventory} {s s' : Sharing}, P items s → s.Aside s' → P items s'
  transform : ∀ {items : Inventory} {s s' : Sharing} {v : Affine} {w : Shared Affine}, P items s →
    shareValue NodeCache.transforms (fun c t => { c with transforms := t }) v s = (w, s') →
    ∃ items', items ⊆ items' ∧ P items' s' ∧ .transform w ∈ items'
  path : ∀ {items : Inventory} {s s' : Sharing} {v : Path} {w : Shared Path}, P items s →
    path v s = (w, s') → ∃ items', items ⊆ items' ∧ P items' s' ∧ .path w ∈ items'
  poly : ∀ {items : Inventory} {s s' : Sharing} {v : PolyGeom} {w : Shared PolyGeom}, P items s →
    poly v s = (w, s') → ∃ items', items ⊆ items' ∧ P items' s' ∧ .poly w ∈ items'
  paint : ∀ {items : Inventory} {s s' : Sharing} {v : Paint} {w : Shared Paint}, P items s →
    paint v s = (w, s') → ∃ items', items ⊆ items' ∧ P items' s' ∧ .paint w ∈ items'
  adds : ∀ {items : Inventory} {s s' : Sharing} {f : Instance → Node} {n : Node}, P items s →
    s.Adds shareNodes f n s' → (∀ i, (f i).inst = i) → (∀ i j, (f i).renew j = f j) →
    (∀ i, items.HasParts (f i)) →
    ∃ items' i, items ⊆ items' ∧ P items' s' ∧ n = f i ∧ .node n ∈ items'

namespace Law

variable {shareNodes : Bool} {P : Inventory → Sharing → Prop} {s' : Sharing}

theorem transform? (law : Law shareNodes P) (h : P items s) {v : Option Affine}
    {w : Option (Shared Affine)} (hshare : Sharing.transform v s = (w, s')) :
    ∃ items', items ⊆ items' ∧ P items' s' ∧ items'.HasTransform w := by
  rcases transform_cases hshare with ⟨rfl, rfl, rfl⟩ | ⟨m, t, rfl, rfl, hvalue⟩
  · exact ⟨items, fun b hb => hb, h, fun m hm => nomatch hm⟩
  · obtain ⟨items', hsub, h', hmem⟩ := law.transform h hvalue
    exact ⟨items', hsub, h', fun n hn => Option.some.inj hn ▸ hmem⟩

theorem geometry (law : Law shareNodes P) (h : P items s) {v : Geometry} {w : NodeGeometry}
    (hshare : Sharing.geometry v s = (w, s')) :
    ∃ items', items ⊆ items' ∧ P items' s' ∧ items'.HasGeometry w := by
  rcases geometry_cases hshare with ⟨rfl, ⟨g, rfl, rfl⟩ | ⟨g, rfl, rfl⟩⟩ | ⟨p, u, rfl, rfl, hvalue⟩ |
    ⟨g, u, rfl, rfl, hvalue⟩
  · exact ⟨items, fun b hb => hb, h, trivial⟩
  · exact ⟨items, fun b hb => hb, h, trivial⟩
  · exact law.path h hvalue
  · exact law.poly h hvalue

end Law

/-! Coherence is such a law. -/

/-- A shared value is in the inventory, which grows by it if it is new. -/
private theorem shareValue_spec {α : Type} [Keyed α] {pick : NodeCache → CanonicalTable (Shared α)}
    (put : NodeCache → CanonicalTable (Shared α) → NodeCache) (wrap : Shared α → Item)
    (hinst : ∀ t, (wrap t).inst = t.inst) (hnode : ∀ t n, wrap t ≠ .node n)
    (hpick : ∀ {items : Inventory} {c : NodeCache}, c.Within items →
      ∀ t ∈ (pick c).entries, wrap t ∈ items)
    (hput : ∀ {items : Inventory} {c : NodeCache} {table : CanonicalTable (Shared α)},
      c.Within items → (∀ t ∈ table.entries, wrap t ∈ items) → (put c table).Within items)
    (h : Coherent stamps items s) {v : α} {w : Shared α} {s' : Sharing}
    (hshare : shareValue pick put v s = (w, s')) :
    ∃ items', items ⊆ items' ∧ Coherent stamps items' s' ∧ wrap w ∈ items' := by
  obtain ⟨table, hin, rfl⟩ := shareValue_eq hshare
  have hentries {items' : Inventory} (hmet : s.met.Within items') (hw : wrap w ∈ items') :
      ∀ t ∈ ((pick s.met).push w).entries, wrap t ∈ items' := by
    intro t ht
    rcases Array.mem_push.mp ht with ht | rfl
    · exact hpick hmet t ht
    · exact hw
  rcases shareIn_cases hin with ⟨rfl, rfl⟩ | ⟨hmem, -, rfl⟩ | ⟨hmem, -, rfl⟩
  · have hadd := h.add (a := wrap ⟨s.fresh, v⟩) (hinst _) fun n hn => absurd hn (hnode _ n)
    refine ⟨_, fun b hb => List.mem_cons_of_mem _ hb, hadd.meet (hput hadd.met ?_),
      List.mem_cons_self⟩
    exact hentries hadd.met List.mem_cons_self
  · exact ⟨items, fun b hb => hb, h.minted.meet (hput h.met (hpick h.met)), hpick h.met w hmem⟩
  · have hw := hpick h.seed w hmem
    exact ⟨items, fun b hb => hb, h.minted.meet (hput h.met (hentries h.met hw)), hw⟩

/-- Sharing a node under the next instance gives that node, under some instance. -/
private theorem node_spec (h : Coherent stamps items s) {n w : Node} (hinst : n.inst = s.fresh)
    (hparts : items.HasParts n) {s' : Sharing} (hshare : node n s.minted = (w, s')) :
    ∃ items', Coherent stamps items' s' ∧ items ⊆ items' ∧ .node w ∈ items' ∧ ∃ i, w = n.renew i := by
  change share NodeCache.nodes (fun c t => { c with nodes := t }) n s.minted = (w, s') at hshare
  unfold share at hshare
  generalize hin : shareIn s.minted.seed.nodes s.minted.met.nodes n = r at hshare
  obtain ⟨u, table⟩ := r
  cases hshare
  have hentries {items' : Inventory} (hmet : s.met.Within items') (hw : Item.node w ∈ items') :
      ∀ t ∈ (s.met.nodes.push w).entries, Item.node t ∈ items' := by
    intro t ht
    rcases Array.mem_push.mp ht with ht | rfl
    · exact hmet.nodes t ht
    · exact hw
  have hrenew (hw : Item.node w ∈ items) (hkey : Key.node w = Key.node n) : ∃ i, w = n.renew i := by
    refine ⟨w.inst, ?_⟩
    rw [← Key.renew_eq_of_node h.unambiguous (h.closed w hw) hparts hkey, Node.renew_inst]
  rcases shareIn_cases hin with ⟨rfl, rfl⟩ | ⟨hmem, hkey, rfl⟩ | ⟨hmem, hkey, rfl⟩
  · have hadd := h.add (a := .node w) hinst fun m hm => by cases hm; exact hparts
    have hwithin : NodeCache.Within (.node w :: items)
        { s.met with nodes := s.met.nodes.push w } :=
      { hadd.met with nodes := hentries hadd.met List.mem_cons_self }
    exact ⟨_, hadd.meet hwithin, fun b hb => List.mem_cons_of_mem _ hb, List.mem_cons_self,
      w.inst, (Node.renew_inst w).symm⟩
  · have hw := h.met.nodes w hmem
    exact ⟨items, h.minted.meet { h.met with nodes := h.met.nodes }, fun b hb => hb, hw,
      hrenew hw hkey⟩
  · have hw := h.seed.nodes w hmem
    exact ⟨items, h.minted.meet { h.met with nodes := hentries h.met hw }, fun b hb => hb, hw,
      hrenew hw hkey⟩

theorem coherent_law (stamps : List Nat) (shareNodes : Bool) :
    Law shareNodes fun items s => Coherent stamps items s where
  aside h hs := h.aside hs
  transform h hshare := shareValue_spec (fun c t => { c with transforms := t }) Item.transform
    (fun _ => rfl) (fun _ _ he => nomatch he) (fun hc => hc.transforms)
    (fun hc ht => { hc with transforms := ht }) h hshare
  path h hshare := shareValue_spec (fun c t => { c with paths := t }) Item.path
    (fun _ => rfl) (fun _ _ he => nomatch he) (fun hc => hc.paths)
    (fun hc ht => { hc with paths := ht }) h hshare
  poly h hshare := shareValue_spec (fun c t => { c with polys := t }) Item.poly
    (fun _ => rfl) (fun _ _ he => nomatch he) (fun hc => hc.polys)
    (fun hc ht => { hc with polys := ht }) h hshare
  paint h hshare := shareValue_spec (fun c t => { c with paints := t }) Item.paint
    (fun _ => rfl) (fun _ _ he => nomatch he) (fun hc => hc.paints)
    (fun hc ht => { hc with paints := ht }) h hshare
  adds h hadds hinst hrenew hparts := by
    cases hadds with
    | own =>
      have hs := h.add (a := .node _) (hinst _) fun m hm => by cases hm; exact hparts _
      exact ⟨_, _, fun a ha => List.mem_cons_of_mem _ ha, hs, rfl, List.mem_cons_self⟩
    | shared _ hnode =>
      obtain ⟨items', hs, hsub, hmem, i, rfl⟩ := node_spec h (hinst _) (hparts _) hnode
      exact ⟨items', i, hsub, hs, hrenew _ _, hmem⟩

end Sharing

end VectorImage
