import VectorImage.Proofs.Graph.Recording

/-!
The values of the tables. A build shares them when its tables come, and no other call shares any: so
the pictures, strings and lists of numbers that a build has met are those of its tables, each as its
seed has it.
-/

set_option autoImplicit false
set_option relaxedAutoImplicit false

namespace VectorImage

/-! One table of a seed and of a build. -/

/-- What a build has met of a kind are the values `vs`. -/
structure CanonicalTable.Furnished {α : Type} [Keyed α] [KeyDigest]
    (seed met : CanonicalTable (Shared α)) (vs : List α) : Prop extends Continues seed met where
  mem_iff : ∀ v, v ∈ vs ↔ ∃ w ∈ met.entries, w.value = v

namespace CanonicalTable.Furnished

variable {α : Type} [Keyed α] [KeyDigest] {seed met met' : CanonicalTable (Shared α)} {vs : List α}

/-- Nothing is met when a build starts from what another has met. -/
theorem next (h : Furnished seed met vs) : Furnished met (empty : CanonicalTable (Shared α)) [] :=
  ⟨.start h.metBuilt h.metApart, fun v => by simp [empty]⟩

/-- Sharing a value adds it to those that are met. -/
theorem shareIn [LawfulKeyed α] (h : Furnished seed met vs) {i : Instance} {v : α} {w : Shared α}
    (hshare : VectorImage.shareIn seed met ⟨i, v⟩ = (w, met')) :
    Furnished seed met' (vs ++ [v]) := by
  obtain ⟨hcontinues, hw, hsub⟩ := h.toContinues.shareIn hshare
  have hvalue : w.value = v ∧ (met' = met ∨ met' = met.push w) := by
    rcases shareIn_cases hshare with ⟨rfl, rfl⟩ | ⟨-, hkey, rfl⟩ | ⟨-, hkey, rfl⟩
    · exact ⟨rfl, .inr rfl⟩
    · exact ⟨LawfulKeyed.eq_of_key hkey, .inl rfl⟩
    · exact ⟨LawfulKeyed.eq_of_key hkey, .inr rfl⟩
  obtain ⟨rfl, hmet⟩ := hvalue
  have hnew : ∀ u ∈ met'.entries, u ∈ met.entries ∨ u = w := by
    intro u hu
    rcases hmet with rfl | rfl
    · exact .inl hu
    · exact Array.mem_push.mp hu
  refine ⟨hcontinues, fun x => ?_⟩
  rw [List.mem_append, List.mem_singleton, h.mem_iff]
  constructor
  · rintro (⟨u, hu, rfl⟩ | rfl)
    · exact ⟨u, hsub u hu, rfl⟩
    · exact ⟨w, hw, rfl⟩
  · rintro ⟨u, hu, rfl⟩
    rcases hnew u hu with hu | rfl
    · exact .inl ⟨u, hu, rfl⟩
    · exact .inr rfl

/-- There are values if one is met. -/
theorem entries_eq_empty_iff (h : Furnished seed met vs) : met.entries = #[] ↔ vs = [] := by
  rw [Array.eq_empty_iff_forall_not_mem, List.eq_nil_iff_forall_not_mem]
  constructor
  · intro hmet v hv
    obtain ⟨w, hw, -⟩ := (h.mem_iff v).mp hv
    exact hmet w hw
  · exact fun hvs w hw => hvs w.value ((h.mem_iff _).mpr ⟨w, hw, rfl⟩)

/-- A value of the seed is met if it is among the values. -/
theorem mem_of_seed (h : Furnished seed met vs) {w : Shared α} (hw : w ∈ seed.entries)
    (hv : w.value ∈ vs) : w ∈ met.entries := by
  obtain ⟨u, hu, hvalue⟩ := (h.mem_iff _).mp hv
  exact h.both u hu w hw (congrArg (Keyed.key (α := α)) hvalue) ▸ hu

end CanonicalTable.Furnished

/-! The three tables. -/

/-- Of the pictures, strings and lists of numbers a build has met those of its tables. -/
structure NodeCache.Furnished (seed met : NodeCache) (t : Tables) : Prop where
  images : seed.images.Furnished met.images t.images
  strings : seed.strings.Furnished met.strings t.strings
  floatLists : seed.floatLists.Furnished met.floatLists t.floatLists

theorem NodeCache.Furnished.next {seed met : NodeCache} {t : Tables} (h : seed.Furnished met t) :
    met.Furnished .empty .empty :=
  ⟨h.images.next, h.strings.next, h.floatLists.next⟩

namespace Sharing

/-- What a build has met of its tables. -/
abbrev Furnished (s : Sharing) (t : Tables) : Prop := s.seed.Furnished s.met t

variable {s s' s'' : Sharing} {t : Tables}

private theorem Furnished.raster (h : s.Furnished t) {v : Raster} {w : Shared Raster}
    (hshare : Sharing.raster v s = (w, s')) : s'.Furnished { t with images := t.images ++ [v] } := by
  obtain ⟨table, hin, rfl⟩ := shareValue_eq hshare
  exact { h with images := h.images.shareIn hin }

private theorem Furnished.string (h : s.Furnished t) {v : String} {w : Shared String}
    (hshare : Sharing.string v s = (w, s')) :
    s'.Furnished { t with strings := t.strings ++ [v] } := by
  obtain ⟨table, hin, rfl⟩ := shareValue_eq hshare
  exact { h with strings := h.strings.shareIn hin }

private theorem Furnished.floatList (h : s.Furnished t) {v : List Binary64}
    {w : Shared (List Binary64)} (hshare : Sharing.floatList v s = (w, s')) :
    s'.Furnished { t with floatLists := t.floatLists ++ [v] } := by
  obtain ⟨table, hin, rfl⟩ := shareValue_eq hshare
  exact { h with floatLists := h.floatLists.shareIn hin }

/-- Share values one after another. -/
def each {α β : Type} (m : α → StateM Sharing β) (vs : List α) (s : Sharing) : Sharing :=
  vs.foldl (fun s v => (m v s).2) s

/-- If sharing a value adds it to the tables, sharing values one after another adds them all. -/
private theorem Furnished.each {α β : Type} {m : α → StateM Sharing β}
    (add : Tables → List α → Tables) (hnil : ∀ t, add t [] = t)
    (hcons : ∀ t v vs, add (add t [v]) vs = add t (v :: vs))
    (hstep : ∀ {s s' t v w}, Furnished s t → m v s = (w, s') → s'.Furnished (add t [v]))
    (h : s.Furnished t) (vs : List α) : (s.each m vs).Furnished (add t vs) := by
  induction vs generalizing s t with
  | nil => exact (hnil t).symm ▸ h
  | cons v vs ih => exact hcons t v vs ▸ ih (hstep h rfl)

/-- Share the values of tables. -/
def furnish (t : Tables) (s : Sharing) : Sharing :=
  ((s.each Sharing.raster t.images).each Sharing.string t.strings).each Sharing.floatList
    t.floatLists

theorem Furnished.furnish (h : s.Furnished .empty) (t : Tables) : (s.furnish t).Furnished t := by
  have himages := h.each (m := Sharing.raster) (fun t vs => { t with images := t.images ++ vs })
    (fun t => by rw [List.append_nil]) (fun t v vs => by simp) (fun h hs => h.raster hs) t.images
  have hstrings := himages.each (m := Sharing.string)
    (fun t vs => { t with strings := t.strings ++ vs })
    (fun t => by rw [List.append_nil]) (fun t v vs => by simp) (fun h hs => h.string hs) t.strings
  exact hstrings.each (m := Sharing.floatList)
    (fun t vs => { t with floatLists := t.floatLists ++ vs })
    (fun t => by rw [List.append_nil]) (fun t v vs => by simp) (fun h hs => h.floatList hs)
    t.floatLists

/-- Sharing goes on and meets no value of the tables. -/
structure KeepsTables (s s' : Sharing) : Prop where
  seed : s'.seed = s.seed
  images : s'.met.images = s.met.images
  strings : s'.met.strings = s.met.strings
  floatLists : s'.met.floatLists = s.met.floatLists

theorem KeepsTables.refl (s : Sharing) : s.KeepsTables s := ⟨rfl, rfl, rfl, rfl⟩

theorem KeepsTables.trans (h : s.KeepsTables s') (h' : s'.KeepsTables s'') : s.KeepsTables s'' :=
  ⟨h'.seed.trans h.seed, h'.images.trans h.images, h'.strings.trans h.strings,
    h'.floatLists.trans h.floatLists⟩

theorem KeepsTables.furnished (h : s.KeepsTables s') (hs : s.Furnished t) : s'.Furnished t := by
  refine ⟨?_, ?_, ?_⟩
  · exact h.seed ▸ h.images ▸ hs.images
  · exact h.seed ▸ h.strings ▸ hs.strings
  · exact h.seed ▸ h.floatLists ▸ hs.floatLists

/-! What nodes are made of is not in the tables. -/

theorem keepsTables_transform {v : Option Affine} {w : Option (Shared Affine)}
    (h : transform v s = (w, s')) : s.KeepsTables s' := by
  rcases transform_cases h with ⟨-, -, rfl⟩ | ⟨m, t, -, -, hshare⟩
  · exact .refl _
  · obtain ⟨table, -, rfl⟩ := shareValue_eq hshare
    exact ⟨rfl, rfl, rfl, rfl⟩

theorem keepsTables_path {v : Path} {w : Shared Path} (h : path v s = (w, s')) :
    s.KeepsTables s' := by
  obtain ⟨table, -, rfl⟩ := shareValue_eq h
  exact ⟨rfl, rfl, rfl, rfl⟩

theorem keepsTables_paint {v : Paint} {w : Shared Paint} (h : paint v s = (w, s')) :
    s.KeepsTables s' := by
  obtain ⟨table, -, rfl⟩ := shareValue_eq h
  exact ⟨rfl, rfl, rfl, rfl⟩

theorem keepsTables_geometry {v : Geometry} {w : NodeGeometry} (h : geometry v s = (w, s')) :
    s.KeepsTables s' := by
  rcases geometry_cases h with ⟨rfl, -⟩ | ⟨p, u, -, -, hshare⟩ | ⟨g, u, -, -, hshare⟩
  · exact .refl _
  · exact keepsTables_path hshare
  · obtain ⟨table, -, rfl⟩ := shareValue_eq hshare
    exact ⟨rfl, rfl, rfl, rfl⟩

theorem Adds.keepsTables {shareNodes : Bool} {f : Instance → Node} {n : Node}
    (h : s.Adds shareNodes f n s') : s.KeepsTables s' := by
  cases h with
  | own => exact ⟨rfl, rfl, rfl, rfl⟩
  | shared _ hnode =>
    unfold node share at hnode
    cases hnode
    exact ⟨rfl, rfl, rfl, rfl⟩

end Sharing

/-! What the calls do. -/

namespace GraphBuilder

variable {b b' : GraphBuilder} {call : Call} {reply : Reply}

private theorem forM_withSharing {α β : Type} (m : α → StateM Sharing β) (vs : List α)
    (b : GraphBuilder) : (vs.forM fun v => do let _ ← withSharing (m v)) b =
      .ok ((), { b with sharing := b.sharing.each m vs }) := by
  induction vs generalizing b with
  | nil => rfl
  | cons v vs ih => exact ih { b with sharing := (m v b.sharing).2 }

/-- The tables come, and all their values are shared. -/
theorem perform_init (b : GraphBuilder) (t : Tables) :
    b.perform (.init t) = .ok ({ b with sharing := b.sharing.furnish t, tables := t }, .done) := by
  have hinit : init t b = .ok ((), { b with sharing := b.sharing.furnish t, tables := t }) := by
    refine state_bind_eq_ok.mpr ⟨_, _, forM_withSharing Sharing.raster t.images b, ?_⟩
    refine state_bind_eq_ok.mpr ⟨_, _, forM_withSharing Sharing.string t.strings _, ?_⟩
    exact state_bind_eq_ok.mpr ⟨_, _, forM_withSharing Sharing.floatList t.floatLists _, rfl⟩
  exact map_eq_ok.mpr ⟨_, state_bind_eq_ok.mpr ⟨_, _, hinit, rfl⟩, rfl⟩

/-- A builder goes on with the tables it has. -/
structure KeepsTables (b b' : GraphBuilder) : Prop where
  sharing : b.sharing.KeepsTables b'.sharing
  tables : b'.tables = b.tables

private theorem KeepsTables.attach {frames : List GraphFrame} {s : Sharing}
    (h : b.sharing.KeepsTables s) (node : Node) :
    b.KeepsTables (({ b with sharing := s, frames := frames } : GraphBuilder).attach node) := by
  unfold GraphBuilder.attach
  split
  · exact ⟨h, rfl⟩
  · exact ⟨h, rfl⟩

private theorem KeepsTables.remember (h : b.KeepsTables b') (exportId : Option StringId)
    (node : Node) : b.KeepsTables (b'.remember exportId node) := by
  cases exportId with
  | none => exact h
  | some id => exact ⟨h.sharing, h.tables⟩

/-- Every call but the one that brings the tables. -/
theorem Makes.keepsTables (hmakes : b.Makes call b' reply) (hcall : ∀ t, call ≠ .init t) :
    b.KeepsTables b' := by
  cases hmakes with
  | init t => exact absurd rfl (hcall t)
  | document | gradient | beginGroup | beginMask | maskContent => exact ⟨.refl _, rfl⟩
  | endGroup hframes htransform hadds =>
    exact (KeepsTables.attach ((Sharing.keepsTables_transform htransform).trans
      hadds.keepsTables) _).remember _ _
  | clip hpath htransform hadds =>
    exact .attach (((Sharing.keepsTables_path hpath).trans
      (Sharing.keepsTables_transform htransform)).trans hadds.keepsTables) _
  | shape hgeometry hpaint htransform hadds =>
    exact .attach ((((Sharing.keepsTables_geometry hgeometry).trans
      (Sharing.keepsTables_paint hpaint)).trans
        (Sharing.keepsTables_transform htransform)).trans hadds.keepsTables) _
  | use htarget htransform hadds =>
    exact .attach ((Sharing.keepsTables_transform htransform).trans hadds.keepsTables) _
  | endMask hframes hadds => exact .attach hadds.keepsTables _
  | image leaf hadds | text leaf hadds => exact .attach hadds.keepsTables _

/-- A builder has met the values of its tables; before they come there are none. -/
structure Furnished (n : Nesting) (b : GraphBuilder) : Prop where
  sharing : b.sharing.Furnished b.tables
  fresh : n.phase = .fresh → b.tables = .empty

end GraphBuilder

/-- Only tables end the time before them. -/
theorem Nesting.Accepted.fresh {n m : Nesting} {gradients : Nat} {call : Call}
    (h : Accepted gradients n call m) (hphase : m.phase = .fresh) :
    n.phase = .fresh ∧ ∀ t, call ≠ .init t := by
  cases h with
  | endGroup | maskContent | endMask => exact ⟨hphase, nofun⟩
  | _ => cases hphase

namespace GraphBuilder

variable {n m : Nesting} {b b' : GraphBuilder} {call : Call} {reply : Reply}

theorem Furnished.perform (h : Furnished n b) {gradients : Nat}
    (haccept : Nesting.Accepted gradients n call m) (hperform : b.perform call = .ok (b', reply)) :
    Furnished m b' := by
  by_cases hcall : ∃ t, call = .init t
  · obtain ⟨t, rfl⟩ := hcall
    cases (perform_init b t).symm.trans hperform
    have hempty := h.fresh haccept.phase_of_init
    exact ⟨(hempty ▸ h.sharing).furnish t, fun hphase => absurd rfl ((haccept.fresh hphase).2 t)⟩
  · have hkeeps := (makes_of_perform hperform).keepsTables (not_exists.mp hcall)
    refine ⟨hkeeps.tables ▸ hkeeps.sharing.furnished h.sharing, fun hphase => ?_⟩
    exact hkeeps.tables.trans (h.fresh (haccept.fresh hphase).1)

theorem Furnished.reject (h : Furnished n b) (call : Call) : Furnished (n.reject call) b := by
  refine ⟨h.sharing, fun hphase => h.fresh ?_⟩
  unfold Nesting.reject at hphase
  split at hphase
  · cases hphase
  · exact hphase

/-- A session keeps this, whatever it answers. -/
theorem Furnished.issueAll {s : Session GraphBuilder} (h : Furnished s.nesting s.state)
    (calls : List Call) :
    Furnished (backend.issueAll s calls).1.nesting (backend.issueAll s calls).1.state := by
  refine Backend.issueAll_keeps (P := fun s => Furnished s.nesting s.state) ?_ h calls
  intro s call h
  unfold Backend.issue
  split
  · exact h.reject call
  · next nesting haccept =>
    replace haccept := Nesting.accepted_of_accept haccept
    split
    · exact ⟨h.sharing, fun hphase => h.fresh (haccept.fresh hphase).1⟩
    · next hperform => exact h.perform haccept hperform

theorem furnished_start {seed : NodeCache} (hseed : seed.Furnished .empty .empty) (stamp : Nat)
    (shareNodes : Bool) : Furnished .start (start stamp shareNodes seed) :=
  ⟨hseed, fun _ => rfl⟩

end GraphBuilder

/-- Builds start from what other builds have met. -/
theorem NodeCache.Grown.furnished {stamps : List Nat} {c : NodeCache} (h : c.Grown stamps) :
    c.Furnished .empty .empty := by
  induction h with
  | empty =>
    have hempty {α : Type} [Keyed α] : CanonicalTable.Furnished
        (.empty : CanonicalTable (Shared α)) .empty [] :=
      ⟨.start CanonicalTable.built_empty (CanonicalTable.agrees_empty _), fun v => by
        simp [CanonicalTable.empty]⟩
    exact ⟨hempty, hempty, hempty⟩
  | @build stamps seed hseed stamp hstamp shareNodes calls ih =>
    exact (GraphBuilder.Furnished.issueAll (s := .start (.start stamp shareNodes seed))
      (GraphBuilder.furnished_start ih stamp shareNodes) calls).sharing.next

theorem GraphImage.tables_of_finish {s : Session GraphBuilder} {g : GraphImage}
    (h : GraphBuilder.backend.finish s = .ok g) : g.tables = s.state.tables := by
  obtain ⟨_, -, hcomplete⟩ := bind_eq_ok.mp h
  obtain ⟨-, rfl⟩ := GraphBuilder.complete_eq_ok.mp hcomplete
  rfl

/-- What a finished build leaves of pictures, strings and lists of numbers is in its tables, and is
the seed's where the seed has it. -/
theorem GraphImage.furnished_of_session {stamps : List Nat} {seed : NodeCache} {stamp : Nat}
    {shareNodes : Bool} {calls : List Call} {g : GraphImage} (hseed : seed.Grown stamps)
    (hstamp : stamp ∉ stamps)
    (h : GraphBuilder.backend.finish (GraphBuilder.backend.issueAll
      (.start (.start stamp shareNodes seed)) calls).1 = .ok g) :
    seed.Furnished g.cache g.tables := by
  obtain ⟨known, hsettled⟩ := hseed.settled
  obtain ⟨items, hholds⟩ := GraphBuilder.settled_issueAll hsettled hstamp shareNodes calls
  have hfurnished := (GraphBuilder.Furnished.issueAll (s := .start (.start stamp shareNodes seed))
    (GraphBuilder.furnished_start hseed.furnished stamp shareNodes) calls).sharing
  rw [Sharing.Furnished, hholds.sharing.seed, ← cache_of_finish h, ← tables_of_finish h]
    at hfurnished
  exact hfurnished

end VectorImage
