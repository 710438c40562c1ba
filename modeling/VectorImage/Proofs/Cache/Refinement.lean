import VectorImage.Cache.Source
import VectorImage.Proofs.Cache.Model
import VectorImage.Proofs.Cache.Ring

/-!
The cache does what its model does. The slots of the entries without references are the live ones
of the recency list's ring, in which each finds its own source; so taking a reference unlinks that
source, and evicting the first one drops the entry that waits in it.
-/

set_option autoImplicit false
set_option relaxedAutoImplicit false

namespace VectorImage

/-- What a model knows of an entry: all but its slot. -/
def CacheEntry.holding (e : CacheEntry) : Holding := ⟨e.handle, e.references⟩

namespace ImageCache

variable {κ : Type} [BEq κ]

/-- Carry out an operation; one that is misused leaves the cache as it is. -/
def step [Described κ] (c : ImageCache κ) : CacheOp κ → ImageCache κ × CacheResult
  | .add source =>
    let (c, handle) := c.addReference source
    (c, .ok (some handle))
  | .remove source =>
    match c.removeReference source with
    | .ok c => (c, .ok none)
    | .error e => (c, .error e)
  | .reload source =>
    match c.reload source with
    | .ok (c, handle) => (c, .ok (some handle))
    | .error e => (c, .error e)
  | .setCapacity capacity => (c.setCapacity capacity, .ok none)

variable {c : ImageCache κ} {m : CacheModel κ} {live : List (Nat × κ)} {source key : κ} {i : Nat}

/-- The cache stands for the model, with the live slots of its recency list and their keys. -/
structure Represents (c : ImageCache κ) (m : CacheModel κ) (live : List (Nat × κ)) : Prop where
  ring : c.idle.Ring live
  capacity : c.capacity = m.capacity
  loads : c.started.size = m.loads
  holdings : (c.entries.map fun p => (p.1, p.2.holding)) = m.holdings
  recency : live.map Prod.snd = m.recency
  waits : ∀ p ∈ c.entries, ∀ i, p.2.slot = some i → ∃ key, (i, key) ∈ live ∧ (key == p.1) = true
  busy : ∀ p ∈ c.entries, p.2.slot = none ↔ p.2.references ≠ 0

theorem represents_empty (capacity : Nat) :
    (empty capacity : ImageCache κ).Represents (.empty capacity) [] := by
  refine ⟨Recency.ring_empty, rfl, rfl, rfl, rfl, ?_, ?_⟩
  · intro p hp
    cases hp
  · intro p hp
    cases hp

/-! Looking an entry up. -/

theorem lookup_map {α β : Type} (l : List (κ × α)) (f : α → β) (k : κ) :
    (l.map fun p => (p.1, f p.2)).lookup k = (l.lookup k).map f := by
  induction l with
  | nil => rfl
  | cons p l ih =>
    rw [List.map_cons, List.lookup_cons, List.lookup_cons, ih]
    split <;> rfl

theorem exists_mem_of_lookup {α : Type} {l : List (κ × α)} {a : α} (h : l.lookup key = some a) :
    ∃ k, (k, a) ∈ l ∧ (key == k) = true := by
  induction l with
  | nil => cases h
  | cons p l ih =>
    rw [List.lookup_cons] at h
    split at h
    · obtain rfl := Option.some.inj h
      exact ⟨p.1, List.mem_cons_self, ‹_›⟩
    · obtain ⟨k, hk, hsame⟩ := ih h
      exact ⟨k, List.mem_cons_of_mem p hk, hsame⟩

theorem Represents.holding?_eq (h : c.Represents m live) (k : κ) :
    m.holding? k = (c.entry? k).map CacheEntry.holding := by
  unfold CacheModel.holding? entry?
  rw [← h.holdings]
  exact lookup_map ..

theorem Represents.holding?_some (h : c.Represents m live) {e : CacheEntry}
    (hentry : c.entry? source = some e) : m.holding? source = some e.holding := by
  rw [h.holding?_eq, hentry, Option.map_some]

theorem Represents.idleCount_eq (h : c.Represents m live) : c.idleCount = m.recency.length := by
  rw [← h.recency, List.length_map]
  exact h.ring.length

theorem entries_update (c : ImageCache κ) (source : κ) (f : CacheEntry → CacheEntry)
    (g : Holding → Holding) (hfg : ∀ e, (f e).holding = g e.holding)
    (h : (c.entries.map fun p => (p.1, p.2.holding)) = m.holdings) :
    ((c.update source f).entries.map fun p => (p.1, p.2.holding)) =
      (m.change source g).holdings := by
  unfold update CacheModel.change
  rw [← h, List.map_map, List.map_map]
  refine List.map_congr_left fun p _ => ?_
  by_cases hp : (p.1 == source) = true
  · simp [hp, hfg]
  · simp [hp]

/-! A source that is new. -/

theorem Represents.start (h : c.Represents m live) (source : κ) :
    (c.start source).1.Represents { m with loads := m.loads + 1 } live :=
  ⟨h.ring, h.capacity, (Array.size_push _).trans (congrArg (· + 1) h.loads), h.holdings, h.recency,
    h.waits, h.busy⟩

theorem Represents.create (h : c.Represents m live) (source : κ) :
    ({ (c.start source).1 with entries := (source, ⟨c.started.size, 1, none⟩) :: c.entries } :
      ImageCache κ).Represents
      { m with holdings := (source, ⟨m.loads, 1⟩) :: m.holdings, loads := m.loads + 1 } live := by
  refine ⟨h.ring, h.capacity, (h.start source).loads, ?_, h.recency, fun p hp i hi => ?_,
    fun p hp => ?_⟩
  · rw [List.map_cons, h.holdings, ← h.loads]
    rfl
  · rcases List.mem_cons.mp hp with rfl | hp
    · cases hi
    · exact h.waits p hp i hi
  · rcases List.mem_cons.mp hp with rfl | hp
    · exact iff_of_true rfl Nat.one_ne_zero
    · exact h.busy p hp

section Sources

variable [EquivBEq κ]

/-- The entry of a source is the one that is found. -/
theorem lookup_of_mem {α : Type} {l : List (κ × α)} {p : κ × α}
    (hapart : CacheModel.Apart (l.map Prod.fst)) (hp : p ∈ l) (hsame : (p.1 == source) = true) :
    l.lookup source = some p.2 := by
  induction l with
  | nil => cases hp
  | cons q l ih =>
    obtain ⟨hq, hl⟩ := List.pairwise_cons.mp hapart
    rw [List.lookup_cons]
    rcases List.mem_cons.mp hp with rfl | hp
    · rw [BEq.symm hsame]
    · have hne : (source == q.1) = false := by
        rw [← BEq.congr_left hsame, BEq.comm]
        exact hq p.1 (List.mem_map_of_mem hp)
      rw [hne]
      exact ih hl hp

/-! Evicting the first of the idle sources. -/

theorem Represents.evictFirst (h : c.Represents m ((i, key) :: live)) :
    (({ c with idle := c.idle.popFront.1 } : ImageCache κ).erase key).Represents (m.drop 1)
      live := by
  obtain ⟨hkey, hring⟩ := h.ring.popFront
  have hrecency : m.recency = key :: live.map Prod.snd := h.recency.symm
  refine ⟨hring, h.capacity, h.loads, ?_, ?_, ?_, ?_⟩
  · unfold erase CacheModel.drop
    rw [hrecency, ← h.holdings, List.filter_map]
    refine congrArg (List.map _) (List.filter_congr fun p _ => ?_)
    simp
  · show live.map Prod.snd = m.recency.drop 1
    rw [hrecency, List.drop_one, List.tail_cons]
  · intro p hp j hj
    obtain ⟨hp, hother⟩ := List.mem_filter.mp hp
    obtain ⟨k, hk, hsame⟩ := h.waits p hp j hj
    refine ⟨k, ?_, hsame⟩
    rcases List.mem_cons.mp hk with hk | hk
    · obtain ⟨-, rfl⟩ := Prod.mk.inj hk
      rw [BEq.symm hsame] at hother
      exact absurd hother Bool.false_ne_true
    · exact hk
  · exact fun p hp => h.busy p (List.mem_of_mem_filter hp)

theorem Represents.drop (h : c.Represents m live) {excess : Nat} (hexcess : excess ≤ live.length) :
    (c.drop excess).Represents (m.drop excess) (live.drop excess) := by
  induction excess generalizing c m live with
  | zero =>
    rw [CacheModel.drop_zero]
    exact h
  | succ excess ih =>
    cases live with
    | nil => cases hexcess
    | cons e live =>
      have hpop : c.idle.popFront = (c.idle.popFront.1, some e.2) :=
        Prod.ext rfl h.ring.popFront.1
      have hrest := ih h.evictFirst (Nat.le_of_succ_le_succ hexcess)
      rw [CacheModel.drop_drop, Nat.add_comm] at hrest
      rw [ImageCache.drop, hpop]
      exact hrest

theorem Represents.evict (h : c.Represents m live) : ∃ live', c.evict.Represents m.trim live' := by
  have hexcess : c.idle.length - c.capacity = m.recency.length - m.capacity :=
    congrArg₂ _ h.idleCount_eq h.capacity
  refine ⟨live.drop (c.idle.length - c.capacity), ?_⟩
  unfold ImageCache.evict CacheModel.trim
  rw [← hexcess]
  exact h.drop (Nat.le_trans (Nat.sub_le ..) (Nat.le_of_eq h.ring.length))

/-! Sources whose references change. -/

/-- The entry of a source changes together with the recency list, on which the other sources
stay. -/
theorem Represents.update (h : c.Represents m live) (source : κ) {f : CacheEntry → CacheEntry}
    {g : Holding → Holding} {idle : Recency κ} {live' : List (Nat × κ)}
    (hfg : ∀ e, (f e).holding = g e.holding) (hring : idle.Ring live')
    (hothers : ∀ e ∈ live, (e.2 == source) = false → e ∈ live')
    (hwaits : ∀ p ∈ c.entries, (p.1 == source) = true → ∀ i, (f p.2).slot = some i →
      ∃ key, (i, key) ∈ live' ∧ (key == p.1) = true)
    (hbusy : ∀ p ∈ c.entries, (p.1 == source) = true →
      ((f p.2).slot = none ↔ (f p.2).references ≠ 0)) :
    (({ c with idle := idle } : ImageCache κ).update source f).Represents
      { m.change source g with recency := live'.map Prod.snd } live' := by
  refine ⟨hring, h.capacity, h.loads, entries_update c source f g hfg h.holdings, rfl, ?_, ?_⟩
  · intro p hp i hi
    obtain ⟨q, hq, rfl⟩ := List.mem_map.mp hp
    by_cases hsame : (q.1 == source) = true
    · simp only [hsame, if_true] at hi ⊢
      exact hwaits q hq hsame i hi
    · simp only [hsame, if_false, Bool.false_eq_true] at hi ⊢
      obtain ⟨key, hkey, hkey'⟩ := h.waits q hq i hi
      refine ⟨key, hothers _ hkey ?_, hkey'⟩
      exact (BEq.congr_left hkey').trans (Bool.eq_false_iff.mpr hsame)
  · intro p hp
    obtain ⟨q, hq, rfl⟩ := List.mem_map.mp hp
    by_cases hsame : (q.1 == source) = true
    · simp only [hsame, if_true]
      exact hbusy q hq hsame
    · simp only [hsame, if_false, Bool.false_eq_true]
      exact h.busy q hq

/-- The recency list without a source: its slot is unlinked, if it waits in one. -/
theorem Represents.unlink (h : c.Represents m live) (hm : m.Coherent) {e : CacheEntry}
    (hentry : c.entry? source = some e) :
    ∃ live', (match e.slot with
        | some slot => (c.idle.remove slot).1
        | none => c.idle).Ring live' ∧
      live'.map Prod.snd = m.recency.filter (fun k => !(k == source)) ∧
      ∀ p ∈ live, (p.2 == source) = false → p ∈ live' := by
  obtain ⟨k, hk, hsame⟩ := exists_mem_of_lookup hentry
  cases hslot : e.slot with
  | none =>
    have hunlisted := hm.unlisted_held (h.holding?_some hentry) ((h.busy _ hk).mp hslot)
    refine ⟨live, h.ring, ?_, fun p hp _ => hp⟩
    rw [h.recency]
    exact (List.filter_eq_self.mpr fun a ha => (Bool.not_eq_true' _).mpr (hunlisted a ha)).symm
  | some i =>
    obtain ⟨key, hkey, hkey'⟩ := h.waits _ hk i hslot
    have hsource : (key == source) = true := BEq.trans hkey' (BEq.symm hsame)
    obtain ⟨first, rest, rfl⟩ := List.append_of_mem hkey
    refine ⟨first ++ rest, h.ring.remove.2, ?_, fun p hp hother => ?_⟩
    · have honce := hm.once
      rw [← h.recency, List.map_append, List.map_cons] at honce
      rw [← h.recency, List.map_append, List.map_append, List.map_cons]
      exact (CacheModel.filter_of_apart honce hsource).symm
    · rcases List.mem_append.mp hp with hp | hp
      · exact List.mem_append_left _ hp
      · rcases List.mem_cons.mp hp with rfl | hp
        · exact absurd (hother.symm.trans hsource) Bool.false_ne_true
        · exact List.mem_append_right _ hp

theorem Represents.take (h : c.Represents m live) (hm : m.Coherent) {e : CacheEntry}
    (hentry : c.entry? source = some e) :
    ∃ live', (({ c with idle := match e.slot with
        | some slot => (c.idle.remove slot).1
        | none => c.idle } : ImageCache κ).update source fun e =>
          { e with references := e.references + 1, slot := none }).Represents
      { m.change source fun h => { h with references := h.references + 1 } with
        recency := m.recency.filter fun k => !(k == source) } live' := by
  obtain ⟨live', hring, hrecency, hothers⟩ := h.unlink hm hentry
  refine ⟨live', hrecency ▸ h.update source (fun _ => rfl) hring hothers ?_ ?_⟩
  · intro p _ _ i hi
    cases hi
  · exact fun p _ _ => iff_of_true rfl (Nat.succ_ne_zero _)

/-- The entry of a source that is known. -/
theorem Represents.entry_eq (h : c.Represents m live) (hm : m.Coherent) {e : CacheEntry}
    (hentry : c.entry? source = some e) {p : κ × CacheEntry} (hp : p ∈ c.entries)
    (hsame : (p.1 == source) = true) : p.2 = e := by
  have hapart : CacheModel.Apart (c.entries.map Prod.fst) := by
    have hkeys : c.entries.map Prod.fst = m.holdings.map Prod.fst := by
      rw [← h.holdings, List.map_map]
      rfl
    exact hkeys ▸ hm.distinct
  exact Option.some.inj ((lookup_of_mem hapart hp hsame).symm.trans hentry)

/-- Giving back a reference that is not the last one. -/
theorem Represents.release (h : c.Represents m live) (hm : m.Coherent) {e : CacheEntry}
    (hentry : c.entry? source = some e) (hmore : 1 < e.references) :
    (c.update source fun e => { e with references := e.references - 1 }).Represents
      (m.change source fun h => { h with references := h.references - 1 }) live := by
  have hupdate := h.update source
    (f := fun e => { e with references := e.references - 1 })
    (g := fun h => { h with references := h.references - 1 }) (fun _ => rfl) h.ring
    (fun p hp _ => hp) (fun p hp _ i hi => h.waits p hp i hi) fun p hp hsame => by
      obtain rfl := h.entry_eq hm hentry hp hsame
      exact (h.busy p hp).trans (by dsimp only; omega)
  rw [h.recency] at hupdate
  exact hupdate

/-- Giving the last reference back links the source as the most recent one. -/
theorem Represents.retire (h : c.Represents m live) (source : κ) :
    (({ c with idle := (c.idle.pushBack source).1 } : ImageCache κ).update source fun e =>
        { e with references := 0, slot := some (c.idle.pushBack source).2 }).Represents
      { m.change source fun h => { h with references := 0 } with
        recency := m.recency ++ [source] } (live ++ [((c.idle.pushBack source).2, source)]) := by
  have hupdate := h.update source
    (f := fun e => { e with references := 0, slot := some (c.idle.pushBack source).2 })
    (g := fun h => { h with references := 0 }) (fun _ => rfl) (h.ring.pushBack source)
    (fun p hp _ => List.mem_append_left _ hp)
    (fun p _ hsame i hi => ⟨source, Option.some.inj hi ▸ List.mem_append_right _ List.mem_cons_self,
      BEq.symm hsame⟩)
    fun p _ _ => by simp
  rw [List.map_append, h.recency] at hupdate
  exact hupdate

/-- Loading a source anew. -/
theorem Represents.reload (h : c.Represents m live) (source : κ) :
    ((c.start source).1.update source fun e => { e with handle := c.started.size }).Represents
      { m.change source fun h => { h with handle := m.loads } with loads := m.loads + 1 } live := by
  have hupdate := (h.start source).update source
    (f := fun e => { e with handle := c.started.size })
    (g := fun h => { h with handle := m.loads })
    (fun e => congrArg (Holding.mk · e.references) h.loads) h.ring
    (fun p hp _ => hp) (fun p hp _ i hi => h.waits p hp i hi) fun p hp _ => h.busy p hp
  rw [h.recency] at hupdate
  exact hupdate

/-! Each operation does on the cache what it does on the model. -/

variable [Described κ]

theorem Represents.step (h : c.Represents m live) (hm : m.Coherent) (op : CacheOp κ) :
    (c.step op).2 = (m.step op).2 ∧ ∃ live', (c.step op).1.Represents (m.step op).1 live' := by
  cases op with
  | add source =>
    have hheld := h.holding?_eq source
    cases hentry : c.entry? source with
    | none =>
      rw [hentry, Option.map_none] at hheld
      simp only [ImageCache.step, addReference, CacheModel.step, hentry, hheld]
      exact ⟨congrArg (fun n => Except.ok (some n)) h.loads, live, h.create source⟩
    | some e =>
      rw [hentry, Option.map_some] at hheld
      simp only [ImageCache.step, addReference, CacheModel.step, hentry, hheld]
      exact ⟨rfl, h.take hm hentry⟩
  | remove source =>
    have hheld := h.holding?_eq source
    cases hentry : c.entry? source with
    | none =>
      rw [hentry, Option.map_none] at hheld
      simp only [ImageCache.step, removeReference, CacheModel.step, hentry, hheld]
      exact ⟨trivial, live, h⟩
    | some e =>
      rw [hentry, Option.map_some] at hheld
      simp only [ImageCache.step, removeReference, CacheModel.step, hentry, hheld]
      have hsame : e.holding.references = e.references := rfl
      rw [hsame]
      by_cases hnone : e.references = 0
      · rw [if_pos hnone, if_pos hnone]
        exact ⟨rfl, live, h⟩
      · rw [if_neg hnone, if_neg hnone]
        by_cases hlast : e.references = 1
        · rw [if_pos hlast, if_pos hlast]
          exact ⟨rfl, (h.retire source).evict⟩
        · rw [if_neg hlast, if_neg hlast]
          exact ⟨rfl, live, h.release hm hentry (by omega)⟩
  | reload source =>
    have hheld := h.holding?_eq source
    cases hentry : c.entry? source with
    | none =>
      rw [hentry, Option.map_none] at hheld
      simp only [ImageCache.step, ImageCache.reload, CacheModel.step, hentry, hheld]
      exact ⟨trivial, live, h⟩
    | some e =>
      rw [hentry, Option.map_some] at hheld
      simp only [ImageCache.step, ImageCache.reload, CacheModel.step, hentry, hheld]
      exact ⟨congrArg (fun n => Except.ok (some n)) h.loads, live, h.reload source⟩
  | setCapacity capacity =>
    have hresized : ({ c with capacity := capacity } : ImageCache κ).Represents
        { m with capacity := capacity } live :=
      ⟨h.ring, rfl, h.loads, h.holdings, h.recency, h.waits, h.busy⟩
    exact ⟨rfl, hresized.evict⟩

theorem Represents.run (h : c.Represents m live) (hm : m.Coherent) (ops : List (CacheOp κ)) :
    (CacheOp.run ImageCache.step c ops).2 = (CacheOp.run CacheModel.step m ops).2 ∧
      ∃ live', (CacheOp.run ImageCache.step c ops).1.Represents
        (CacheOp.run CacheModel.step m ops).1 live' := by
  induction ops generalizing c m live with
  | nil => exact ⟨rfl, live, h⟩
  | cons op ops ih =>
    obtain ⟨hresult, live', hstep⟩ := h.step hm op
    obtain ⟨hresults, hrun⟩ := ih hstep (hm.step op)
    exact ⟨congrArg₂ List.cons hresult hresults, hrun⟩

end Sources

/-- All that can be observed of a cache is what its model says. -/
structure Shows (c : ImageCache κ) (m : CacheModel κ) : Prop where
  capacity : c.capacity = m.capacity
  contains : ∀ k, c.contains k = (m.references? k).isSome
  referenceCount? : ∀ k, c.referenceCount? k = m.references? k
  peek : ∀ k, c.peek k = (m.holding? k).map Holding.handle
  size : c.size = m.holdings.length
  isEmpty : c.isEmpty = m.holdings.isEmpty
  idleCount : c.idleCount = m.recency.length
  idleSources : c.idleSources = m.recency

theorem Represents.shows (h : c.Represents m live) : c.Shows m where
  capacity := h.capacity
  contains k := by
    rw [CacheModel.references?, h.holding?_eq, Option.isSome_map, Option.isSome_map]
    rfl
  referenceCount? k := by
    rw [CacheModel.references?, h.holding?_eq, Option.map_map]
    rfl
  peek k := by
    rw [h.holding?_eq, Option.map_map]
    rfl
  size := by
    rw [← h.holdings, List.length_map]
    rfl
  isEmpty := by
    rw [← h.holdings, List.isEmpty_map]
    rfl
  idleCount := h.idleCount_eq
  idleSources := h.ring.toList.trans h.recency

/-- After any operations on an empty cache their results, and all that can be observed, are those
of the model: the recency list has the sources without references, once each and in the order of
their last releases, and is no longer than the capacity. A source with references keeps some,
whatever is done next, unless its last one is given back. -/
theorem refines_model [EquivBEq κ] [Described κ] (capacity : Nat) (ops : List (CacheOp κ)) :
    let after := CacheOp.run step (empty capacity) ops
    let model := CacheOp.run CacheModel.step (.empty capacity) ops
    after.2 = model.2 ∧ after.1.Shows model.1 ∧ CacheModel.Settled (ops.zip model.2) model.1 ∧
      ∀ op key n, after.1.referenceCount? key = some (n + 1) →
        (op.givesBack key = true → n ≠ 0) →
        ∃ n', (after.1.step op).1.referenceCount? key = some (n' + 1) := by
  have hempty : (CacheModel.empty capacity : CacheModel κ).Coherent :=
    CacheModel.coherent_empty capacity
  obtain ⟨hresults, live, hrun⟩ := (represents_empty capacity).run hempty ops
  have hsettled := (CacheModel.settled_empty capacity).run ops
  refine ⟨hresults, hrun.shows, hsettled, fun op key n hcount hop => ?_⟩
  obtain ⟨-, live', hstep⟩ := hrun.step hsettled.coherent op
  rw [hrun.shows.referenceCount?] at hcount
  rw [hstep.shows.referenceCount?]
  exact hsettled.coherent.references?_step hcount hop

/-- A document of no bytes, under a name. -/
def emptyDocument (name : String) : Source := .bytes name [] .svg .compact

/-- Three documents, two of which are released, in turn. -/
def releaseInTurn : List (CacheOp Source) :=
  [.add (emptyDocument "a"), .add (emptyDocument "b"), .add (emptyDocument "b"),
    .add (emptyDocument "c"), .remove (emptyDocument "a"), .remove (emptyDocument "b"),
    .remove (emptyDocument "b"), .remove (emptyDocument "a")]

theorem refines_model_releaseInTurn :
    let after := (CacheOp.run step (empty 1) releaseInTurn).1
    after.contains (emptyDocument "a") = false ∧ after.idleSources = [emptyDocument "b"] ∧
      ∃ n, (after.step (.setCapacity 0)).1.referenceCount? (emptyDocument "c") = some (n + 1) := by
  obtain ⟨-, hshows, -, hkeeps⟩ := refines_model 1 releaseInTurn
  refine ⟨(hshows.contains _).trans rfl, hshows.idleSources.trans rfl,
    hkeeps (.setCapacity 0) _ 0 ((hshows.referenceCount? _).trans rfl) Bool.noConfusion⟩

end ImageCache

end VectorImage
