import VectorImage.Proofs.Cache.Refinement

/-!
What a cache is asked, and what it does to the loads. A request starts one load or none: the source
that gets an entry or is reloaded is loaded, and no other. A load is the one that is known of its
source until the source is evicted or reloaded.
-/

set_option autoImplicit false
set_option relaxedAutoImplicit false

namespace VectorImage

/-- What is asked of a cache: an operation, or the latest load of a source. -/
inductive CacheRequest (κ : Type)
  | perform (op : CacheOp κ)
  | peek (source : κ)

namespace CacheRequest

variable {κ : Type}

/-- The source that a request is about. -/
def source? : CacheRequest κ → Option κ
  | .perform (.add source) | .perform (.remove source) | .perform (.reload source) => some source
  | .perform (.setCapacity _) => none
  | .peek source => some source

end CacheRequest

/-- A request, the cache before it and after it, and what it has come to. -/
structure CacheEvent (κ : Type) where
  request : CacheRequest κ
  before : ImageCache κ
  after : ImageCache κ
  result : CacheResult

namespace CacheEvent

variable {κ : Type} [BEq κ]

end CacheEvent

namespace ImageCache

variable {κ : Type} [BEq κ] {c c' : ImageCache κ} {source key k : κ} {handle : LoadHandle}

/-! Requests, one after another. -/

section Requests

variable [Described κ] {requests : List (CacheRequest κ)}

/-- Serve a request. -/
def serve (c : ImageCache κ) : CacheRequest κ → ImageCache κ × CacheResult
  | .perform op => c.step op
  | .peek source => (c, .ok (c.peek source))

/-- The event of a request. -/
def event (c : ImageCache κ) (request : CacheRequest κ) : CacheEvent κ :=
  ⟨request, c, (c.serve request).1, (c.serve request).2⟩

/-- The cache after the requests. -/
def serveAll (c : ImageCache κ) : List (CacheRequest κ) → ImageCache κ
  | [] => c
  | request :: requests => (c.event request).after.serveAll requests

end Requests

/-- A load was started for a key. -/
def StartedFor (c : ImageCache κ) (key : κ) (handle : LoadHandle) : Prop :=
  ∃ source, c.started[handle]? = some source ∧ (source == key) = true

/-- No later load was started for the key. -/
def Latest (c : ImageCache κ) (key : κ) (handle : LoadHandle) : Prop :=
  c.StartedFor key handle ∧ ∀ other, c.StartedFor key other → other ≤ handle

/-- Number of the loads that were started for a key. -/
def loadCount (c : ImageCache κ) (key : κ) : Nat := c.started.toList.countP (· == key)

/-! Two ways in which the loads change. -/

/-- No load is started; some sources may lose their entries. -/
structure Forgets (c c' : ImageCache κ) : Prop where
  started : c'.started = c.started
  peek : ∀ k, c'.peek k = none ∨ c'.peek k = c.peek k

/-- One load is started and becomes the latest of its source. -/
structure Starts (c : ImageCache κ) (source : κ) (c' : ImageCache κ) : Prop where
  started : c'.started = c.started.push source
  peek : ∀ k, c'.peek k = if k == source then some c.started.size else c.peek k

theorem Forgets.refl (c : ImageCache κ) : c.Forgets c := ⟨rfl, fun _ => .inr rfl⟩

theorem Forgets.trans {c₁ c₂ c₃ : ImageCache κ} (h : c₁.Forgets c₂) (h' : c₂.Forgets c₃) :
    c₁.Forgets c₃ := by
  refine ⟨h'.started.trans h.started, fun k => ?_⟩
  rcases h'.peek k with hnone | hsame
  · exact .inl hnone
  · rw [hsame]
    exact h.peek k

theorem Forgets.loadCount (h : c.Forgets c') (key : κ) : c'.loadCount key = c.loadCount key := by
  unfold ImageCache.loadCount
  rw [h.started]

theorem Starts.loadCount (h : c.Starts source c') (key : κ) :
    c'.loadCount key = c.loadCount key + (source == key).toNat := by
  unfold ImageCache.loadCount
  rw [h.started, Array.toList_push, List.countP_append, List.countP_singleton]
  cases source == key <;> rfl

theorem StartedFor.lt_size (h : c.StartedFor key handle) : handle < c.started.size := by
  obtain ⟨found, hfound, -⟩ := h
  exact (Array.getElem?_eq_some_iff.mp hfound).1

theorem Starts.startedFor_iff (h : c.Starts source c') :
    c'.StartedFor key handle ↔
      c.StartedFor key handle ∨ handle = c.started.size ∧ (source == key) = true := by
  unfold StartedFor
  rw [h.started]
  constructor
  · rintro ⟨found, hfound, hsame⟩
    by_cases hlast : handle = c.started.size
    · rw [hlast, Array.getElem?_push_size] at hfound
      exact .inr ⟨hlast, Option.some.inj hfound ▸ hsame⟩
    · rw [Array.getElem?_push, if_neg hlast] at hfound
      exact .inl ⟨found, hfound, hsame⟩
  · rintro (⟨found, hfound, hsame⟩ | ⟨rfl, hsame⟩)
    · obtain ⟨hlt, hget⟩ := Array.getElem?_eq_some_iff.mp hfound
      exact ⟨found, (Array.getElem?_push_lt hlt).trans (congrArg some hget), hsame⟩
    · exact ⟨source, Array.getElem?_push_size, hsame⟩

/-- The loads that are known of are the latest ones of their sources. -/
def Current (c : ImageCache κ) : Prop :=
  ∀ key handle, c.peek key = some handle → c.Latest key handle

theorem Current.forgets (hc : c.Current) (h : c.Forgets c') : c'.Current := by
  intro key handle hpeek
  have hbefore : c.peek key = some handle := by
    rcases h.peek key with hnone | hsame
    · cases hnone.symm.trans hpeek
    · exact hsame.symm.trans hpeek
  simpa only [Latest, StartedFor, h.started] using hc key handle hbefore

/-- A load is no longer the one that is known of, nor will it be again. -/
structure Outdated (c : ImageCache κ) (key : κ) (handle : LoadHandle) : Prop where
  started : handle < c.started.size
  later : ∀ other, c.peek key = some other → handle < other

theorem Outdated.forgets (h : c.Outdated key handle) (hforgets : c.Forgets c') :
    c'.Outdated key handle := by
  refine ⟨hforgets.started ▸ h.started, fun other hother => ?_⟩
  rcases hforgets.peek key with hnone | hsame
  · cases hnone.symm.trans hother
  · exact h.later other (hsame.symm.trans hother)

theorem Outdated.starts (h : c.Outdated key handle) (hstarts : c.Starts source c') :
    c'.Outdated key handle := by
  refine ⟨?_, fun other hother => ?_⟩
  · rw [hstarts.started, Array.size_push]
    exact Nat.lt_succ_of_lt h.started
  · rw [hstarts.peek] at hother
    split at hother
    · exact Option.some.inj hother ▸ h.started
    · exact h.later other hother

/-! What a request may do to the loads. -/

/-- The ways in which a request changes a cache, and its results. -/
inductive Serves (c : ImageCache κ) : CacheRequest κ → ImageCache κ → CacheResult → Prop
  | refuse (request : CacheRequest κ) (error : CacheUsageError)
    (hadd : ∀ source, request ≠ .perform (.add source)) : Serves c request c (.error error)
  | create (source : κ) (c' : ImageCache κ) (hnone : c.peek source = none)
    (hstarts : c.Starts source c') : Serves c (.perform (.add source)) c' (.ok (some c.started.size))
  | take (source : κ) (c' : ImageCache κ) (handle : LoadHandle)
    (hsome : c.peek source = some handle) (hforgets : c.Forgets c')
    (hpeek : ∀ k, c'.peek k = c.peek k) : Serves c (.perform (.add source)) c' (.ok (some handle))
  | release (source : κ) (c' : ImageCache κ) (hforgets : c.Forgets c') :
    Serves c (.perform (.remove source)) c' (.ok none)
  | reload (source : κ) (c' : ImageCache κ) (hstarts : c.Starts source c') :
    Serves c (.perform (.reload source)) c' (.ok (some c.started.size))
  | resize (capacity : Nat) (c' : ImageCache κ) (hforgets : c.Forgets c') :
    Serves c (.perform (.setCapacity capacity)) c' (.ok none)
  | peek (source : κ) : Serves c (.peek source) c (.ok (c.peek source))

/-- Whatever a request does, it starts a load or it starts none. -/
theorem Serves.forgets_or_starts {request : CacheRequest κ} {result : CacheResult}
    (h : c.Serves request c' result) : c.Forgets c' ∨ ∃ source, c.Starts source c' := by
  cases h with
  | refuse | peek => exact .inl (.refl c)
  | create source _ _ hstarts | reload source _ hstarts => exact .inr ⟨source, hstarts⟩
  | take _ _ _ _ hforgets | release _ _ hforgets | resize _ _ hforgets => exact .inl hforgets

theorem Outdated.serves {request : CacheRequest κ} {result : CacheResult}
    (hold : c.Outdated key handle) (h : c.Serves request c' result) : c'.Outdated key handle := by
  rcases h.forgets_or_starts with hforgets | ⟨source, hstarts⟩
  · exact hold.forgets hforgets
  · exact hold.starts hstarts

section Sources

variable [EquivBEq κ]

theorem Current.starts (hc : c.Current) (h : c.Starts source c') : c'.Current := by
  intro key handle hpeek
  rw [h.peek] at hpeek
  by_cases hkey : (key == source) = true
  · rw [if_pos hkey] at hpeek
    obtain rfl := Option.some.inj hpeek
    refine ⟨h.startedFor_iff.mpr (.inr ⟨rfl, BEq.symm hkey⟩), fun other hother => ?_⟩
    rcases h.startedFor_iff.mp hother with hold | ⟨rfl, -⟩
    · exact hold.lt_size.le
    · exact Nat.le_refl _
  · rw [if_neg hkey] at hpeek
    obtain ⟨hstarted, hlatest⟩ := hc key handle hpeek
    refine ⟨h.startedFor_iff.mpr (.inl hstarted), fun other hother => ?_⟩
    rcases h.startedFor_iff.mp hother with hold | ⟨-, hsame⟩
    · exact hlatest other hold
    · exact absurd (BEq.symm hsame) hkey

theorem Current.serves {request : CacheRequest κ} {result : CacheResult} (hc : c.Current)
    (h : c.Serves request c' result) : c'.Current := by
  rcases h.forgets_or_starts with hforgets | ⟨source, hstarts⟩
  · exact hc.forgets hforgets
  · exact hc.starts hstarts

theorem peek_update (c : ImageCache κ) (source k : κ) (f : CacheEntry → CacheEntry) :
    (c.update source f).peek k =
      if k == source then (c.entry? k).map fun e => (f e).handle else c.peek k := by
  have hlookup : ImageCache.entry? (c.update source f) k =
      if k == source then (c.entry? k).map f else c.entry? k := lookup_change ..
  unfold peek
  rw [hlookup]
  split
  · rw [Option.map_map]
    rfl
  · rfl

/-- A change that leaves the load of an entry as it is. -/
theorem peek_update_same (c : ImageCache κ) (source k : κ) {f : CacheEntry → CacheEntry}
    (hf : ∀ e, (f e).handle = e.handle) : (c.update source f).peek k = c.peek k := by
  rw [peek_update]
  split
  · exact congrArg (Option.map · (c.entry? k)) (funext hf)
  · rfl

theorem forgets_erase (c : ImageCache κ) (source : κ) : c.Forgets (c.erase source) := by
  refine ⟨rfl, fun k => ?_⟩
  have hlookup : ImageCache.entry? (c.erase source) k = if k == source then none else c.entry? k := by
    simpa [erase, entry?] using lookup_without c.entries [source] k
  unfold peek
  rw [hlookup]
  by_cases hk : (k == source) = true
  · exact .inl (by rw [if_pos hk, Option.map_none])
  · exact .inr (by rw [if_neg hk])

theorem forgets_drop (c : ImageCache κ) (excess : Nat) : c.Forgets (c.drop excess) := by
  induction excess generalizing c with
  | zero => exact .refl c
  | succ excess ih =>
    rw [drop]
    split
    · rename_i idle source _
      have herase := forgets_erase ({ c with idle := idle } : ImageCache κ) source
      exact Forgets.trans ⟨herase.started, herase.peek⟩ (ih _)
    · exact .refl c

theorem forgets_evict (c : ImageCache κ) : c.Forgets c.evict := forgets_drop ..

section Serving

variable [Described κ] {request : CacheRequest κ} {result : CacheResult}

theorem serves_add (c : ImageCache κ) (source : κ) :
    c.Serves (.perform (.add source)) (c.step (.add source)).1 (c.step (.add source)).2 := by
  simp only [step, addReference]
  cases hentry : c.entry? source with
  | none =>
    refine .create source _ (by rw [ImageCache.peek, hentry, Option.map_none]) ⟨rfl, fun k => ?_⟩
    by_cases hk : (k == source) = true
    · rw [if_pos hk]
      simp only [ImageCache.peek, entry?, List.lookup_cons, hk, Option.map_some]
      rfl
    · rw [if_neg hk]
      simp only [ImageCache.peek, entry?, List.lookup_cons, hk]
      rfl
  | some e =>
    have hsome : c.peek source = some e.handle := by rw [ImageCache.peek, hentry, Option.map_some]
    have hpeek (k : κ) : (c.addReference source).1.peek k = c.peek k := by
      simp only [addReference, hentry]
      exact peek_update_same _ source k fun _ => rfl
    simp only [addReference, hentry] at hpeek
    exact .take source _ e.handle hsome ⟨rfl, fun k => .inr (hpeek k)⟩ hpeek

theorem serves_remove (c : ImageCache κ) (source : κ) :
    c.Serves (.perform (.remove source)) (c.step (.remove source)).1 (c.step (.remove source)).2 := by
  simp only [step, removeReference]
  cases hentry : c.entry? source with
  | none =>
    refine .refuse _ _ ?_
    rintro _ ⟨⟩
  | some e =>
    by_cases hnone : e.references = 0
    · simp only [hnone, if_true]
      refine .refuse _ _ ?_
      rintro _ ⟨⟩
    · by_cases hlast : e.references = 1
      · simp only [hlast, Nat.one_ne_zero, if_true, if_false]
        refine .release source _ ?_
        have hidle : c.Forgets (({ c with idle := (c.idle.pushBack source).1 } :
            ImageCache κ).update source fun e =>
              { e with references := 0, slot := some (c.idle.pushBack source).2 }) :=
          ⟨rfl, fun k => .inr (peek_update_same _ source k fun _ => rfl)⟩
        exact hidle.trans (forgets_evict _)
      · simp only [hnone, hlast, if_false]
        refine .release source _ ⟨rfl, fun k => .inr ?_⟩
        exact peek_update_same c source k fun _ => rfl

theorem serves_reload (c : ImageCache κ) (source : κ) :
    c.Serves (.perform (.reload source)) (c.step (.reload source)).1 (c.step (.reload source)).2 := by
  simp only [step, ImageCache.reload]
  cases hentry : c.entry? source with
  | none =>
    refine .refuse _ _ ?_
    rintro _ ⟨⟩
  | some e =>
    refine .reload source _ ⟨rfl, fun k => ?_⟩
    rw [peek_update]
    by_cases hk : (k == source) = true
    · have hsame : ImageCache.entry? (c.start source).1 k = some e := (lookup_congr hk).trans hentry
      rw [if_pos hk, if_pos hk, hsame, Option.map_some]
      rfl
    · rw [if_neg hk, if_neg hk]
      rfl

theorem serves (c : ImageCache κ) (request : CacheRequest κ) :
    c.Serves request (c.serve request).1 (c.serve request).2 := by
  cases request with
  | perform op =>
    cases op with
    | add source => exact serves_add c source
    | remove source => exact serves_remove c source
    | reload source => exact serves_reload c source
    | setCapacity capacity =>
      have hresize : c.Forgets { c with capacity := capacity } := ⟨rfl, fun _ => .inr rfl⟩
      exact .resize capacity _ (hresize.trans (forgets_evict _))
  | peek source => exact .peek source

/-! What one request comes to. -/

theorem event_serves (c : ImageCache κ) (request : CacheRequest κ) :
    c.Serves request (c.event request).after (c.event request).result := c.serves request

end Serving

end Sources

end ImageCache

end VectorImage
