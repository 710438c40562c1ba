import Mathlib.Data.List.Nodup
import VectorImage.Cache.Basic

/-!
What a cache is meant to do. A model counts the references to each source that it holds, and keeps
the sources that have none in a plain list, in the order in which they were last released. Sources
are told apart by the equality of the cache, which may identify values that differ.
-/

set_option autoImplicit false
set_option relaxedAutoImplicit false

namespace VectorImage

inductive CacheOp (κ : Type)
  | add (source : κ)
  | remove (source : κ)
  | reload (source : κ)
  | setCapacity (capacity : Nat)
  deriving Inhabited

/-- What an operation comes to: the load that it answers, if it answers one, or the misuse. -/
abbrev CacheResult := Except CacheUsageError (Option LoadHandle)

namespace CacheOp

variable {κ σ : Type}

/-- Whether an operation asks for a reference to a key to be given back. -/
def givesBack [BEq κ] (key : κ) : CacheOp κ → Bool
  | .remove source => key == source
  | _ => false

/-- Whether an operation, with its result, has given a reference to a key back. -/
def gaveBack [BEq κ] (key : κ) : CacheOp κ × CacheResult → Bool
  | (op, .ok _) => op.givesBack key
  | (_, .error _) => false

/-- How many operations ago a reference to a key was last given back; all of them if none was. -/
def releaseAge [BEq κ] (log : List (CacheOp κ × CacheResult)) (key : κ) : Nat :=
  log.reverse.findIdx (gaveBack key)

/-- The state after a sequence of operations, and their results. -/
def run (step : σ → CacheOp κ → σ × CacheResult) (s : σ) : List (CacheOp κ) → σ × List CacheResult
  | [] => (s, [])
  | op :: ops =>
    let (s, result) := step s op
    let (s, results) := run step s ops
    (s, result :: results)

end CacheOp

/-- What is known of a source: its latest load and the number of its references. -/
structure Holding where
  handle : LoadHandle
  references : Nat
  deriving DecidableEq, Inhabited

/-- Sources with what is known of them, those without references from the least to the most
recently released, and the number of loads started so far. -/
structure CacheModel (κ : Type) where
  capacity : Nat
  holdings : List (κ × Holding)
  recency : List κ
  loads : Nat

namespace CacheModel

variable {κ : Type}

def empty (capacity : Nat) : CacheModel κ := ⟨capacity, [], [], 0⟩

variable [BEq κ]

def holding? (m : CacheModel κ) (source : κ) : Option Holding := m.holdings.lookup source

def references? (m : CacheModel κ) (source : κ) : Option Nat :=
  (m.holding? source).map Holding.references

/-- Change what is known of a source. -/
def change (m : CacheModel κ) (source : κ) (f : Holding → Holding) : CacheModel κ :=
  { m with holdings := m.holdings.map fun p => if p.1 == source then (p.1, f p.2) else p }

/-- Forget the first sources of the recency list, `excess` of them. -/
def drop (m : CacheModel κ) (excess : Nat) : CacheModel κ :=
  { m with
    holdings := m.holdings.filter fun p => !(m.recency.take excess).any (p.1 == ·)
    recency := m.recency.drop excess }

/-- Forget sources until the recency list is no longer than the capacity. -/
def trim (m : CacheModel κ) : CacheModel κ := m.drop (m.recency.length - m.capacity)

variable [Described κ]

def step (m : CacheModel κ) : CacheOp κ → CacheModel κ × CacheResult
  | .add source =>
    match m.holding? source with
    | none =>
      ({ m with holdings := (source, ⟨m.loads, 1⟩) :: m.holdings, loads := m.loads + 1 },
        .ok (some m.loads))
    | some h =>
      ({ m.change source fun h => { h with references := h.references + 1 } with
        recency := m.recency.filter fun k => !(k == source) }, .ok (some h.handle))
  | .remove source =>
    match m.holding? source with
    | none => (m, .error (.removeUnknown (Described.describe source)))
    | some h =>
      if h.references = 0 then (m, .error (.removeUnreferenced (Described.describe source)))
      else if h.references = 1 then
        ({ m.change source fun h => { h with references := 0 } with
          recency := m.recency ++ [source] }.trim, .ok none)
      else (m.change source fun h => { h with references := h.references - 1 }, .ok none)
  | .reload source =>
    match m.holding? source with
    | none => (m, .error (.reloadUnknown (Described.describe source)))
    | some _ =>
      ({ m.change source fun h => { h with handle := m.loads } with loads := m.loads + 1 },
        .ok (some m.loads))
  | .setCapacity capacity => ({ m with capacity := capacity }.trim, .ok none)

end CacheModel

/-! Looking a source up. -/

section Lookup

variable {κ α : Type} [BEq κ] [EquivBEq κ] {k k' source : κ} {l : List (κ × α)}

theorem lookup_congr (h : (k == k') = true) : l.lookup k = l.lookup k' := by
  induction l with
  | nil => rfl
  | cons p l ih => rw [List.lookup_cons, List.lookup_cons, BEq.congr_left h, ih]

theorem lookup_change (l : List (κ × α)) (source k : κ) (f : α → α) :
    (l.map fun p => if p.1 == source then (p.1, f p.2) else p).lookup k =
      if k == source then (l.lookup k).map f else l.lookup k := by
  induction l with
  | nil => simp
  | cons p l ih =>
    have hfst : (if p.1 == source then (p.1, f p.2) else p).1 = p.1 := by split <;> rfl
    rw [List.map_cons, List.lookup_cons, List.lookup_cons, hfst, ih]
    by_cases hp : (k == p.1) = true
    · have hsame : (k == source) = (p.1 == source) := BEq.congr_left hp
      rw [hp, hsame]
      by_cases hs : (p.1 == source) = true
      · simp only [hs, if_true, Option.map_some]
      · simp only [hs, if_false, Bool.false_eq_true]
    · simp only [hp]

theorem lookup_without (l : List (κ × α)) (gone : List κ) (k : κ) :
    (l.filter fun p => !gone.any (p.1 == ·)).lookup k =
      if gone.any (k == ·) then none else l.lookup k := by
  induction l with
  | nil => simp
  | cons p l ih =>
    rw [List.filter_cons, List.lookup_cons]
    by_cases hp : (k == p.1) = true
    · have hany : gone.any (k == ·) = gone.any (p.1 == ·) :=
        congrArg gone.any (funext fun _ => BEq.congr_left hp)
      rw [hany] at ih ⊢
      by_cases hg : gone.any (p.1 == ·) = true
      · simp only [hg, Bool.not_true, if_true, Bool.false_eq_true, if_false] at ih ⊢
        exact ih
      · rw [if_pos (by simp [hg]), List.lookup_cons, hp, if_neg hg]
    · split
      · rw [List.lookup_cons, ih]
        simp only [hp]
      · simp only [hp, ih]

end Lookup

namespace CacheModel

variable {κ : Type} [BEq κ] {m : CacheModel κ} {op : CacheOp κ} {source key k : κ}

/-! What a step does. -/

section Moves

variable [Described κ]

/-- The ways in which an operation changes a model. -/
inductive Moves (m : CacheModel κ) : CacheOp κ → CacheModel κ × CacheResult → Prop
  | refuse (op : CacheOp κ) (e : CacheUsageError) : Moves m op (m, .error e)
  | create (source : κ) (hnone : m.holding? source = none) : Moves m (.add source)
      ({ m with holdings := (source, ⟨m.loads, 1⟩) :: m.holdings, loads := m.loads + 1 },
        .ok (some m.loads))
  | take (source : κ) (h : Holding) (hsome : m.holding? source = some h) : Moves m (.add source)
      ({ m.change source fun h => { h with references := h.references + 1 } with
        recency := m.recency.filter fun k => !(k == source) }, .ok (some h.handle))
  | release (source : κ) (h : Holding) (hsome : m.holding? source = some h)
      (hmore : 1 < h.references) : Moves m (.remove source)
      (m.change source fun h => { h with references := h.references - 1 }, .ok none)
  | retire (source : κ) (h : Holding) (hsome : m.holding? source = some h)
      (hlast : h.references = 1) : Moves m (.remove source)
      ({ m.change source fun h => { h with references := 0 } with
        recency := m.recency ++ [source] }.trim, .ok none)
  | reload (source : κ) (h : Holding) (hsome : m.holding? source = some h) :
      Moves m (.reload source)
      ({ m.change source fun h => { h with handle := m.loads } with loads := m.loads + 1 },
        .ok (some m.loads))
  | resize (capacity : Nat) :
      Moves m (.setCapacity capacity) ({ m with capacity := capacity }.trim, .ok none)

theorem moves_step (m : CacheModel κ) (op : CacheOp κ) : m.Moves op (m.step op) := by
  cases op with
  | add source =>
    simp only [step]
    split
    · exact .create source ‹_›
    · exact .take source _ ‹_›
  | remove source =>
    simp only [step]
    split
    · exact .refuse ..
    · split
      · exact .refuse ..
      · split
        · exact .retire source _ ‹_› ‹_›
        · exact .release source _ ‹_› (by omega)
  | reload source =>
    simp only [step]
    split
    · exact .refuse ..
    · exact .reload source _ ‹_›
  | setCapacity capacity => exact .resize capacity

end Moves

/-! What is known of a source after a change. -/

@[simp]
theorem keys_change (m : CacheModel κ) (source : κ) (f : Holding → Holding) :
    (m.change source f).holdings.map Prod.fst = m.holdings.map Prod.fst := by
  unfold change
  rw [List.map_map]
  refine List.map_congr_left fun p _ => ?_
  by_cases hp : (p.1 == source) = true
  · simp [hp]
  · simp [hp]

@[simp]
theorem drop_zero (m : CacheModel κ) : m.drop 0 = m := by simp [drop]

theorem drop_drop (m : CacheModel κ) (n n' : Nat) : (m.drop n).drop n' = m.drop (n + n') := by
  unfold drop
  simp only [List.filter_filter, List.drop_drop, List.take_add, List.any_append, Bool.not_or,
    Bool.and_comm]

section Lookups

variable [EquivBEq κ]

theorem references?_congr (m : CacheModel κ) (h : (k == key) = true) :
    m.references? k = m.references? key := congrArg (Option.map _) (lookup_congr h)

theorem holding?_change (m : CacheModel κ) (source k : κ) (f : Holding → Holding) :
    (m.change source f).holding? k =
      if k == source then (m.holding? k).map f else m.holding? k := lookup_change ..

theorem references?_change {held : Holding} (hheld : m.holding? source = some held)
    (f : Holding → Holding) (k : κ) :
    (m.change source f).references? k =
      if k == source then some (f held).references else m.references? k := by
  unfold references?
  rw [holding?_change]
  split
  · have hk : m.holding? k = some held := (lookup_congr ‹_›).trans hheld
    rw [hk, Option.map_some, Option.map_some]
  · rfl

theorem references?_drop (m : CacheModel κ) (excess : Nat) (k : κ) :
    (m.drop excess).references? k =
      if (m.recency.take excess).any (k == ·) then none else m.references? k := by
  unfold references? holding? drop
  rw [lookup_without]
  split <;> rfl

end Lookups

/-! The recency list lists the sources without references. -/

/-- No two keys of a list are the same. -/
abbrev Apart (keys : List κ) : Prop := keys.Pairwise fun a b => (a == b) = false

/-- Each source is held once, and the recency list has each source without references, once. -/
structure Coherent (m : CacheModel κ) : Prop where
  distinct : Apart (m.holdings.map Prod.fst)
  listed : ∀ k, m.recency.any (k == ·) = true ↔ m.references? k = some 0
  once : Apart m.recency

theorem coherent_empty (capacity : Nat) : (empty capacity : CacheModel κ).Coherent := by
  refine ⟨.nil, fun k => ?_, .nil⟩
  simp [empty, references?, holding?]

section Coherence

variable [EquivBEq κ]

/-- In a list that has no key twice, what comes after the first keys is none of them. -/
theorem any_drop {keys : List κ} (h : Apart keys) (n : Nat) (k : κ) :
    (keys.drop n).any (k == ·) = true ↔
      keys.any (k == ·) = true ∧ (keys.take n).any (k == ·) = false := by
  have hsplit := List.take_append_drop n keys
  have hany : keys.any (k == ·) = ((keys.take n).any (k == ·) || (keys.drop n).any (k == ·)) := by
    rw [← List.any_append, hsplit]
  rw [← hsplit, Apart, List.pairwise_append] at h
  rw [hany, Bool.or_eq_true]
  constructor
  · intro hdrop
    refine ⟨.inr hdrop, Bool.eq_false_iff.mpr fun htake => ?_⟩
    obtain ⟨a, ha, hka⟩ := List.any_eq_true.mp htake
    obtain ⟨b, hb, hkb⟩ := List.any_eq_true.mp hdrop
    have hab : (a == b) = true := BEq.trans (BEq.symm hka) hkb
    exact Bool.false_ne_true ((h.2.2 a ha b hb).symm.trans hab)
  · rintro ⟨htake | hdrop, hnot⟩
    · exact absurd (htake.symm.trans hnot) Bool.noConfusion
    · exact hdrop

/-- Without a key, a list that has it once. -/
theorem filter_of_apart {first rest : List κ} (h : Apart (first ++ key :: rest))
    (hsame : (key == source) = true) :
    ((first ++ key :: rest).filter fun a => !(a == source)) = first ++ rest := by
  obtain ⟨-, hrest, hfirst⟩ := List.pairwise_append.mp h
  rw [List.filter_append, List.filter_cons, hsame, Bool.not_true, if_neg Bool.false_ne_true]
  congr 1
  · refine List.filter_eq_self.mpr fun a ha => (Bool.not_eq_true' _).mpr ?_
    exact (BEq.congr_right hsame).symm.trans (hfirst a ha key List.mem_cons_self)
  · refine List.filter_eq_self.mpr fun a ha => (Bool.not_eq_true' _).mpr ?_
    rw [← BEq.congr_right hsame, BEq.comm]
    exact (List.pairwise_cons.mp hrest).1 a ha

theorem any_filter (keys : List κ) (source k : κ) :
    (keys.filter fun a => !(a == source)).any (k == ·) = true ↔
      keys.any (k == ·) = true ∧ (k == source) = false := by
  rw [List.any_filter, List.any_eq_true, List.any_eq_true]
  constructor
  · rintro ⟨a, ha, hboth⟩
    obtain ⟨hapart, hsame⟩ := Bool.and_eq_true_iff.mp hboth
    exact ⟨⟨a, ha, hsame⟩, (BEq.congr_left hsame).trans ((Bool.not_eq_true' _).mp hapart)⟩
  · rintro ⟨⟨a, ha, hsame⟩, hapart⟩
    refine ⟨a, ha, Bool.and_eq_true_iff.mpr ⟨?_, hsame⟩⟩
    exact (Bool.not_eq_true' _).mpr ((BEq.congr_left hsame).symm.trans hapart)

theorem Coherent.drop (h : m.Coherent) (excess : Nat) : (m.drop excess).Coherent := by
  refine ⟨?_, fun k => ?_, h.once.sublist (List.drop_sublist ..)⟩
  · exact h.distinct.sublist (List.filter_sublist.map _)
  · rw [references?_drop]
    refine (any_drop h.once excess k).trans ?_
    rw [h.listed]
    by_cases hgone : (m.recency.take excess).any (k == ·) = true
    · simp [hgone]
    · simp [hgone]

theorem Coherent.listed_held (h : m.Coherent) {held : Holding}
    (hheld : m.holding? source = some held) (hsame : (k == source) = true) :
    m.recency.any (k == ·) = true ↔ held.references = 0 := by
  rw [h.listed, references?_congr m hsame, references?, hheld, Option.map_some, Option.some.injEq]

/-- A source that has references is not listed. -/
theorem Coherent.unlisted_held (h : m.Coherent) {held : Holding}
    (hheld : m.holding? source = some held) (hrefs : held.references ≠ 0) :
    ∀ a ∈ m.recency, (a == source) = false := by
  intro a ha
  refine Bool.eq_false_iff.mpr fun hsame => hrefs ((h.listed_held hheld BEq.rfl).mp ?_)
  exact List.any_eq_true.mpr ⟨a, ha, BEq.symm hsame⟩

/-- A source changes, and is listed if that leaves it without references. -/
theorem Coherent.change (h : m.Coherent) {source : κ} {f : Holding → Holding} {held : Holding}
    (hheld : m.holding? source = some held) {keys : List κ} (honce : Apart keys)
    (hkeys : ∀ k, keys.any (k == ·) = true ↔
      if k == source then (f held).references = 0 else m.recency.any (k == ·) = true) :
    ({ m.change source f with recency := keys } : CacheModel κ).Coherent := by
  refine ⟨?_, fun k => ?_, honce⟩
  · show Apart ((m.change source f).holdings.map Prod.fst)
    rw [keys_change]
    exact h.distinct
  · show keys.any (k == ·) = true ↔ (m.change source f).references? k = some 0
    rw [hkeys, references?_change hheld, h.listed]
    split
    · rw [Option.some.injEq]
    · rfl

/-- A source that is given its last reference back is listed. -/
theorem Coherent.retire (h : m.Coherent) {source : κ} {held : Holding}
    (hheld : m.holding? source = some held) (hlast : held.references = 1) :
    ({ m.change source fun h => { h with references := 0 } with
      recency := m.recency ++ [source] } : CacheModel κ).Coherent := by
  have hunlisted := h.unlisted_held hheld (by omega)
  refine h.change hheld ?_ fun k => ?_
  · exact List.pairwise_append.mpr ⟨h.once, List.pairwise_singleton _ _, by simpa using hunlisted⟩
  · rw [List.any_append]
    split <;> simp [*]

variable [Described κ]

theorem Coherent.step (h : m.Coherent) (op : CacheOp κ) : (m.step op).1.Coherent := by
  have hmove := m.moves_step op
  generalize m.step op = after at hmove
  cases hmove with
  | refuse => exact h
  | create source hnone =>
    have hrefs : m.references? source = none := congrArg (Option.map _) hnone
    refine ⟨List.pairwise_cons.mpr ⟨fun k hk => ?_, h.distinct⟩, fun k => ?_, h.once⟩
    · obtain ⟨p, hp, rfl⟩ := List.mem_map.mp hk
      exact (Bool.not_eq_true' _).mp (List.lookup_eq_none_iff.mp hnone p hp)
    · refine (h.listed k).trans ?_
      unfold references? holding?
      rw [List.lookup_cons]
      split
      · have hk : m.holdings.lookup k = none := (lookup_congr ‹_›).trans hnone
        simp [hk]
      · rfl
  | take source held hsome =>
    refine h.change hsome (h.once.sublist List.filter_sublist) fun k => ?_
    rw [any_filter]
    split <;> simp [*]
  | release source held hsome hmore =>
    refine h.change (f := fun h => { h with references := h.references - 1 }) hsome h.once
      fun k => ?_
    split
    · exact (h.listed_held hsome ‹_›).trans (by dsimp only; omega)
    · rfl
  | retire source held hsome hlast => exact (h.retire hsome hlast).drop _
  | reload source held hsome =>
    have hsame (k : κ) (hk : (k == source) = true) := h.listed_held hsome hk
    have hchanged := h.change (f := fun h => { h with handle := m.loads }) hsome h.once fun k => by
      split
      · exact hsame k ‹_›
      · rfl
    exact ⟨hchanged.distinct, hchanged.listed, hchanged.once⟩
  | resize capacity =>
    have hresized : ({ m with capacity := capacity } : CacheModel κ).Coherent :=
      ⟨h.distinct, h.listed, h.once⟩
    exact hresized.drop _

end Coherence

/-! Nothing that is referenced is forgotten, and what is listed fits the capacity. -/

theorem length_trim_le (m : CacheModel κ) : m.trim.recency.length ≤ m.trim.capacity := by
  show (m.recency.drop _).length ≤ m.capacity
  rw [List.length_drop]
  omega

theorem length_step_le [Described κ] (h : m.recency.length ≤ m.capacity) (op : CacheOp κ) :
    (m.step op).1.recency.length ≤ (m.step op).1.capacity := by
  have hmove := m.moves_step op
  generalize m.step op = after at hmove
  cases hmove with
  | refuse => exact h
  | create => exact h
  | take => exact Nat.le_trans (List.length_filter_le ..) h
  | release => exact h
  | retire => exact length_trim_le _
  | reload => exact h
  | resize => exact length_trim_le _

section References

variable [EquivBEq κ]

/-- A source with references is not among those that are forgotten. -/
theorem Coherent.references?_trim (h : m.Coherent) (hrefs : m.references? key ≠ some 0) :
    m.trim.references? key = m.references? key := by
  refine (references?_drop ..).trans (if_neg fun hgone => hrefs ((h.listed key).mp ?_))
  obtain ⟨a, ha, hsame⟩ := List.any_eq_true.mp hgone
  exact List.any_eq_true.mpr ⟨a, List.mem_of_mem_take ha, hsame⟩

/-- A source with references keeps some, unless the last one is given back. -/
theorem Coherent.references?_step [Described κ] (h : m.Coherent) {n : Nat}
    (hrefs : m.references? key = some (n + 1)) (hop : op.givesBack key = true → n ≠ 0) :
    ∃ n', (m.step op).1.references? key = some (n' + 1) := by
  have hmove := m.moves_step op
  generalize m.step op = after at hmove
  cases hmove with
  | refuse => exact ⟨n, hrefs⟩
  | create source hnone =>
    show ∃ n', (List.lookup key (_ :: _)).map Holding.references = some (n' + 1)
    rw [List.lookup_cons]
    split
    · exact ⟨0, rfl⟩
    · exact ⟨n, hrefs⟩
  | take source held hsome =>
    have hchange := references?_change hsome
      (fun h => { h with references := h.references + 1 }) key
    refine Exists.imp (fun _ hn => hchange.trans hn) ?_
    split
    · exact ⟨held.references, rfl⟩
    · exact ⟨n, hrefs⟩
  | release source held hsome hmore =>
    refine Exists.imp (fun _ hn => (references?_change hsome _ key).trans hn) ?_
    split
    · exact ⟨held.references - 2, congrArg some (by dsimp only; omega)⟩
    · exact ⟨n, hrefs⟩
  | retire source held hsome hlast =>
    have hother : ¬(key == source) = true := by
      intro hsame
      have hone : m.references? source = some held.references := congrArg (Option.map _) hsome
      rw [← references?_congr m hsame, hrefs, hlast] at hone
      exact hop hsame (Nat.succ.inj (Option.some.inj hone))
    have hafter : (m.change source fun h => { h with references := 0 }).references? key =
        some (n + 1) := (references?_change hsome _ key).trans ((if_neg hother).trans hrefs)
    exact ⟨n, ((h.retire hsome hlast).references?_trim (hafter.trans_ne (by simp))).trans hafter⟩
  | reload source held hsome =>
    have hchange := references?_change hsome (fun h => { h with handle := m.loads }) key
    refine Exists.imp (fun _ hn => hchange.trans hn) ?_
    split
    · have hheld : m.references? source = some held.references := congrArg (Option.map _) hsome
      exact ⟨n, hheld.symm.trans ((references?_congr m ‹_›).symm.trans hrefs)⟩
    · exact ⟨n, hrefs⟩
  | resize capacity =>
    have hresized : ({ m with capacity := capacity } : CacheModel κ).Coherent :=
      ⟨h.distinct, h.listed, h.once⟩
    exact ⟨n, (hresized.references?_trim (hrefs.trans_ne (by simp))).trans hrefs⟩

end References

/-! The recency list is in the order of the last releases. -/

/-- Keys that have been released, the one least recently released first. -/
structure InOrder (log : List (CacheOp κ × CacheResult)) (keys : List κ) : Prop where
  released : ∀ k ∈ keys, CacheOp.releaseAge log k < log.length
  sorted : keys.Pairwise fun a b => CacheOp.releaseAge log b < CacheOp.releaseAge log a

section Order

variable {log : List (CacheOp κ × CacheResult)} {keys keys' : List κ}
  {e : CacheOp κ × CacheResult}

theorem releaseAge_concat (log : List (CacheOp κ × CacheResult)) (e : CacheOp κ × CacheResult)
    (k : κ) : CacheOp.releaseAge (log ++ [e]) k =
      if CacheOp.gaveBack k e then 0 else CacheOp.releaseAge log k + 1 := by
  unfold CacheOp.releaseAge
  rw [List.reverse_concat, List.findIdx_cons]
  cases CacheOp.gaveBack k e <;> rfl

theorem InOrder.sublist (h : InOrder log keys) (hsub : keys'.Sublist keys) : InOrder log keys' :=
  ⟨fun k hk => h.released k (hsub.subset hk), h.sorted.sublist hsub⟩

/-- An operation that gives none of the keys back makes all of them older. -/
theorem InOrder.age (h : InOrder log keys) (hkeys : ∀ k ∈ keys, CacheOp.gaveBack k e = false) :
    InOrder (log ++ [e]) keys := by
  have hage (k : κ) (hk : k ∈ keys) :
      CacheOp.releaseAge (log ++ [e]) k = CacheOp.releaseAge log k + 1 := by
    rw [releaseAge_concat, hkeys k hk, if_neg Bool.false_ne_true]
  refine ⟨fun k hk => ?_, h.sorted.imp_of_mem fun {a b} ha hb hab => ?_⟩
  · rw [hage k hk, List.length_append]
    exact Nat.succ_lt_succ (h.released k hk)
  · rw [hage a ha, hage b hb]
    exact Nat.succ_lt_succ hab

/-- An operation that gives one more key back puts it last. -/
theorem InOrder.concat (h : InOrder log keys) (hkeys : ∀ k ∈ keys, CacheOp.gaveBack k e = false)
    (hsource : CacheOp.gaveBack source e = true) : InOrder (log ++ [e]) (keys ++ [source]) := by
  have hnow : CacheOp.releaseAge (log ++ [e]) source = 0 := by
    rw [releaseAge_concat, if_pos hsource]
  have haged := h.age hkeys
  refine ⟨fun k hk => ?_, List.pairwise_append.mpr
    ⟨haged.sorted, List.pairwise_singleton _ _, fun k hk k' hk' => ?_⟩⟩
  · rcases List.mem_append.mp hk with hk | hk
    · exact haged.released k hk
    · obtain rfl := List.mem_singleton.mp hk
      rw [hnow, List.length_append]
      exact Nat.succ_pos _
  · obtain rfl := List.mem_singleton.mp hk'
    rw [hnow, releaseAge_concat, hkeys k hk, if_neg Bool.false_ne_true]
    exact Nat.succ_pos _

variable [EquivBEq κ] [Described κ]

theorem InOrder.step (hm : m.Coherent) (h : InOrder log m.recency) (op : CacheOp κ) :
    InOrder (log ++ [(op, (m.step op).2)]) (m.step op).1.recency := by
  have hmove := m.moves_step op
  generalize m.step op = after at hmove
  cases hmove with
  | refuse => exact h.age fun _ _ => rfl
  | create => exact h.age fun _ _ => rfl
  | take => exact (h.age fun _ _ => rfl).sublist List.filter_sublist
  | release source held hsome hmore => exact h.age (hm.unlisted_held hsome (by omega))
  | retire source held hsome hlast =>
    have hlisted : InOrder (log ++ [(.remove source, .ok none)]) (m.recency ++ [source]) :=
      h.concat (hm.unlisted_held hsome (by omega)) BEq.rfl
    exact hlisted.sublist (List.drop_sublist ..)
  | reload => exact h.age fun _ _ => rfl
  | resize => exact (h.age fun _ _ => rfl).sublist (List.drop_sublist ..)

end Order

/-- What holds of a model after a sequence of operations from the empty one. -/
structure Settled (log : List (CacheOp κ × CacheResult)) (m : CacheModel κ) : Prop where
  coherent : m.Coherent
  bounded : m.recency.length ≤ m.capacity
  ordered : InOrder log m.recency

theorem settled_empty (capacity : Nat) : Settled [] (empty capacity : CacheModel κ) :=
  ⟨coherent_empty capacity, Nat.zero_le _, ⟨fun _ h => (List.not_mem_nil h).elim, .nil⟩⟩

theorem Settled.run [EquivBEq κ] [Described κ] {log : List (CacheOp κ × CacheResult)}
    (h : Settled log m) (ops : List (CacheOp κ)) :
    Settled (log ++ ops.zip (CacheOp.run step m ops).2) (CacheOp.run step m ops).1 := by
  induction ops generalizing log m with
  | nil => exact (List.append_nil log).symm ▸ h
  | cons op ops ih =>
    have hstep : Settled (log ++ [(op, (m.step op).2)]) (m.step op).1 :=
      ⟨h.coherent.step op, length_step_le h.bounded op, h.ordered.step h.coherent op⟩
    have hrun := ih hstep
    rw [List.append_assoc] at hrun
    exact hrun


end CacheModel

end VectorImage
