import Mathlib.Algebra.Order.Group.Multiset
import VectorImage.Proofs.Call.Passing
import VectorImage.Proofs.Compact.Condensing

/-!
When an encoder can perform a call: the tables have room, what the call refers to has a place, and
a list behind a count fits. Every entry that a call may add is accounted for in the table that it
goes into: at most two to any table, so an encoder goes along with every accepted stream of moderate
size.
-/

set_option autoImplicit false
set_option relaxedAutoImplicit false

namespace VectorImage

/-- No table has equal entries or more than `n`. -/
structure TableSet.Tidy (n : Nat) (t : TableSet) : Prop where
  images : t.images.Tidy n
  strings : t.strings.Tidy n
  floatLists : t.floatLists.Tidy n
  transforms : t.transforms.Tidy n
  paths : t.paths.Tidy n

namespace TableSet

/-- How many entries there are of a kind. Gradients have no table in the set. -/
def count (t : TableSet) : TableKind → Nat
  | .image => t.images.size
  | .string => t.strings.size
  | .floatList => t.floatLists.size
  | .transform => t.transforms.size
  | .path => t.paths.size
  | .gradient => 0

@[simp]
theorem count_empty (kind : TableKind) : empty.count kind = 0 := by cases kind <;> rfl

variable {n m : Nat} {t u : TableSet}

theorem indexable_of_count (h : ∀ kind, t.count kind < 2 ^ 32) : t.Indexable :=
  ⟨h .image, h .string, h .floatList, h .transform, h .path⟩

theorem tidy_empty : empty.Tidy 0 :=
  ⟨CanonicalTable.tidy_empty, CanonicalTable.tidy_empty, CanonicalTable.tidy_empty,
    CanonicalTable.tidy_empty, CanonicalTable.tidy_empty⟩

theorem Tidy.mono (h : t.Tidy n) (hle : n ≤ m) : t.Tidy m :=
  ⟨h.images.mono hle, h.strings.mono hle, h.floatLists.mono hle, h.transforms.mono hle,
    h.paths.mono hle⟩

theorem Tidy.count_le (h : t.Tidy n) (kind : TableKind) : t.count kind ≤ n := by
  cases kind with
  | image => exact h.images.size_le
  | string => exact h.strings.size_le
  | floatList => exact h.floatLists.size_le
  | transform => exact h.transforms.size_le
  | path => exact h.paths.size_le
  | gradient => exact Nat.zero_le n

theorem Tidy.of_count (h : t.Tidy m) (hcount : ∀ kind, t.count kind ≤ n) : t.Tidy n :=
  ⟨{ h.images with size_le := hcount .image }, { h.strings with size_le := hcount .string },
    { h.floatLists with size_le := hcount .floatList },
    { h.transforms with size_le := hcount .transform }, { h.paths with size_le := hcount .path }⟩

theorem Tidy.indexable (h : t.Tidy n) (hn : n < 2 ^ 32) : t.Indexable :=
  indexable_of_count fun kind => Nat.lt_of_le_of_lt (h.count_le kind) hn

/-- What is pushed when it was not found is no second copy. -/
theorem Grows.tidy {width : FloatWidth} (h : t.Grows width u) (ht : t.Tidy n) :
    ∃ m, u.Tidy m := by
  induction h with
  | refl => exact ⟨n, ht⟩
  | image _ hnew _ ih =>
    obtain ⟨m, hm⟩ := ih
    exact ⟨m + 1, { hm.mono (Nat.le_succ m) with images := hm.images.push hnew }⟩
  | string _ hnew _ ih =>
    obtain ⟨m, hm⟩ := ih
    exact ⟨m + 1, { hm.mono (Nat.le_succ m) with strings := hm.strings.push hnew }⟩
  | floatList _ hnew _ _ ih =>
    obtain ⟨m, hm⟩ := ih
    exact ⟨m + 1, { hm.mono (Nat.le_succ m) with floatLists := hm.floatLists.push hnew }⟩
  | transform _ hnew _ _ ih =>
    obtain ⟨m, hm⟩ := ih
    exact ⟨m + 1, { hm.mono (Nat.le_succ m) with transforms := hm.transforms.push hnew }⟩
  | path _ hnew _ _ ih =>
    obtain ⟨m, hm⟩ := ih
    exact ⟨m + 1, { hm.mono (Nat.le_succ m) with paths := hm.paths.push hnew }⟩

end TableSet

namespace Interner

variable {α : Type} [Keyed α] {n : Interner}

/-- A value goes into a table that has room for it, and no other table grows. -/
private theorem intern_progress {pick : TableSet → CanonicalTable α}
    {put : TableSet → CanonicalTable α → TableSet} {kind : TableKind} (v : α)
    (hpick : ∀ t : TableSet, t.count kind = (pick t).size)
    (hput : ∀ (t : TableSet) (other : TableKind), (put t ((pick t).push v)).count other =
      t.count other + Multiset.count other {kind})
    (hroom : n.shared.value.count kind < 2 ^ 32) :
    ∃ i n', intern pick put v n = .ok (i, n') ∧ ∀ other,
      n'.shared.value.count other ≤ n.shared.value.count other + Multiset.count other {kind} := by
  cases hfind : (pick n.shared.value).find? v with
  | some i => exact ⟨_, n, intern_of_find hfind, fun other => Nat.le_add_right _ _⟩
  | none =>
    obtain ⟨n', hintern, hvalue⟩ := intern_of_new pick put hfind (hpick _ ▸ hroom)
    exact ⟨_, n', hintern, fun other => Nat.le_of_eq (hvalue ▸ hput _ other)⟩

end Interner

namespace Encoder

open VectorImage.Compact

variable {α β : Type} {e e' : Encoder} {k l b : Multiset TableKind}

/-- A computation that succeeds in tables with room for the entries `k` more and adds no others. -/
def Performs (k : Multiset TableKind) (m : Encode α) (e : Encoder) : Prop :=
  (∀ kind, e.tables.count kind + k.count kind ≤ 2 ^ 32) →
    ∃ a e', m e = .ok (a, e') ∧ ∀ kind, e'.tables.count kind ≤ e.tables.count kind + k.count kind

/-- A computation that does nothing but intern. -/
def Interns (k : Multiset TableKind) (m : Encode α) (e : Encoder) : Prop :=
  Performs k m e ∧ ∀ a e', m e = .ok (a, e') → e.Interned e'

/-- One computation after another, within what both may add. -/
theorem Performs.bind {m : Encode α} {f : α → Encode β} (hm : Performs k m e) (hle : k + l ≤ b)
    (hf : ∀ a e', m e = .ok (a, e') → Performs l (f a) e') : Performs b (m >>= f) e := by
  intro hroom
  have hsum (kind : TableKind) : k.count kind + l.count kind ≤ b.count kind := by
    rw [← Multiset.count_add]
    exact Multiset.count_le_of_le kind hle
  obtain ⟨a, e', h, hcount⟩ := hm fun kind => by
    have := hroom kind
    have := hsum kind
    omega
  obtain ⟨c, e'', h', hcount'⟩ := hf a e' h fun kind => by
    have := hroom kind
    have := hsum kind
    have := hcount kind
    omega
  refine ⟨c, e'', state_bind_eq_ok.mpr ⟨a, e', h, h'⟩, fun kind => ?_⟩
  have := hsum kind
  have := hcount kind
  have := hcount' kind
  omega

private theorem performs_pure (a : α) (e : Encoder) : Performs 0 (pure a : Encode α) e :=
  fun _ => ⟨a, e, rfl, fun _ => Nat.le_add_right _ _⟩

private theorem performs_done {m : Encode Unit} (h : Performs k m e) :
    Performs k (do m; return Reply.done) e :=
  h.bind (add_zero k).le fun _ e' _ => performs_pure _ e'

/-- What comes after a computation that interns starts from the same encoder but for the tables. -/
theorem Interns.then {m : Encode α} {f : α → Encode β} (hm : Interns k m e) (hle : k + l ≤ b)
    (hf : ∀ a e', e.Interned e' → Performs l (f a) e') : Performs b (m >>= f) e :=
  hm.1.bind hle fun a e' h => hf a e' (hm.2 a e' h)

theorem Interns.bind {m : Encode α} {f : α → Encode β} (hm : Interns k m e) (hle : k + l ≤ b)
    (hf : ∀ a e', e.Interned e' → Interns l (f a) e') : Interns b (m >>= f) e := by
  refine ⟨hm.then hle fun a e' h => (hf a e' h).1, fun c e'' h => ?_⟩
  obtain ⟨a, e', hfirst, hsecond⟩ := state_bind_eq_ok.mp h
  have hinterned := hm.2 a e' hfirst
  exact hinterned.trans ((hf a e' hinterned).2 c e'' hsecond)

theorem interns_pure (a : α) (e : Encoder) : Interns 0 (pure a : Encode α) e := by
  refine ⟨performs_pure a e, fun b e' h => ?_⟩
  obtain ⟨-, rfl⟩ := state_pure_eq_ok.mp h
  exact .refl e

theorem Interns.mono {m : Encode α} (hm : Interns k m e) (hle : k ≤ b) : Interns b m e := by
  refine ⟨fun hroom => ?_, hm.2⟩
  have hcount (kind : TableKind) := Multiset.count_le_of_le kind hle
  obtain ⟨a, e', h, hadded⟩ := hm.1 fun kind =>
    Nat.le_trans (Nat.add_le_add_left (hcount kind) _) (hroom kind)
  exact ⟨a, e', h, fun kind =>
    Nat.le_trans (hadded kind) (Nat.add_le_add_left (hcount kind) _)⟩

theorem Interns.map {m : Encode α} (hm : Interns k m e) (f : α → β) : Interns k (f <$> m) e := by
  rw [map_eq_pure_bind]
  exact hm.bind (add_zero k).le fun _ e' _ => interns_pure _ e'

/-- Interning through the encoder, into the table of one kind. -/
private theorem performs_interning [Keyed α] {pick : TableSet → CanonicalTable α}
    {put : TableSet → CanonicalTable α → TableSet} (kind : TableKind) (v : α)
    (hpick : ∀ t : TableSet, t.count kind = (pick t).size)
    (hput : ∀ (t : TableSet) (other : TableKind), (put t ((pick t).push v)).count other =
      t.count other + Multiset.count other {kind}) :
    Performs {kind} (interning (Interner.intern pick put v)) e := by
  intro hroom
  have hfits : e.tables.count kind < 2 ^ 32 := by
    have := hroom kind
    rwa [Multiset.count_singleton_self] at this
  obtain ⟨i, n', h, hcount⟩ := Interner.intern_progress v hpick hput hfits
  exact ⟨i, { e with interner := n' }, interning_eq_ok.mpr ⟨n', h, rfl⟩, hcount⟩

theorem interns_image (v : Raster) (e : Encoder) :
    Interns {.image} (interning (Interner.image v)) e := by
  refine ⟨performs_interning .image v (fun _ => rfl) fun t other => ?_, fun _ _ h =>
    (image_spec h).1⟩
  cases other <;> simp [TableSet.count]

theorem interns_string (v : String) (e : Encoder) :
    Interns {.string} (interning (Interner.string v)) e := by
  refine ⟨performs_interning .string v (fun _ => rfl) fun t other => ?_, fun _ _ h =>
    (string_spec h).1⟩
  cases other <;> simp [TableSet.count]

theorem interns_floats (xs : List Binary64) (e : Encoder) :
    Interns {.floatList} (floats xs) e := by
  refine ⟨performs_interning .floatList (xs.map e.width.round) (fun _ => rfl) fun t other => ?_,
    fun _ _ h => (floats_spec h).1⟩
  cases other <;> simp [TableSet.count]

theorem interns_path (p : Path) (e : Encoder) : Interns {.path} (path p) e := by
  refine ⟨performs_interning .path (p.round e.width) (fun _ => rfl) fun t other => ?_,
    fun _ _ h => (path_spec h).1⟩
  cases other <;> simp [TableSet.count]

theorem interns_transform (m : Option Affine) (e : Encoder) :
    Interns {.transform} (transform m) e := by
  cases m with
  | none => exact (interns_pure none e).mono (Multiset.zero_le _)
  | some m =>
    refine ⟨fun hroom => ?_, fun _ _ h => (transform_spec h).1⟩
    have hperforms : Performs {.transform} (interning (Interner.transform (m.round e.width))) e := by
      refine performs_interning .transform _ (fun _ => rfl) fun t other => ?_
      cases other <;> simp [TableSet.count]
    obtain ⟨i, e', h, hcount⟩ := hperforms hroom
    exact ⟨some i, e', transform_some_eq_ok.mpr ⟨i, h, rfl⟩, hcount⟩

/-- What has a place is looked up. -/
theorem interns_placed {pick : Encoder → Array UInt32} {kind : TableKind} {id : UInt32}
    (h : id.toNat < (pick e).size) : Interns 0 (placed pick kind id) e := by
  obtain ⟨i, -, hi⟩ := Resources.lookup_progress kind h
  refine ⟨fun _ => ⟨i, e, placed_eq_ok.mpr ⟨rfl, hi⟩, fun _ => Nat.le_add_right _ _⟩,
    fun a e' h => ?_⟩
  obtain ⟨rfl, -⟩ := placed_eq_ok.mp h
  exact .refl e'

/-- An optional value is dealt with when it is there. -/
theorem interns_option {f : α → Encode β} {o : Option α}
    (hf : ∀ a, o = some a → Interns k (f a) e) : Interns k (o.mapM f) e := by
  cases o with
  | none => exact (interns_pure (none : Option β) e).mono (Multiset.zero_le _)
  | some a => exact (hf a rfl).map some

theorem interns_list {f : α → Encode UInt32} {kind : TableKind}
    (hf : ∀ a e, Interns {kind} (f a) e) (as : List α) (e : Encoder) :
    Interns (.replicate as.length kind) (as.mapM f) e := by
  induction as generalizing e with
  | nil =>
    rw [List.mapM_nil]
    exact interns_pure _ e
  | cons a as ih =>
    rw [List.mapM_cons, List.length_cons, Multiset.replicate_succ]
    refine (hf a e).bind (Multiset.singleton_add kind _).le fun i e' _ => ?_
    exact (ih e').bind (add_zero _).le fun is e'' _ => interns_pure _ e''

/-- The places that an encoder has given are as many as the nesting check counts. -/
structure Follows (n : Nesting) (e : Encoder) : Prop where
  images : e.images.size = n.images
  strings : e.strings.size = n.strings
  floatLists : e.floatLists.size = n.floatLists

theorem Follows.interned {n : Nesting} (h : e.Follows n) (hinterned : e.Interned e') :
    e'.Follows n := by
  rw [hinterned.same]
  exact ⟨h.images, h.strings, h.floatLists⟩

private theorem interns_paint {n : Nesting} (h : e.Follows n) {p : Paint} {gradients : Nat}
    (hp : p.Within gradients n.floatLists) : Interns {.floatList} (paint p) e := by
  refine Interns.bind (interns_option fun s hs => ?_) (add_zero _).le
    fun code e' _ => interns_pure _ e'
  refine (interns_floats _ e).bind (l := 0) (add_zero _).le fun params e₁ hinterned => ?_
  refine Interns.bind (interns_option fun d hd => interns_placed ?_) (add_zero 0).le
    fun dash e₂ _ => interns_pure _ e₂
  rw [(h.interned hinterned).floatLists]
  exact hp.dash d (by rw [hs]; exact hd)

private theorem interns_geometry (g : Geometry) (e : Encoder) :
    Interns {.floatList, .path} (geometry g) e := by
  cases g with
  | path p => exact ((interns_path p e).map _).mono (by decide)
  | rect g => exact ((interns_floats _ e).map _).mono (by decide)
  | ellipse g => exact ((interns_floats _ e).map _).mono (by decide)
  | poly g => exact (interns_floats _ e).bind (by decide) fun i e' _ => interns_pure _ e'

private theorem performs_write {instruction : Instruction} {bytes : Bytes}
    (h : instruction.write = .ok bytes) (k : Multiset TableKind) (e : Encoder) :
    Performs k (write instruction) e :=
  fun _ => ⟨(), _, write_eq_ok.mpr ⟨bytes, h, rfl⟩, fun _ => Nat.le_add_right _ _⟩

/-- The entries that a call may add, unless it gives the tables. -/
def callEntries : Multiset TableKind := {.floatList, .floatList, .transform, .path}

/-- The entries that a call may add. -/
def entries : Call → Multiset TableKind
  | .init t => .replicate t.images.length .image +
      (.replicate t.strings.length .string + .replicate t.floatLists.length .floatList)
  | _ => callEntries

theorem entries_eq {call : Call} (hinit : ∀ t, call ≠ .init t) : entries call = callEntries := by
  cases call with
  | init t => exact absurd rfl (hinit t)
  | _ => rfl

/-- The tables, given to an encoder whose own have room. -/
private theorem performs_init (t : Tables) (e : Encoder) : Performs (entries (.init t)) (init t) e := by
  refine (interns_list interns_image t.images e).then le_rfl fun images e₁ _ => ?_
  refine (interns_list interns_string t.strings e₁).then le_rfl fun strings e₂ _ => ?_
  refine (interns_list interns_floats t.floatLists e₂).then (add_zero _).le fun lists e₃ _ => ?_
  exact fun _ => ⟨(), _, rfl, fun _ => Nat.le_refl _⟩

/-- A gradient with a list of colors whose length fits. -/
private theorem performs_gradient {n : Nesting} (h : e.Follows n) {g : Gradient}
    (hoffsets : g.offsets.toNat < n.floatLists) (hcolors : g.colors.length < 2 ^ 32)
    (hroom : e.gradients.size < 2 ^ 32) : Performs {.floatList, .transform} (gradient g) e := by
  refine (interns_floats _ e).then (l := {.transform}) (by decide) fun geometry e₁ h₁ => ?_
  have hplace : Interns 0 (placed Encoder.floatLists .floatList g.offsets) e₁ :=
    interns_placed (by rwa [(h.interned h₁).floatLists])
  refine hplace.then (zero_add _).le fun offsets e₂ h₂ => ?_
  refine (interns_transform _ e₂).then (add_zero _).le fun t e₃ h₃ => ?_
  have hgradients : e₃.gradients = e.gradients := by rw [h₃.same, h₂.same, h₁.same]
  have hget (u : Encoder) : Performs 0 (get : Encode Encoder) u :=
    fun _ => ⟨u, u, rfl, fun _ => Nat.le_refl _⟩
  refine (hget e₃).bind (add_zero 0).le fun u e₄ hu => ?_
  refine (hget e₄).bind (add_zero 0).le fun w e₅ hw => ?_
  obtain ⟨hu, he₄⟩ := state_get_eq_ok.mp hu
  obtain ⟨hw, he₅⟩ := state_get_eq_ok.mp hw
  rw [hu, hw, he₅, he₄, hgradients]
  split
  · exact performs_pure _ _
  · obtain ⟨bytes, hwrite⟩ : ∃ bytes, (Instruction.gradient g.kind.code geometry offsets g.colors
        g.spread t).write = .ok bytes :=
      ⟨_, writeLength_bind_eq_ok.mpr ⟨hcolors, rfl⟩⟩
    refine (performs_write hwrite 0 _).bind (add_zero 0).le fun _ e₆ hwritten => ?_
    obtain ⟨_, -, rfl⟩ := write_eq_ok.mp hwritten
    refine (hget _).bind (add_zero 0).le fun u e₇ hu => ?_
    obtain ⟨rfl, rfl⟩ := state_get_eq_ok.mp hu
    rw [← hgradients] at hroom
    exact fun _ => ⟨_, _, state_bind_eq_ok.mpr ⟨_, _,
      state_lift_eq_ok.mpr ⟨CanonicalTable.pushIndexed_of_room hroom _, rfl⟩, rfl⟩,
      fun _ => Nat.le_refl _⟩

/-- An accepted call that does not give the tables is performed, if there is room. -/
private theorem performs_call {n m : Nesting} {gradients : Nat} {call : Call}
    (haccept : Nesting.Accepted gradients n call m) (hinit : ∀ t, call ≠ .init t) (h : e.Follows n)
    (hgradient : ∀ g, call = .gradient g →
      g.colors.length < 2 ^ 32 ∧ e.gradients.size < 2 ^ 32) :
    Performs callEntries (Encoder.call call) e := by
  cases haccept with
  | init tables _ => exact absurd rfl (hinit tables)
  | document d _ =>
    exact performs_done fun _ => ⟨(), _, rfl, fun _ => Nat.le_add_right _ _⟩
  | gradient g _ hoffsets =>
    obtain ⟨hcolors, hsize⟩ := hgradient g rfl
    exact (performs_gradient h hoffsets hcolors hsize).bind (l := 0) (by decide)
      fun _ e' _ => performs_pure _ e'
  | beginGroup attrs _ hfree =>
    refine performs_done ((interns_transform _ e).then (l := 0) (by decide) fun t e₁ h₁ => ?_)
    refine Interns.then (interns_option fun id hid => interns_placed ?_) (add_zero 0).le
      fun id e₂ _ => performs_write rfl 0 e₂
    rw [(h.interned h₁).strings]
    exact (hfree id hid).inRange
  | endGroup exportId rest _ => exact performs_done (performs_write rfl _ e)
  | beginMask _ => exact performs_done (performs_write rfl _ e)
  | maskContent rest _ => exact performs_done (performs_write rfl _ e)
  | endMask rest _ => exact performs_done (performs_write rfl _ e)
  | clip c _ =>
    refine performs_done ((interns_path _ e).then (l := {.transform}) (by decide)
      fun path e₁ _ => ?_)
    exact (interns_transform _ e₁).then (add_zero _).le fun t e₂ _ => performs_write rfl 0 e₂
  | shape s _ hpaint =>
    refine performs_done ((interns_geometry _ e).then (l := {.floatList, .transform}) (by decide)
      fun geometry e₁ h₁ => ?_)
    refine (interns_paint (h.interned h₁) hpaint).then (l := {.transform}) (by decide)
      fun paint e₂ _ => ?_
    exact (interns_transform _ e₂).then (add_zero _).le fun t e₃ _ => performs_write rfl 0 e₃
  | image leaf _ himage =>
    refine performs_done (Interns.then (interns_placed (by rwa [h.images])) (zero_add _).le
      fun image e₁ _ => ?_)
    refine (interns_floats _ e₁).then (l := {.transform}) (by decide) fun dest e₂ _ => ?_
    exact (interns_transform _ e₂).then (add_zero _).le fun t e₃ _ => performs_write rfl 0 e₃
  | text leaf _ hpaint htext hfamily =>
    refine performs_done (Interns.then (interns_placed (by rwa [h.strings])) (zero_add _).le
      fun text e₁ h₁ => ?_)
    have hfirst := h.interned h₁
    refine Interns.then (interns_option fun id hid => interns_placed ?_) (zero_add _).le
      fun family e₂ h₂ => ?_
    · rw [hfirst.strings]
      exact hfamily id hid
    refine (interns_floats _ e₂).then (l := {.floatList, .transform}) (by decide)
      fun params e₃ h₃ => ?_
    refine (interns_paint ((hfirst.interned h₂).interned h₃) hpaint).then (l := {.transform})
      (by decide) fun paint e₄ _ => ?_
    exact (interns_transform _ e₄).then (add_zero _).le fun t e₅ _ => performs_write rfl 0 e₅
  | use ref _ htarget =>
    refine performs_done (Interns.then (interns_placed ?_) (zero_add _).le fun target e₁ _ => ?_)
    · rw [h.strings]
      exact htarget.inRange
    exact (interns_transform _ e₁).then (l := 0) (by decide)
      fun t e₂ _ => performs_write rfl 0 e₂

/-- An accepted call is performed, if there is room, and adds the entries that it may add. -/
theorem perform_counts {n m : Nesting} {gradients : Nat} {call : Call}
    (haccept : Nesting.Accepted gradients n call m) (h : e.Follows n)
    (hgradient : ∀ g, call = .gradient g → g.colors.length < 2 ^ 32 ∧ e.gradients.size < 2 ^ 32)
    (hroom : ∀ kind, e.tables.count kind + (entries call).count kind ≤ 2 ^ 32) :
    ∃ e' reply, e.perform call = .ok (e', reply) ∧
      ∀ kind, e'.tables.count kind ≤ e.tables.count kind + (entries call).count kind := by
  have hperforms : Performs (entries call) (Encoder.call call) e := by
    cases call with
    | init tables => exact performs_done (performs_init tables e)
    | _ => exact performs_call haccept nofun h hgradient
  obtain ⟨reply, e', hcall, hcount⟩ := hperforms hroom
  exact ⟨e', reply, map_eq_ok.mpr ⟨_, hcall, rfl⟩, hcount⟩

/-- A bound on what a call adds to any table. -/
def cost : Call → Nat
  | .init t => t.images.length + t.strings.length + t.floatLists.length
  | _ => 3

/-- Every call but the tables adds two entries to a table at most. -/
theorem count_entries_le {call : Call} (hinit : ∀ t, call ≠ .init t) (kind : TableKind) :
    (entries call).count kind ≤ 2 := by
  rw [entries_eq hinit]
  cases kind <;> decide

theorem count_entries_le_cost (call : Call) (kind : TableKind) :
    (entries call).count kind ≤ cost call := by
  cases call with
  | init t =>
    refine (Multiset.count_le_card kind _).trans (Nat.le_of_eq ?_)
    simp [entries, cost, Nat.add_assoc]
  | _ =>
    refine (count_entries_le ?_ kind).trans (by decide : 2 ≤ 3)
    exact nofun

/-- An accepted call is performed, if there is room, and leaves the tables without equal entries. -/
theorem perform_progress {n m : Nesting} {gradients : Nat} {call : Call}
    (haccept : Nesting.Accepted gradients n call m) (h : e.Follows n)
    (hgradient : ∀ g, call = .gradient g → g.colors.length < 2 ^ 32 ∧ e.gradients.size < 2 ^ 32)
    {b : Nat} (htidy : e.tables.Tidy b) (hroom : b + cost call ≤ 2 ^ 32) :
    ∃ e' reply, e.perform call = .ok (e', reply) ∧ e'.tables.Tidy (b + cost call) := by
  have hbound (kind : TableKind) :
      e.tables.count kind + (entries call).count kind ≤ b + cost call :=
    Nat.add_le_add (htidy.count_le kind) (count_entries_le_cost call kind)
  obtain ⟨e', reply, hperform, hcount⟩ := perform_counts haccept h hgradient
    fun kind => (hbound kind).trans hroom
  obtain ⟨c, htidy'⟩ := (perform_emits hperform).grown.tidy htidy
  exact ⟨e', reply, hperform, htidy'.of_count fun kind => (hcount kind).trans (hbound kind)⟩

/-- Only the tables change the sizes that the nesting check counts. -/
theorem Follows.accepted {n m : Nesting} (h : e.Follows n) {gradients : Nat} {call : Call}
    (haccept : Nesting.Accepted gradients n call m) (hinit : ∀ t, call ≠ .init t) :
    e.Follows m := by
  cases haccept with
  | init tables _ => exact absurd rfl (hinit tables)
  | _ => exact ⟨h.images, h.strings, h.floatLists⟩

/-- What is done for any other call leaves the places as they are. -/
theorem Follows.emits {n : Nesting} (h : e.Follows n) {call : Call} {reply : Reply}
    (hemits : e.Emits call e' reply) (hinit : ∀ t, call ≠ .init t) :
    e'.Follows n := by
  cases hemits with
  | init => exact absurd rfl (hinit _)
  | document d => exact ⟨h.images, h.strings, h.floatLists⟩
  | registered hprepares => exact h.interned hprepares.interned
  | gradient hprepares =>
    have hinterned := h.interned hprepares.interned
    exact ⟨hinterned.images, hinterned.strings, hinterned.floatLists⟩
  | write _ hprepares =>
    have hinterned := h.interned hprepares.interned
    exact ⟨hinterned.images, hinterned.strings, hinterned.floatLists⟩

/-- Each entry of the tables that are given has its place. -/
theorem Follows.init {tables : Tables} {u : Unit} (hinit : Encoder.init tables e = .ok (u, e'))
    (hindexable : e'.tables.Indexable) {n m : Nesting} {gradients : Nat}
    (haccept : Nesting.Accepted gradients n (.init tables) m) : e'.Follows m := by
  obtain ⟨-, -, hplaces⟩ := init_spec hinit
  obtain ⟨himages, hstrings, hlists⟩ := hplaces ⟨.refl _, hindexable⟩
  cases haccept with
  | init =>
    exact ⟨himages.length_eq, hstrings.length_eq, hlists.length_eq.trans (List.length_map _)⟩

/-- An encoder that performs what the nesting check has accepted goes on following it. -/
theorem Follows.step {n m : Nesting} (h : e.Follows n) {gradients : Nat} {call : Call}
    (haccept : Nesting.Accepted gradients n call m) {reply : Reply}
    (hemits : e.Emits call e' reply) (hindexable : e'.tables.Indexable) : e'.Follows m := by
  cases call with
  | init tables =>
    cases hemits with
    | init hinit => exact .init hinit hindexable haccept
    | write _ hprepares => cases hprepares
  | _ => exact (h.accepted haccept nofun).emits hemits nofun

/-- A call registers one gradient at most. -/
theorem Emits.gradients_size_le {call : Call} {reply : Reply} (h : e.Emits call e' reply) :
    e'.gradients.size ≤ e.gradients.size + 1 := by
  cases h with
  | init hinit =>
    rw [(init_spec hinit).1]
    exact Nat.le_succ _
  | document => exact Nat.le_succ _
  | registered hprepares =>
    rw [hprepares.interned.same]
    exact Nat.le_succ _
  | gradient => exact Nat.le_of_eq (CanonicalTable.size_push _ _)
  | write _ hprepares =>
    rw [hprepares.interned.same]
    exact Nat.le_succ _

end Encoder

/-- A call whose tables and lists are of a moderate size. -/
def Call.Moderate : Call → Prop
  | .init t => t.images.length + t.strings.length + t.floatLists.length < 2 ^ 30
  | .gradient g => g.colors.length < 2 ^ 30
  | _ => True

/-- A stream of fewer than `2 ^ 30` calls, and of as few table entries and elements of a list. -/
structure Moderate (calls : List Call) : Prop where
  length : calls.length < 2 ^ 30
  calls : ∀ call ∈ calls, call.Moderate

namespace Encoder

open VectorImage.Compact

/-- An encoder that goes along with a sketch, its tables filled up to `b`. -/
structure Paces (b : Nat) (q : Position Sketch) (p : Position Encoder) : Prop where
  current : Sketch.Current q
  nesting : p.session.nesting = q.session.nesting
  count : p.ids.size = q.ids.size
  follows : p.session.state.Follows q.session.nesting
  answers : ∀ i j : GradientId, lookup p.ids .gradient i = .ok j →
    j.toNat < p.session.state.gradients.size
  fewer : p.session.state.gradients.size ≤ p.ids.size
  tidy : p.session.state.tables.Tidy b

variable {b : Nat} {q q' : Position Sketch} {p : Position Encoder} {call : Call}

theorem Paces.mono (h : Paces b q p) {b' : Nat} (hle : b ≤ b') : Paces b' q p :=
  { h with tidy := h.tidy.mono hle }

/-- One more answer, below a bound as those before. -/
private theorem below_push {ids : Array GradientId} {id : GradientId} {size : Nat}
    (hid : id.toNat < size) (h : ∀ i j, lookup ids .gradient i = .ok j → j.toNat < size)
    (i j : GradientId) (hij : lookup (ids.push id) .gradient i = .ok j) : j.toNat < size := by
  have hentry := lookup_eq_ok_iff.mp hij
  rw [Array.getElem?_push] at hentry
  split at hentry
  · cases hentry
    exact hid
  · exact h i j (lookup_eq_ok_iff.mpr hentry)

/-- Answers are indices of gradients, one for each gradient of the stream, and there are no more
gradients than answers. -/
private theorem known_answers {e e' : Encoder} {renamed : Call} {reply : Reply}
    {ids : Array GradientId} (hemits : Emits e renamed e' reply) (hinit : ∀ t, renamed ≠ .init t)
    (hroom : ∀ g, renamed = .gradient g → e.gradients.size < 2 ^ 32)
    (hanswers : ∀ i j, lookup ids .gradient i = .ok j → j.toNat < e.gradients.size)
    (hfewer : e.gradients.size ≤ ids.size) :
    (∀ i j, lookup (reply.known ids) .gradient i = .ok j → j.toNat < e'.gradients.size) ∧
      e'.gradients.size ≤ (reply.known ids).size ∧
      (reply.known ids).size = ids.size + renamed.isGradient.toNat := by
  cases hemits with
  | init => exact absurd rfl (hinit _)
  | document d => exact ⟨hanswers, hfewer, rfl⟩
  | @registered g _ _ offsets i hprepares hoffsets hfound =>
    have hgradients : e'.gradients = e.gradients := by rw [hprepares.interned.same]
    obtain ⟨hlt, -⟩ := Array.getElem?_eq_some_iff.mp (CanonicalTable.find?_entry hfound)
    rw [hgradients]
    refine ⟨below_push ?_ hanswers, ?_, Array.size_push _⟩
    · rw [toNat_ofNat_of_lt (Nat.lt_trans hlt (hroom g rfl))]
      exact hlt
    · show e.gradients.size ≤ (ids.push _).size
      rw [Array.size_push]
      exact Nat.le_succ_of_le hfewer
  | @gradient g e₁ offsets instruction bytes hprepares hoffsets hnew hlt hwrite =>
    dsimp only
    rw [CanonicalTable.size_push]
    refine ⟨below_push ?_ fun i j hij => Nat.lt_succ_of_lt (hanswers i j hij), ?_,
      Array.size_push _⟩
    · rw [toNat_ofNat_of_lt hlt]
      exact Nat.lt_succ_self _
    · show e.gradients.size + 1 ≤ (ids.push _).size
      rw [Array.size_push]
      exact Nat.succ_le_succ hfewer
  | @write _ e₁ instruction bytes hne hprepares hwrite =>
    have hgradients : e₁.gradients = e.gradients := by rw [hprepares.interned.same]
    dsimp only
    rw [hgradients, Call.isGradient_eq_false.mpr hne]
    exact ⟨hanswers, hfewer, rfl⟩

/-- Every call but the tables is performed, and adds three entries to any table at most. -/
theorem Paces.step (h : Paces b q p) (hstep : Sketch.backend.Advances q call q')
    (hinit : ∀ t, call ≠ .init t) (hcolors : ∀ g, call = .gradient g → g.colors.length < 2 ^ 32)
    (hroom : b + 3 ≤ 2 ^ 32) :
    ∃ p', Encoder.backend.Advances p call p' ∧ Paces (b + 3) q' p' := by
  obtain ⟨reply, haccept, hsketch, hids, hcurrent⟩ := h.current.of_advances hstep
  obtain ⟨renamed, hmap⟩ := haccept.mapGradients_progress (f := lookup p.ids .gradient)
    fun i hi => by
      obtain ⟨j, -, hj⟩ := Resources.lookup_progress .gradient (h.count.symm ▸ hi)
      exact ⟨j, hj⟩
  have haccept' := haccept.mapGradients hmap h.answers
  have hinit' : ∀ t, renamed ≠ .init t := by
    rintro t rfl
    exact hinit t (Call.eq_of_mapGradients_ne hmap (fun _ h => nomatch h) (fun _ h => nomatch h))
  have hcost : cost renamed = 3 := by
    cases renamed with
    | init t => exact absurd rfl (hinit' t)
    | _ => rfl
  have hgradient : ∀ g, renamed = .gradient g →
      g.colors.length < 2 ^ 32 ∧ p.session.state.gradients.size < 2 ^ 32 := by
    rintro g rfl
    obtain rfl := Call.eq_of_mapGradients_ne hmap (fun _ h => nomatch h) (fun _ h => nomatch h)
    have hfewer := h.fewer
    have hcount := h.current.count
    rcases Sketch.perform_gradients hsketch with ⟨_, -, hlt, -⟩ | ⟨hne, -⟩
    · rw [h.count, hcount] at hfewer
      exact ⟨hcolors g rfl, Nat.lt_of_le_of_lt hfewer hlt⟩
    · exact absurd rfl (hne g)
  obtain ⟨e', reply', hperform, htidy⟩ := perform_progress haccept' h.follows hgradient h.tidy
    (by rw [hcost]; exact hroom)
  rw [hcost] at htidy
  have hemits := perform_emits hperform
  obtain ⟨hbelow, hfewer, hsize⟩ := known_answers hemits hinit' (fun g hg => (hgradient g hg).2)
    h.answers h.fewer
  have hfollows := (h.follows.accepted haccept' hinit').emits hemits hinit'
  rw [← h.nesting] at haccept'
  refine ⟨⟨reply'.known p.ids, ⟨_, e'⟩⟩, .step hmap haccept' hperform, hcurrent, rfl, ?_, hfollows,
    hbelow, hfewer, htidy⟩
  rw [hids, Sketch.answers hsketch, ← Call.isGradient_mapGradients hmap, ← h.count]
  exact hsize

/-- Tables go into an encoder that has room for them. -/
private theorem paces_init {tables : Tables} {width : FloatWidth} {interner : Interner}
    (htidy : interner.shared.value.Tidy b)
    (hstep : Sketch.backend.Advances (.start .empty) (.init tables) q)
    (hroom : b + cost (.init tables) < 2 ^ 32) :
    ∃ p, Encoder.backend.Advances (.start (.start width interner)) (.init tables) p ∧
      Paces (b + cost (.init tables)) q p := by
  obtain ⟨reply, haccept, hsketch, hids, hcurrent⟩ := Sketch.current_start.of_advances hstep
  have hanswered : Sketch.backend.perform .empty (.init tables) = .ok (q.session.state, reply) :=
    hsketch
  have hcount := Sketch.answers hanswered #[]
  have hfollows : (Encoder.start width interner).Follows .start := ⟨rfl, rfl, rfl⟩
  have hstart : (Encoder.start width interner).tables.Tidy b := htidy
  obtain ⟨e', reply', hperform, htidy'⟩ := perform_progress haccept hfollows (fun _ h => nomatch h)
    hstart (Nat.le_of_lt hroom)
  refine ⟨⟨reply'.known #[], ⟨_, e'⟩⟩, .step rfl haccept hperform, ?_⟩
  cases perform_emits hperform with
  | write hne hprepares => cases hprepares
  | init hinit =>
    have hgradients : e'.gradients = .empty := by
      rw [(init_spec hinit).1]
      rfl
    refine ⟨hcurrent, rfl, hids ▸ hcount.symm, .init hinit (htidy'.indexable hroom) haccept, ?_, ?_,
      htidy'⟩
    · intro i j hij
      have hnone := lookup_eq_ok_iff.mp hij
      cases hnone
    · show e'.gradients.size ≤ 0
      rw [hgradients]
      exact Nat.le_refl 0

/-- How many entries calls may add together. -/
def totalCost : List Call → Nat
  | [] => 0
  | call :: rest => cost call + totalCost rest

/-- Room for what calls may add to tables of `b` entries, and lists of colors that can be
written. -/
structure HasRoom (b : Nat) (calls : List Call) : Prop where
  entries : b + totalCost calls < 2 ^ 32
  colors : ∀ g, .gradient g ∈ calls → g.colors.length < 2 ^ 32

instance (b : Nat) (calls : List Call) : Decidable (HasRoom b calls) :=
  decidable_of_iff
    (b + totalCost calls < 2 ^ 32 ∧ ∀ g ∈ registered calls, g.colors.length < 2 ^ 32)
    ⟨fun h => ⟨h.1, fun g hg => h.2 g (mem_registered.mpr hg)⟩,
      fun h => ⟨h.entries, fun g hg => h.colors g (mem_registered.mp hg)⟩⟩

/-- There are no more gradients than entries. -/
theorem countP_le_totalCost (calls : List Call) :
    calls.countP Call.isGradient ≤ totalCost calls := by
  induction calls with
  | nil => exact Nat.le_refl 0
  | cons call rest ih =>
    have hcall : call.isGradient.toNat ≤ cost call := by
      cases call with
      | gradient g => exact (by decide : 1 ≤ 3)
      | _ => exact Nat.zero_le _
    rw [countP_isGradient_cons, totalCost]
    exact Nat.add_le_add hcall ih

theorem HasRoom.countP_le {b : Nat} {calls : List Call} (h : HasRoom b calls) :
    calls.countP Call.isGradient ≤ 2 ^ 32 := by
  have hcount := countP_le_totalCost calls
  have hentries := h.entries
  omega

/-- Every call but the tables costs three entries. -/
theorem totalCost_eq {calls : List Call} (h : ∀ call ∈ calls, ∀ t, call ≠ .init t) :
    totalCost calls = 3 * calls.length := by
  induction calls with
  | nil => rfl
  | cons call rest ih =>
    obtain ⟨hcall, hrest⟩ := List.forall_mem_cons.mp h
    have hcost : cost call = 3 := by
      cases call with
      | init t => exact absurd rfl (hcall t)
      | _ => rfl
    rw [totalCost, ih hrest, hcost, List.length_cons]
    omega

/-- The calls of a stream behind its tables. -/
private theorem ne_init_of_parts {declared : Option Document} {tree : List Call}
    (htree : ∀ call ∈ tree, call.OfTree) :
    ∀ call ∈ declared.toList.map Call.document ++ tree, ∀ t, call ≠ .init t := by
  rintro call hcall t rfl
  rcases List.mem_append.mp hcall with hdocument | hcall
  · obtain ⟨d, -, hd⟩ := List.mem_map.mp hdocument
    cases hd
  · exact htree _ hcall

/-- There is room in empty tables for a stream of moderate size. -/
theorem HasRoom.of_moderate {calls : List Call} (hmoderate : Moderate calls)
    (h : Sketch.backend.Runs (.start .empty) calls q)
    (hphase : q.session.nesting.phase ≠ .fresh) : HasRoom 0 calls := by
  obtain ⟨tables, declared, tree, rfl, htree⟩ := h.of_start hphase
  obtain ⟨hlength, hcalls⟩ := hmoderate
  have hcost : cost (.init tables) < 2 ^ 30 := hcalls _ List.mem_cons_self
  have hsum := totalCost_eq (@ne_init_of_parts declared _ htree)
  rw [List.length_cons] at hlength
  refine ⟨?_, fun g hg => ?_⟩
  · rw [totalCost, hsum]
    omega
  · have hcolors : g.colors.length < 2 ^ 30 := hcalls _ hg
    omega

/-- An encoder performs every stream that has a sketch, as long as there is room. -/
theorem runs_of_sketch (width : FloatWidth) {calls : List Call} {interner : Interner}
    (htidy : interner.shared.value.Tidy b) (hroom : HasRoom b calls)
    (h : Sketch.backend.Runs (.start .empty) calls q) (hphase : q.session.nesting.phase ≠ .fresh) :
    ∃ p, Encoder.backend.Runs (.start (.start width interner)) calls p ∧
      Paces (b + totalCost calls) q p := by
  obtain ⟨tables, declared, tree, rfl, htree⟩ := h.of_start hphase
  obtain ⟨hentries, hcolors⟩ := hroom
  have hinit := @ne_init_of_parts declared _ htree
  have hsum := totalCost_eq hinit
  generalize declared.toList.map Call.document ++ tree = rest at *
  rw [totalCost, hsum] at hentries ⊢
  cases h with
  | cons hfirst hrest =>
    obtain ⟨p, hstep, hp⟩ := paces_init htidy hfirst (by omega)
    -- three entries for each call before, so there is room for three more
    obtain ⟨p', hruns, hp'⟩ := hrest.simulate (f := id)
      (R := fun before => Paces (b + cost (.init tables) + 3 * before.length))
      (fun {before call after q q' p} hsplit hp hadvances => by
        have hmem : call ∈ rest := hsplit ▸ List.mem_append_right before List.mem_cons_self
        have hsize := congrArg List.length hsplit
        rw [List.length_append, List.length_cons] at hsize
        rw [List.length_append, List.length_singleton, Nat.mul_add, ← Nat.add_assoc]
        exact hp.step hadvances (hinit call hmem)
          (fun g hg => hcolors g (List.mem_cons_of_mem _ (hg ▸ hmem))) (by omega)) hp
    rw [List.map_id] at hruns
    exact ⟨p', .cons hstep hruns, hp'.mono (by omega)⟩

end Encoder

end VectorImage
