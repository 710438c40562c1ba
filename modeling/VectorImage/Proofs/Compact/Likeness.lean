import VectorImage.Proofs.Compact.Emission

/-!
Encoders that are alike: they hold the same, and only the identity of their tables may differ. No
step of an encoder looks at that identity, so that what one of them does the other does as well, and
the images that they finish are written in the same bytes.
-/

set_option autoImplicit false
set_option relaxedAutoImplicit false

namespace VectorImage

namespace Encoder

open VectorImage.Compact

/-- Encoders hold the same, in tables that may be different instances. -/
structure Alike (e f : Encoder) : Prop where
  same : f = { e with interner := f.interner }
  tables : f.tables = e.tables

/-- A computation that does the same to encoders that are alike. -/
def Blind {α : Type} (m : Encode α) : Prop :=
  ∀ (e e' f : Encoder) (a : α), e.Alike f → m e = .ok (a, e') →
    ∃ f', m f = .ok (a, f') ∧ e'.Alike f'

variable {α β : Type} {e e' f : Encoder}

theorem Alike.width (h : e.Alike f) : f.width = e.width := by rw [h.same]

theorem alike_start (width : FloatWidth) {interner interner' : Interner}
    (h : interner'.shared.value = interner.shared.value) :
    (start width interner).Alike (start width interner') := ⟨rfl, h⟩

theorem blind_pure (a : α) : Blind (pure a : Encode α) := by
  intro e e' f b h hm
  obtain ⟨rfl, rfl⟩ := state_pure_eq_ok.mp hm
  exact ⟨f, rfl, h⟩

theorem Blind.bind {m : Encode α} {k : α → Encode β} (hm : Blind m) (hk : ∀ a, Blind (k a)) :
    Blind (m >>= k) := by
  intro e e' f b h hbind
  obtain ⟨a, e₁, hfirst, hsecond⟩ := state_bind_eq_ok.mp hbind
  obtain ⟨f₁, hfirst', h₁⟩ := hm _ _ _ a h hfirst
  obtain ⟨f', hsecond', h'⟩ := hk a _ _ _ b h₁ hsecond
  exact ⟨f', state_bind_eq_ok.mpr ⟨a, f₁, hfirst', hsecond'⟩, h'⟩

theorem Blind.map {m : Encode α} (hm : Blind m) (g : α → β) : Blind (g <$> m) := by
  rw [map_eq_pure_bind]
  exact hm.bind fun a => blind_pure (g a)

/-- What follows reads something of the encoder that is not the identity of its tables. -/
theorem blind_get {k : Encoder → Encode β} (hread : ∀ e f, e.Alike f → k f = k e)
    (hk : ∀ e, Blind (k e)) : Blind (get >>= k) := by
  intro e e' f b h hbind
  obtain ⟨_, _, hget, hsecond⟩ := state_bind_eq_ok.mp hbind
  obtain ⟨rfl, rfl⟩ := state_get_eq_ok.mp hget
  obtain ⟨f', hsecond', h'⟩ := hk _ _ _ _ b h hsecond
  rw [← hread _ _ h] at hsecond'
  exact ⟨f', state_bind_eq_ok.mpr ⟨f, f, rfl, hsecond'⟩, h'⟩

theorem blind_modify {g : Encoder → Encoder} (hg : ∀ e f, e.Alike f → (g e).Alike (g f)) :
    Blind (modify g : Encode Unit) := by
  intro e e' f b h hmodify
  obtain rfl := state_modify_eq_ok.mp hmodify
  exact ⟨g f, rfl, hg e f h⟩

theorem blind_lift (x : Except Error α) : Blind (liftM x : Encode α) := by
  intro e e' f a h hlift
  obtain ⟨hx, rfl⟩ := state_lift_eq_ok.mp hlift
  exact ⟨f, state_lift_eq_ok.mpr ⟨hx, rfl⟩, h⟩

theorem blind_option {k : α → Encode β} (hk : ∀ a, Blind (k a)) (o : Option α) :
    Blind (o.mapM k) := by
  cases o with
  | none => exact blind_pure none
  | some a => exact (hk a).map some

theorem blind_list {k : α → Encode β} (hk : ∀ a, Blind (k a)) (as : List α) :
    Blind (as.mapM k) := by
  induction as with
  | nil =>
    rw [List.mapM_nil]
    exact blind_pure []
  | cons a as ih =>
    rw [List.mapM_cons]
    exact (hk a).bind fun b => ih.bind fun bs => blind_pure (b :: bs)

/-- What an interner answers and does to its tables depends on the tables alone. -/
theorem blind_interning [Keyed α] {pick : TableSet → CanonicalTable α}
    {put : TableSet → CanonicalTable α → TableSet} {v : α} :
    Blind (interning (Interner.intern pick put v)) := by
  intro e e' f i h hinterning
  obtain ⟨n, hn, rfl⟩ := interning_eq_ok.mp hinterning
  have hsame : f.interner.shared.value = e.interner.shared.value := h.tables
  have halike {n' : Interner} (hvalue : n'.shared.value = n.shared.value) :
      ({ e with interner := n } : Encoder).Alike { f with interner := n' } :=
    ⟨by rw [h.same], hvalue⟩
  rcases Interner.intern_cases hn with ⟨k, hk, rfl, rfl⟩ | ⟨hnew, hroom, rfl, hvalue⟩
  · rw [← hsame] at hk
    exact ⟨f, interning_eq_ok.mpr ⟨_, Interner.intern_of_find hk, rfl⟩, halike hsame⟩
  · rw [← hsame] at hnew hroom hvalue ⊢
    obtain ⟨n', hn', hvalue'⟩ := Interner.intern_of_new pick put hnew hroom
    exact ⟨_, interning_eq_ok.mpr ⟨n', hn', rfl⟩, halike (hvalue'.trans hvalue.symm)⟩

/-! The steps of an encoder. -/

theorem blind_floats (xs : List Binary64) : Blind (floats xs) :=
  blind_get (fun e f h => by rw [h.width]) fun e => blind_interning

theorem blind_path (p : Path) : Blind (path p) :=
  blind_get (fun e f h => by rw [h.width]) fun e => blind_interning

theorem blind_transform (m : Option Affine) : Blind (transform m) := by
  cases m with
  | none => exact blind_pure none
  | some m =>
    exact blind_get (fun e f h => by rw [h.width]) fun e => blind_interning.map some

theorem blind_string (id : StringId) : Blind (stringIndex id) :=
  blind_get (fun e f h => by rw [h.same]) fun e => blind_lift _

theorem blind_floatList (id : FloatListId) : Blind (floatListIndex id) :=
  blind_get (fun e f h => by rw [h.same]) fun e => blind_lift _

theorem blind_write (instruction : Instruction) : Blind (write instruction) := by
  refine (blind_lift _).bind fun bytes => blind_modify fun e f h => ⟨?_, h.tables⟩
  rw [h.same]

theorem blind_stroke (s : Stroke) : Blind (stroke s) :=
  (blind_floats _).bind fun _ => (blind_option blind_floatList _).bind fun _ => blind_pure _

theorem blind_paint (p : Paint) : Blind (paint p) :=
  (blind_option blind_stroke _).bind fun _ => blind_pure _

theorem blind_geometry (g : Geometry) : Blind (geometry g) := by
  cases g with
  | path p => exact (blind_path p).map _
  | rect g => exact (blind_floats _).map _
  | ellipse g => exact (blind_floats _).map _
  | poly g => exact (blind_floats _).bind fun _ => blind_pure _

theorem blind_init (t : Tables) : Blind (init t) := by
  refine (blind_list (fun _ => blind_interning) _).bind fun images =>
    (blind_list (fun _ => blind_interning) _).bind fun strings =>
      (blind_list blind_floats _).bind fun lists => blind_modify fun e f h => ⟨?_, h.tables⟩
  rw [h.same]

theorem blind_gradient (g : Gradient) : Blind (gradient g) := by
  refine (blind_floats _).bind fun index => (blind_floatList _).bind fun offsets =>
    (blind_transform _).bind fun t => ?_
  refine blind_get (fun e f h => by rw [h.width]) fun e => ?_
  refine blind_get (fun e f h => by rw [h.same]) fun e => ?_
  split
  · exact blind_pure _
  · refine (blind_write _).bind fun _ => ?_
    refine blind_get (fun e f h => by rw [h.same]) fun e => (blind_lift _).bind fun r => ?_
    refine Blind.bind (blind_modify fun e f h => ⟨?_, h.tables⟩) fun _ => blind_pure _
    rw [h.same]

/-- No call looks at the identity of the tables. -/
theorem blind_call (c : Call) : Blind (call c) := by
  have hdone {m : Encode Unit} (hm : Blind m) : Blind (do m; return Reply.done) :=
    hm.bind fun _ => blind_pure _
  cases c with
  | init t => exact hdone (blind_init t)
  | document d =>
    refine hdone (blind_modify fun e f h => ⟨?_, h.tables⟩)
    rw [h.same]
  | gradient g => exact (blind_gradient g).bind fun _ => blind_pure _
  | beginGroup attrs =>
    exact hdone ((blind_transform _).bind fun _ => (blind_option blind_string _).bind fun _ =>
      blind_write _)
  | endGroup => exact hdone (blind_write _)
  | clip c =>
    exact hdone ((blind_path _).bind fun _ => (blind_transform _).bind fun _ => blind_write _)
  | beginMask => exact hdone (blind_write _)
  | maskContent => exact hdone (blind_write _)
  | endMask => exact hdone (blind_write _)
  | shape s =>
    exact hdone ((blind_geometry _).bind fun _ => (blind_paint _).bind fun _ =>
      (blind_transform _).bind fun _ => blind_write _)
  | image leaf =>
    have himage : Blind (placed Encoder.images .image leaf.image) :=
      blind_get (fun e f h => by rw [h.same]) fun e => blind_lift _
    exact hdone (himage.bind fun _ => (blind_floats _).bind fun _ => (blind_transform _).bind
      fun _ => blind_write _)
  | text leaf =>
    exact hdone ((blind_string _).bind fun _ => (blind_option blind_string _).bind fun _ =>
      (blind_floats _).bind fun _ => (blind_paint _).bind fun _ => (blind_transform _).bind
        fun _ => blind_write _)
  | use u =>
    exact hdone ((blind_string _).bind fun _ => (blind_transform _).bind fun _ => blind_write _)

/-- What one encoder performs, another that is alike performs, with the same reply. -/
theorem Alike.perform (h : e.Alike f) {c : Call} {reply : Reply}
    (hperform : e.perform c = .ok (e', reply)) :
    ∃ f', f.perform c = .ok (f', reply) ∧ e'.Alike f' := by
  obtain ⟨⟨_, _⟩, hcall, hpair⟩ := map_eq_ok.mp hperform
  cases hpair
  obtain ⟨f', hcall', h'⟩ := blind_call c _ _ _ _ h hcall
  exact ⟨f', map_eq_ok.mpr ⟨_, hcall', rfl⟩, h'⟩

end Encoder

end VectorImage
