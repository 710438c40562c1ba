import Mathlib.Data.List.Forall2
import VectorImage.Compact.Encoder
import VectorImage.Proofs.Call.Rounding
import VectorImage.Proofs.Compact.Stored

/-!
What an encoder does to its tables. Interning a value extends the tables and keeps them storable;
in any tables that extend them later, and have an index left, the index answered stands for the
rounded value.
-/

set_option autoImplicit false
set_option relaxedAutoImplicit false

namespace VectorImage

namespace Encoder

open VectorImage.Compact

/-- The tables so far. -/
abbrev tables (e : Encoder) : TableSet := e.interner.shared.value

/-- `e'` differs from `e` in its tables at most, and they have grown from those of `e`. -/
structure Interned (e e' : Encoder) : Prop where
  same : e' = { e with interner := e'.interner }
  grown : e.tables.Grows e.width e'.tables

/-- Tables that extend those of an encoder and have an index left. -/
structure Reaches (e : Encoder) (final : TableSet) : Prop where
  extended : e.tables.ExtendedBy final
  indexable : final.Indexable

variable {e e' e'' : Encoder} {final : TableSet}

theorem Interned.refl (e : Encoder) : e.Interned e := ⟨rfl, .refl⟩

theorem Interned.width (h : e.Interned e') : e'.width = e.width := by rw [h.same]

theorem Interned.trans (h : e.Interned e') (h' : e'.Interned e'') : e.Interned e'' := by
  refine ⟨?_, h.grown.trans (h.width ▸ h'.grown)⟩
  rw [h'.same, h.same]

theorem Interned.reaches (h : e.Interned e') (hfinal : e'.Reaches final) : e.Reaches final :=
  ⟨h.grown.extended.trans hfinal.extended, hfinal.indexable⟩

/-- What interning through an encoder is. -/
theorem interning_eq_ok {m : StateT Interner (Except Error) UInt32} {i : UInt32} :
    interning m e = .ok (i, e') ↔ ∃ n, m e.interner = .ok (i, n) ∧ e' = { e with interner := n } := by
  constructor
  · intro h
    obtain ⟨⟨j, n⟩, hm, h⟩ := bind_eq_ok.mp h
    cases h
    exact ⟨n, hm, rfl⟩
  · rintro ⟨n, hm, rfl⟩
    exact bind_eq_ok.mpr ⟨(i, n), hm, rfl⟩

/-- Numbers and paths are rounded to the width of the encoder. -/
theorem floats_eq_ok {xs : List Binary64} {i : UInt32} :
    floats xs e = .ok (i, e') ↔
      interning (Interner.floatList (xs.map e.width.round)) e = .ok (i, e') := Iff.rfl

theorem path_eq_ok {p : Path} {i : UInt32} :
    path p e = .ok (i, e') ↔ interning (Interner.path (p.round e.width)) e = .ok (i, e') := Iff.rfl

theorem transform_some_eq_ok {m : Affine} {k : Option UInt32} :
    transform (some m) e = .ok (k, e') ↔
      ∃ i, interning (Interner.transform (m.round e.width)) e = .ok (i, e') ∧ k = some i := by
  constructor
  · intro h
    obtain ⟨w, u, hget, h⟩ := state_bind_eq_ok.mp h
    obtain ⟨rfl, rfl⟩ := state_get_eq_ok.mp hget
    obtain ⟨i, hi, rfl⟩ := state_map_eq_ok.mp h
    exact ⟨i, hi, rfl⟩
  · rintro ⟨i, hi, rfl⟩
    exact state_bind_eq_ok.mpr ⟨e, e, rfl, state_map_eq_ok.mpr ⟨i, hi, rfl⟩⟩

/-- Interning through an encoder. -/
private theorem interning_spec {m : StateT Interner (Except Error) UInt32} {i : UInt32}
    (hgrows : ∀ {n n' : Interner} {i : UInt32}, m n = .ok (i, n') →
      n.shared.value.Grows e.width n'.shared.value)
    (h : interning m e = .ok (i, e')) :
    m e.interner = .ok (i, e'.interner) ∧ e.Interned e' := by
  obtain ⟨n, hm, rfl⟩ := interning_eq_ok.mp h
  exact ⟨hm, rfl, hgrows hm⟩

theorem image_spec {v : Raster} {i : UInt32} (h : interning (Interner.image v) e = .ok (i, e')) :
    e.Interned e' ∧ ∀ {final}, e'.Reaches final → final.image i = .ok v := by
  obtain ⟨hm, hinterned⟩ := interning_spec Interner.image_grows h
  refine ⟨hinterned, fun hfinal => ?_⟩
  have hentry := Interner.image_entry hm
  exact lookup_eq_ok_iff.mpr (hfinal.extended.images
    (hentry (hfinal.indexable.of_extendedBy hfinal.extended).images))

theorem string_spec {v : String} {i : UInt32} (h : interning (Interner.string v) e = .ok (i, e')) :
    e.Interned e' ∧ ∀ {final}, e'.Reaches final → final.string i = .ok v := by
  obtain ⟨hm, hinterned⟩ := interning_spec Interner.string_grows h
  refine ⟨hinterned, fun hfinal => ?_⟩
  have hentry := Interner.string_entry hm
  exact lookup_eq_ok_iff.mpr (hfinal.extended.strings
    (hentry (hfinal.indexable.of_extendedBy hfinal.extended).strings))

theorem floats_spec {xs : List Binary64} {i : UInt32} (h : floats xs e = .ok (i, e')) :
    e.Interned e' ∧
      ∀ {final}, e'.Reaches final → final.floatList i = .ok (xs.map e.width.round) := by
  have hkept : ∀ x ∈ xs.map e.width.round, e.width.Keeps x := by
    intro x hx
    obtain ⟨y, -, rfl⟩ := List.mem_map.mp hx
    exact e.width.keeps_round y
  obtain ⟨hm, hinterned⟩ := interning_spec (Interner.floatList_grows hkept) (floats_eq_ok.mp h)
  refine ⟨hinterned, fun hfinal => ?_⟩
  have hentry := Interner.floatList_entry hm
  exact lookup_eq_ok_iff.mpr (hfinal.extended.floatLists
    (hentry (hfinal.indexable.of_extendedBy hfinal.extended).floatLists))

theorem path_spec {p : Path} {i : UInt32} (h : path p e = .ok (i, e')) :
    e.Interned e' ∧ ∀ {final}, e'.Reaches final → final.path i = .ok (p.round e.width) := by
  obtain ⟨hm, hinterned⟩ := interning_spec (Interner.path_grows p.keeps_round) (path_eq_ok.mp h)
  refine ⟨hinterned, fun hfinal => ?_⟩
  have hentry := Interner.path_entry hm
  exact lookup_eq_ok_iff.mpr (hfinal.extended.paths
    (hentry (hfinal.indexable.of_extendedBy hfinal.extended).paths))

/-- An optional transform behind an index, rounded. -/
abbrev TransformCodes (width : FloatWidth) (final : TableSet) (m : Option Affine)
    (i : Option UInt32) : Prop :=
  Option.Rel (fun k v => final.transform k = .ok v) i (m.map (Affine.round width))

/-- An optional transform has an index when it is there. -/
theorem transform_spec {m : Option Affine} {i : Option UInt32}
    (h : transform m e = .ok (i, e')) :
    e.Interned e' ∧ ∀ {final}, e'.Reaches final → TransformCodes e.width final m i := by
  cases m with
  | none =>
    obtain ⟨rfl, rfl⟩ := state_pure_eq_ok.mp h
    exact ⟨.refl _, fun _ => .none⟩
  | some m =>
    obtain ⟨k, hk, rfl⟩ := transform_some_eq_ok.mp h
    obtain ⟨hm, hinterned⟩ := interning_spec (Interner.transform_grows m.keeps_round) hk
    refine ⟨hinterned, fun hfinal => .some ?_⟩
    have hentry := Interner.transform_entry hm
    exact lookup_eq_ok_iff.mpr (hfinal.extended.transforms
      (hentry (hfinal.indexable.of_extendedBy hfinal.extended).transforms))

/-- Where an entry of the given tables went is looked up and nothing else. -/
theorem placed_eq_ok {pick : Encoder → Array UInt32} {kind : TableKind} {id i : UInt32} :
    placed pick kind id e = .ok (i, e') ↔ e' = e ∧ lookup (pick e) kind id = .ok i := by
  constructor
  · intro h
    obtain ⟨w, u, hget, h⟩ := state_bind_eq_ok.mp h
    obtain ⟨rfl, rfl⟩ := state_get_eq_ok.mp hget
    obtain ⟨hlookup, rfl⟩ := state_lift_eq_ok.mp h
    exact ⟨rfl, hlookup⟩
  · rintro ⟨rfl, hlookup⟩
    exact state_bind_eq_ok.mpr ⟨_, _, rfl, state_lift_eq_ok.mpr ⟨hlookup, rfl⟩⟩

theorem optPlaced_eq_ok {pick : Encoder → Array UInt32} {kind : TableKind} {id i : Option UInt32} :
    id.mapM (placed pick kind) e = .ok (i, e') ↔
      e' = e ∧ Option.Rel (fun k j => lookup (pick e) kind k = .ok j) id i := by
  cases id with
  | none =>
    constructor
    · intro h
      obtain ⟨rfl, rfl⟩ := state_pure_eq_ok.mp h
      exact ⟨rfl, .none⟩
    · rintro ⟨rfl, ⟨⟩⟩
      rfl
  | some id =>
    constructor
    · intro h
      obtain ⟨j, hj, rfl⟩ := state_map_eq_ok.mp h
      obtain ⟨rfl, hlookup⟩ := placed_eq_ok.mp hj
      exact ⟨rfl, .some hlookup⟩
    · rintro ⟨rfl, hrel⟩
      cases hrel with
      | some hlookup => exact state_map_eq_ok.mpr ⟨_, placed_eq_ok.mpr ⟨rfl, hlookup⟩, rfl⟩

/-- A stroke with its numbers behind an index and its dash list placed. -/
structure StrokeCodes (width : FloatWidth) (places : Array UInt32) (final : TableSet) (s : Stroke)
    (code : StrokeCode) : Prop where
  source : code.source = s.source
  params : final.floatList code.params =
    .ok [width.round s.width, width.round s.miterLimit, width.round s.dashOffset]
  cap : code.cap = s.cap
  join : code.join = s.join
  dash : Option.Rel (fun k j => lookup places .floatList k = .ok j) s.dash code.dash

structure PaintCodes (width : FloatWidth) (places : Array UInt32) (final : TableSet) (p : Paint)
    (code : PaintCode) : Prop where
  fill : code.fill = p.fill
  stroke : Option.Rel (StrokeCodes width places final) p.stroke code.stroke

/-- An outline behind an index, its numbers rounded. -/
inductive GeometryCodes (width : FloatWidth) (final : TableSet) : Geometry → GeometryCode → Prop
  | path {p : Path} {i : UInt32} (h : final.path i = .ok (p.round width)) :
    GeometryCodes width final (.path p) (.path i)
  | rect {g : RectGeom} {i : UInt32} (h : final.floatList i = .ok (g.round width).toFloats) :
    GeometryCodes width final (.rect g) (.rect i)
  | ellipse {g : EllipseGeom} {i : UInt32}
      (h : final.floatList i = .ok (g.round width).toFloats) :
    GeometryCodes width final (.ellipse g) (.ellipse i)
  | poly {g : PolyGeom} {i : UInt32} (h : final.floatList i = .ok (g.round width).toFloats) :
    GeometryCodes width final (.poly g) (.poly i g.closed)

private theorem stroke_spec {s : Stroke} {code : StrokeCode} (h : stroke s e = .ok (code, e')) :
    e.Interned e' ∧ ∀ {final}, e'.Reaches final → StrokeCodes e.width e.floatLists final s code := by
  obtain ⟨params, e₁, hparams, h⟩ := state_bind_eq_ok.mp h
  obtain ⟨dash, e₂, hdash, h⟩ := state_bind_eq_ok.mp h
  obtain ⟨rfl, rfl⟩ := state_pure_eq_ok.mp h
  obtain ⟨hinterned, hparams⟩ := floats_spec hparams
  obtain ⟨rfl, hdash⟩ := optPlaced_eq_ok.mp hdash
  rw [hinterned.same] at hdash
  exact ⟨hinterned, fun hfinal => ⟨rfl, hparams hfinal, rfl, rfl, hdash⟩⟩

theorem paint_spec {p : Paint} {code : PaintCode} (h : paint p e = .ok (code, e')) :
    e.Interned e' ∧ ∀ {final}, e'.Reaches final → PaintCodes e.width e.floatLists final p code := by
  obtain ⟨fill, s⟩ := p
  obtain ⟨strokeCode, e₁, hstroke, h⟩ := state_bind_eq_ok.mp h
  obtain ⟨rfl, rfl⟩ := state_pure_eq_ok.mp h
  cases s with
  | none =>
    obtain ⟨rfl, rfl⟩ := state_pure_eq_ok.mp hstroke
    exact ⟨.refl _, fun _ => ⟨rfl, .none⟩⟩
  | some s =>
    obtain ⟨code, hcode, rfl⟩ := state_map_eq_ok.mp hstroke
    obtain ⟨hinterned, hcodes⟩ := stroke_spec hcode
    exact ⟨hinterned, fun hfinal => ⟨rfl, .some (hcodes hfinal)⟩⟩

theorem geometry_spec {g : Geometry} {code : GeometryCode} (h : geometry g e = .ok (code, e')) :
    e.Interned e' ∧ ∀ {final}, e'.Reaches final → GeometryCodes e.width final g code := by
  cases g with
  | path p =>
    obtain ⟨i, hi, rfl⟩ := state_map_eq_ok.mp h
    obtain ⟨hinterned, hentry⟩ := path_spec hi
    exact ⟨hinterned, fun hfinal => .path (hentry hfinal)⟩
  | rect g =>
    obtain ⟨i, hi, rfl⟩ := state_map_eq_ok.mp h
    obtain ⟨hinterned, hentry⟩ := floats_spec hi
    exact ⟨hinterned, fun hfinal => .rect (hentry hfinal)⟩
  | ellipse g =>
    obtain ⟨i, hi, rfl⟩ := state_map_eq_ok.mp h
    obtain ⟨hinterned, hentry⟩ := floats_spec hi
    exact ⟨hinterned, fun hfinal => .ellipse (hentry hfinal)⟩
  | poly g =>
    obtain ⟨i, e₁, hi, h⟩ := state_bind_eq_ok.mp h
    obtain ⟨rfl, rfl⟩ := state_pure_eq_ok.mp h
    obtain ⟨hinterned, hentry⟩ := floats_spec hi
    refine ⟨hinterned, fun hfinal => .poly ?_⟩
    rw [PolyGeom.toFloats_round]
    exact hentry hfinal

/-- Every value of a list goes into the tables, in order. -/
private theorem mapM_spec {α : Type} {f : α → Encode UInt32} {P : FloatWidth → TableSet → UInt32 → α → Prop}
    (hf : ∀ {v : α} {e e' : Encoder} {i : UInt32}, f v e = .ok (i, e') →
      e.Interned e' ∧ ∀ {final}, e'.Reaches final → P e.width final i v)
    {vs : List α} {is : List UInt32} (h : vs.mapM f e = .ok (is, e')) :
    e.Interned e' ∧ ∀ {final}, e'.Reaches final → List.Forall₂ (P e.width final) is vs := by
  induction vs generalizing e is with
  | nil =>
    rw [List.mapM_nil] at h
    obtain ⟨rfl, rfl⟩ := state_pure_eq_ok.mp h
    exact ⟨.refl _, fun _ => .nil⟩
  | cons v vs ih =>
    obtain ⟨i, rest, e₁, hi, hrest, rfl⟩ := state_mapM_cons_eq_ok.mp h
    obtain ⟨hfirst, hv⟩ := hf hi
    obtain ⟨hafter, hvs⟩ := ih hrest
    refine ⟨hfirst.trans hafter, fun hfinal => .cons (hv (hafter.reaches hfinal)) ?_⟩
    rw [← hfirst.width]
    exact hvs hfinal

theorem init_eq_ok {t : Tables} {u : Unit} : init t e = .ok (u, e') ↔
    ∃ images strings floatLists e₁ e₂ e₃,
      t.images.mapM (fun v => interning (Interner.image v)) e = .ok (images, e₁) ∧
      t.strings.mapM (fun v => interning (Interner.string v)) e₁ = .ok (strings, e₂) ∧
      t.floatLists.mapM floats e₂ = .ok (floatLists, e₃) ∧
      e' = { e₃ with
        images := images.toArray
        strings := strings.toArray
        floatLists := floatLists.toArray } := by
  constructor
  · intro h
    obtain ⟨images, e₁, himages, h⟩ := state_bind_eq_ok.mp h
    obtain ⟨strings, e₂, hstrings, h⟩ := state_bind_eq_ok.mp h
    obtain ⟨floatLists, e₃, hfloatLists, h⟩ := state_bind_eq_ok.mp h
    exact ⟨images, strings, floatLists, e₁, e₂, e₃, himages, hstrings, hfloatLists,
      state_modify_eq_ok.mp h⟩
  · rintro ⟨images, strings, floatLists, e₁, e₂, e₃, himages, hstrings, hfloatLists, rfl⟩
    exact state_bind_eq_ok.mpr ⟨images, e₁, himages,
      state_bind_eq_ok.mpr ⟨strings, e₂, hstrings,
        state_bind_eq_ok.mpr ⟨floatLists, e₃, hfloatLists, rfl⟩⟩⟩

/-- The places of the given tables stand for their entries, numbers rounded. -/
structure Places (e : Encoder) (final : TableSet) (t : Tables) : Prop where
  images : List.Forall₂ (fun i v => final.image i = .ok v) e.images.toList t.images
  strings : List.Forall₂ (fun i v => final.string i = .ok v) e.strings.toList t.strings
  floatLists : List.Forall₂ (fun i v => final.floatList i = .ok v) e.floatLists.toList
    (t.round e.width).floatLists

theorem init_spec {t : Tables} {u : Unit} (h : init t e = .ok (u, e')) :
    e' = { e with
      interner := e'.interner
      images := e'.images
      strings := e'.strings
      floatLists := e'.floatLists } ∧
      e.tables.Grows e.width e'.tables ∧ ∀ {final}, e'.Reaches final → e'.Places final t := by
  obtain ⟨images, strings, floatLists, e₁, e₂, e₃, himages, hstrings, hfloatLists, rfl⟩ :=
    init_eq_ok.mp h
  obtain ⟨h₁, himages⟩ := mapM_spec (P := fun _ final i v => final.image i = .ok v)
    (fun h => image_spec h) himages
  obtain ⟨h₂, hstrings⟩ := mapM_spec (P := fun _ final i v => final.string i = .ok v)
    (fun h => string_spec h) hstrings
  obtain ⟨h₃, hfloatLists⟩ := mapM_spec
    (P := fun width final i v => final.floatList i = .ok (v.map width.round))
    (fun h => floats_spec h) hfloatLists
  have hall := (h₁.trans h₂).trans h₃
  refine ⟨?_, hall.grown, fun hfinal => ?_⟩
  · dsimp only
    rw [hall.same]
  · have hfinal₃ : e₃.Reaches _ := ⟨hfinal.extended, hfinal.indexable⟩
    refine ⟨himages ((h₂.trans h₃).reaches hfinal₃), hstrings (h₃.reaches hfinal₃), ?_⟩
    have hlists := hfloatLists hfinal₃
    rw [(h₁.trans h₂).width] at hlists
    show List.Forall₂ _ floatLists (t.floatLists.map fun xs => xs.map e₃.width.round)
    rw [List.forall₂_map_right_iff, hall.width]
    exact hlists

end Encoder

end VectorImage
