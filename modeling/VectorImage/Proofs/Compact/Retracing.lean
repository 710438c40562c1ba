import VectorImage.Proofs.Compact.Encoding
import VectorImage.Proofs.Compact.Held
import VectorImage.Proofs.Compact.Progress

/-!
Encoding what an encoding reads back as. One encoder has written a stream; another is given all of
its images, strings and float lists, and then the calls that its bytes read back as. The second finds
the numbers of every call where the first ended up with them, and meets the transforms and paths in
the order in which the first did: it retraces the first, and writes the same instructions.
-/

set_option autoImplicit false
set_option relaxedAutoImplicit false

namespace VectorImage

open VectorImage.Compact

/-- Tables as encoding leaves them: no entries are equal, the width keeps all numbers, and every
index has a successor. -/
structure TableSet.Finished (width : FloatWidth) (t : TableSet) : Prop where
  tidy : ∃ n, t.Tidy n
  stored : t.Stored width
  indexable : t.Indexable

/-! What interning into one table of a set does to the others, and with equal tables. -/

/-- `put` puts a table in the place of the one that `pick` takes from a set. -/
structure TableSet.Slot {α : Type} (pick : TableSet → CanonicalTable α)
    (put : TableSet → CanonicalTable α → TableSet) : Prop where
  pick_put : ∀ t table, pick (put t table) = table
  put_pick : ∀ t, put t (pick t) = t
  put_put : ∀ t table table', put (put t table) table' = put t table'

namespace TableSet

theorem slot_images : Slot TableSet.images fun t table => { t with images := table } :=
  ⟨fun _ _ => rfl, fun _ => rfl, fun _ _ _ => rfl⟩

theorem slot_strings : Slot TableSet.strings fun t table => { t with strings := table } :=
  ⟨fun _ _ => rfl, fun _ => rfl, fun _ _ _ => rfl⟩

theorem slot_floatLists : Slot TableSet.floatLists fun t table => { t with floatLists := table } :=
  ⟨fun _ _ => rfl, fun _ => rfl, fun _ _ _ => rfl⟩

theorem slot_transforms : Slot TableSet.transforms fun t table => { t with transforms := table } :=
  ⟨fun _ _ => rfl, fun _ => rfl, fun _ _ _ => rfl⟩

theorem slot_paths : Slot TableSet.paths fun t table => { t with paths := table } :=
  ⟨fun _ _ => rfl, fun _ => rfl, fun _ _ _ => rfl⟩

end TableSet

namespace Interner

variable {α : Type} [Keyed α] {pick : TableSet → CanonicalTable α}
  {put : TableSet → CanonicalTable α → TableSet} {v : α} {n n' m : Interner} {i : UInt32}

/-- What pushing into the one table leaves as it is. -/
theorem intern_frame (h : intern pick put v n = .ok (i, n')) {β : Type} (get : TableSet → β)
    (hget : ∀ t table, get (put t table) = get t) : get n'.shared.value = get n.shared.value := by
  rcases intern_cases h with ⟨k, -, -, rfl⟩ | ⟨-, -, -, hvalue⟩
  · rfl
  · rw [hvalue, hget]

/-- What an interner answers depends on the one table alone. -/
theorem intern_again (hslot : TableSet.Slot pick put)
    (hsame : pick m.shared.value = pick n.shared.value) (h : intern pick put v n = .ok (i, n')) :
    ∃ m', intern pick put v m = .ok (i, m') ∧
      m'.shared.value = put m.shared.value (pick n'.shared.value) := by
  rcases intern_cases h with ⟨k, hk, rfl, rfl⟩ | ⟨hnew, hroom, rfl, hvalue⟩
  · rw [← hsame] at hk ⊢
    exact ⟨m, intern_of_find hk, (hslot.put_pick _).symm⟩
  · rw [hvalue, hslot.pick_put, ← hsame]
    rw [← hsame] at hnew hroom
    exact intern_of_new pick put hnew hroom

end Interner

namespace Encoder

variable {e e₁ e' f : Encoder} {final : TableSet} {i : UInt32}

/-- What interning through an encoder leaves as it is. -/
theorem interning_frame {α : Type} [Keyed α] {pick : TableSet → CanonicalTable α}
    {put : TableSet → CanonicalTable α → TableSet} {v : α}
    (h : interning (Interner.intern pick put v) e = .ok (i, e')) {β : Type} (get : TableSet → β)
    (hget : ∀ t table, get (put t table) = get t) : get e'.tables = get e.tables := by
  obtain ⟨n, hn, rfl⟩ := interning_eq_ok.mp h
  exact Interner.intern_frame hn get hget

/-- Numbers are no transforms and no paths. -/
theorem floats_only {xs : List Binary64} (h : floats xs e = .ok (i, e')) :
    e'.tables.transforms = e.tables.transforms ∧ e'.tables.paths = e.tables.paths :=
  ⟨interning_frame (floats_eq_ok.mp h) TableSet.transforms fun _ _ => rfl,
    interning_frame (floats_eq_ok.mp h) TableSet.paths fun _ _ => rfl⟩

theorem path_only {p : Path} (h : path p e = .ok (i, e')) :
    e'.tables.transforms = e.tables.transforms :=
  interning_frame (path_eq_ok.mp h) TableSet.transforms fun _ _ => rfl

theorem transform_only {m : Option Affine} {k : Option UInt32}
    (h : transform m e = .ok (k, e')) : e'.tables.paths = e.tables.paths := by
  cases m with
  | none =>
    obtain ⟨rfl, rfl⟩ := state_pure_eq_ok.mp h
    rfl
  | some m =>
    obtain ⟨i, hi, rfl⟩ := transform_some_eq_ok.mp h
    exact interning_frame hi TableSet.paths fun _ _ => rfl

/-- The encoder `f` has been given the images, strings and float lists that `e` will end with, every
index its own place, and has come as far as `e`: it has met the same transforms and paths in the same
order, has registered the same gradients and has written the same. What `e` has registered has its
transform in the tables. -/
structure Retraces (final : TableSet) (e f : Encoder) : Prop where
  finished : final.Finished e.width
  stored : e.tables.Stored e.width
  same : f = { e with
    interner := f.interner
    images := f.images
    strings := f.strings
    floatLists := f.floatLists }
  tables : f.tables = { final with
    transforms := e.tables.transforms
    paths := e.tables.paths }
  images : ∀ {i v}, final.image i = .ok v → lookup f.images .image i = .ok i
  strings : ∀ {i v}, final.string i = .ok v → lookup f.strings .string i = .ok i
  floatLists : ∀ {i v}, final.floatList i = .ok v → lookup f.floatLists .floatList i = .ok i
  held : ∀ g ∈ e.gradients.entries, ∀ m, g.transform = some m → m ∈ e.tables.transforms.entries

namespace Retraces

theorem width (h : Retraces final e f) : f.width = e.width := by rw [h.same]

private theorem stored_interned (h : Retraces final e f) (hinterned : e.Interned e₁) :
    e₁.tables.Stored e₁.width := by
  rw [hinterned.width]
  exact hinterned.grown.stored h.stored

/-- The first encoder interns what is no transform and no path. -/
private theorem interned (h : Retraces final e f) (hinterned : e.Interned e₁)
    (htransforms : e₁.tables.transforms = e.tables.transforms)
    (hpaths : e₁.tables.paths = e.tables.paths) : Retraces final e₁ f := by
  refine ⟨hinterned.width.symm ▸ h.finished, h.stored_interned hinterned, ?_, ?_, h.images,
    h.strings, h.floatLists, ?_⟩
  · rw [hinterned.same]
    exact h.same
  · rw [htransforms, hpaths]
    exact h.tables
  · rw [htransforms, hinterned.same]
    exact h.held

/-- The transforms that `e` has registered stay in the tables. -/
private theorem held_interned (h : Retraces final e f) (hinterned : e.Interned e₁) :
    ∀ g ∈ e₁.gradients.entries, ∀ m, g.transform = some m → m ∈ e₁.tables.transforms.entries := by
  have hgradients : e₁.gradients = e.gradients := by rw [hinterned.same]
  rw [hgradients]
  intro g hg m hm
  obtain ⟨i, hi⟩ := Array.mem_iff_getElem?.mp (h.held g hg m hm)
  exact Array.mem_of_getElem? (hinterned.grown.extended.transforms hi)

/-- The numbers that `e` has interned are found among all that it will end with. -/
theorem floats (h : Retraces final e f) {xs : List Binary64}
    (hxs : Encoder.floats xs e = .ok (i, e₁)) (hreach : e₁.Reaches final) :
    Encoder.floats (xs.map e.width.round) f = .ok (i, f) ∧ Retraces final e₁ f := by
  obtain ⟨hinterned, hentry⟩ := floats_spec hxs
  obtain ⟨htransforms, hpaths⟩ := floats_only hxs
  refine ⟨?_, h.interned hinterned htransforms hpaths⟩
  have hfloats : final.HoldsFloats (xs.map e.width.round) := ⟨i, hentry hreach⟩
  obtain ⟨n, htidy⟩ := h.finished.tidy
  have hfound := htidy.floatLists.find?_eq (lookup_eq_ok_iff.mp (hentry hreach))
  rw [show final.floatLists = f.tables.floatLists by rw [h.tables]] at hfound
  have hhit : Interner.floatList (xs.map e.width.round) f.interner =
      .ok (UInt32.ofNat i.toNat, f.interner) := Interner.intern_of_find hfound
  rw [UInt32.ofNat_toNat] at hhit
  refine floats_eq_ok.mpr (interning_eq_ok.mpr ⟨f.interner, ?_, rfl⟩)
  rw [h.width, hfloats.map_round h.finished.stored]
  exact hhit

/-- A transform is new to both or to neither. -/
theorem transform (h : Retraces final e f) {m : Option Affine} {k : Option UInt32}
    (hm : Encoder.transform m e = .ok (k, e₁)) :
    ∃ f₁, Encoder.transform (m.map (Affine.round e.width)) f = .ok (k, f₁) ∧
      Retraces final e₁ f₁ := by
  cases m with
  | none =>
    obtain ⟨rfl, rfl⟩ := state_pure_eq_ok.mp hm
    exact ⟨f, rfl, h⟩
  | some m =>
    have hinterned := (transform_spec hm).1
    have hpaths := transform_only hm
    obtain ⟨i, hi, rfl⟩ := transform_some_eq_ok.mp hm
    obtain ⟨n, hn, rfl⟩ := interning_eq_ok.mp hi
    have hsame : f.tables.transforms = e.tables.transforms := by rw [h.tables]
    obtain ⟨n', hn', hvalue⟩ := Interner.intern_again TableSet.slot_transforms hsame hn
    refine ⟨{ f with interner := n' }, transform_some_eq_ok.mpr ⟨i, ?_, rfl⟩, h.finished,
      h.stored_interned hinterned, ?_, ?_, h.images, h.strings, h.floatLists,
      h.held_interned hinterned⟩
    · have hround : (m.round e.width).round f.width = m.round e.width := by
        rw [h.width, Affine.round_of_kept _ m.keeps_round]
      rw [hround]
      exact interning_eq_ok.mpr ⟨n', hn', rfl⟩
    · exact congrArg (fun u : Encoder => { u with interner := n' }) h.same
    · rw [hpaths]
      refine hvalue.trans ?_
      rw [show f.interner.shared.value = _ from h.tables]

theorem path (h : Retraces final e f) {p : Path} (hp : Encoder.path p e = .ok (i, e₁)) :
    ∃ f₁, Encoder.path (p.round e.width) f = .ok (i, f₁) ∧ Retraces final e₁ f₁ := by
  have hinterned := (path_spec hp).1
  have htransforms := path_only hp
  obtain ⟨n, hn, rfl⟩ := interning_eq_ok.mp (path_eq_ok.mp hp)
  have hsame : f.tables.paths = e.tables.paths := by rw [h.tables]
  obtain ⟨n', hn', hvalue⟩ := Interner.intern_again TableSet.slot_paths hsame hn
  refine ⟨{ f with interner := n' }, path_eq_ok.mpr ?_, h.finished, h.stored_interned hinterned, ?_, ?_,
    h.images, h.strings, h.floatLists, h.held_interned hinterned⟩
  · have hround : (p.round e.width).round f.width = p.round e.width := by
      rw [h.width, Path.round_of_kept _ p.keeps_round]
    rw [hround]
    exact interning_eq_ok.mpr ⟨n', hn', rfl⟩
  · exact congrArg (fun u : Encoder => { u with interner := n' }) h.same
  · rw [htransforms]
    refine hvalue.trans ?_
    rw [show f.interner.shared.value = _ from h.tables]

/-! Calls. -/

private theorem source_eq {s s' : PaintSource} (h : s.Renames e.renaming s') : s' = s := by
  cases h with
  | solid c => rfl
  | gradient hid =>
    cases hid
    rfl

/-- What `e` has placed has its own place in `f`. -/
private theorem optPlaces {places own : Array UInt32} {kind : TableKind} {P : UInt32 → Prop}
    (hplaced : ∀ k j, lookup places kind k = .ok j → P j)
    (hown : ∀ j, P j → lookup own kind j = .ok j) {id code id' : Option UInt32}
    (hcode : Option.Rel (fun k j => lookup places kind k = .ok j) id code)
    (hrenames : Option.Rel (fun k j => lookup places kind k = .ok j) id id') :
    Option.Rel (fun k j => lookup own kind k = .ok j) id' code := by
  cases hcode with
  | none =>
    cases hrenames
    exact .none
  | some hj =>
    cases hrenames with
    | some hj' =>
      cases hj.symm.trans hj'
      exact .some (hown _ (hplaced _ _ hj))

private theorem stroke (h : Retraces final e f) (hplaced : e.Placed final) {s s' : Stroke}
    {code : StrokeCode} (hs : Encoder.stroke s e = .ok (code, e₁)) (hreach : e₁.Reaches final)
    (hrenames : (s.round e.width).Renames e.renaming s') :
    Encoder.stroke s' f = .ok (code, f) ∧ Retraces final e₁ f := by
  obtain ⟨params, e₂, hparams, hs⟩ := state_bind_eq_ok.mp hs
  obtain ⟨dash, e₃, hdash, hs⟩ := state_bind_eq_ok.mp hs
  obtain ⟨rfl, rfl⟩ := state_pure_eq_ok.mp hs
  obtain ⟨rfl, hdash⟩ := optPlaced_eq_ok.mp hdash
  rw [(floats_spec hparams).1.same] at hdash
  obtain ⟨hparams, hretraces⟩ := h.floats hparams hreach
  obtain ⟨source, width, cap, join, miterLimit, dash', dashOffset⟩ := s'
  obtain ⟨hsource, hwidth, hcap, hjoin, hmiter, hrename, hoffset⟩ := hrenames
  dsimp only at hsource hwidth hcap hjoin hmiter hrename hoffset
  obtain rfl := source_eq hsource
  cases hwidth
  cases hcap
  cases hjoin
  cases hmiter
  cases hoffset
  have hown := optPlaces (P := fun j => ∃ v, final.floatList j = .ok v) hplaced.floatLists
    (fun j ⟨v, hv⟩ => h.floatLists hv) hdash hrename
  exact ⟨state_bind_eq_ok.mpr ⟨_, _, hparams, state_bind_eq_ok.mpr ⟨_, _,
    optPlaced_eq_ok.mpr ⟨rfl, hown⟩, rfl⟩⟩, hretraces⟩

private theorem paint (h : Retraces final e f) (hplaced : e.Placed final) {p p' : Paint}
    {code : PaintCode} (hp : Encoder.paint p e = .ok (code, e₁)) (hreach : e₁.Reaches final)
    (hrenames : (p.round e.width).Renames e.renaming p') :
    Encoder.paint p' f = .ok (code, f) ∧ Retraces final e₁ f := by
  obtain ⟨strokeCode, e₂, hstroke, hp⟩ := state_bind_eq_ok.mp hp
  obtain ⟨rfl, rfl⟩ := state_pure_eq_ok.mp hp
  obtain ⟨fill, stroke⟩ := p
  obtain ⟨fill', stroke'⟩ := p'
  obtain ⟨hfill, hrename⟩ := hrenames
  have hsame : fill' = fill := by
    cases hfill with
    | none => rfl
    | @some g g' hg =>
      obtain ⟨source, rule⟩ := g
      obtain ⟨source', rule'⟩ := g'
      obtain ⟨hsource, hrule⟩ := hg
      cases hrule
      exact congrArg some (congrArg (Fill.mk · rule) (source_eq hsource))
  cases stroke with
  | none =>
    cases hrename
    obtain ⟨rfl, rfl⟩ := state_pure_eq_ok.mp hstroke
    exact ⟨state_bind_eq_ok.mpr ⟨_, _, rfl, by rw [hsame]; rfl⟩, h⟩
  | some s =>
    obtain ⟨code, hcode, rfl⟩ := state_map_eq_ok.mp hstroke
    cases hrename with
    | some hs =>
      obtain ⟨hcode', hretraces⟩ := h.stroke hplaced hcode hreach hs
      refine ⟨state_bind_eq_ok.mpr ⟨_, _, state_map_eq_ok.mpr ⟨_, hcode', rfl⟩, ?_⟩, hretraces⟩
      rw [hsame]
      rfl

private theorem geometry (h : Retraces final e f) {g : Geometry} {code : GeometryCode}
    (hg : Encoder.geometry g e = .ok (code, e₁)) (hreach : e₁.Reaches final) :
    ∃ f₁, Encoder.geometry (g.round e.width) f = .ok (code, f₁) ∧ Retraces final e₁ f₁ := by
  cases g with
  | path p =>
    obtain ⟨i, hi, rfl⟩ := state_map_eq_ok.mp hg
    obtain ⟨f₁, hi', hretraces⟩ := h.path hi
    exact ⟨f₁, state_map_eq_ok.mpr ⟨i, hi', rfl⟩, hretraces⟩
  | rect g =>
    obtain ⟨i, hi, rfl⟩ := state_map_eq_ok.mp hg
    obtain ⟨hi', hretraces⟩ := h.floats hi hreach
    rw [← g.toFloats_round] at hi'
    exact ⟨f, state_map_eq_ok.mpr ⟨i, hi', rfl⟩, hretraces⟩
  | ellipse g =>
    obtain ⟨i, hi, rfl⟩ := state_map_eq_ok.mp hg
    obtain ⟨hi', hretraces⟩ := h.floats hi hreach
    rw [← g.toFloats_round] at hi'
    exact ⟨f, state_map_eq_ok.mpr ⟨i, hi', rfl⟩, hretraces⟩
  | poly g =>
    obtain ⟨i, e₂, hi, hg⟩ := state_bind_eq_ok.mp hg
    obtain ⟨rfl, rfl⟩ := state_pure_eq_ok.mp hg
    obtain ⟨hi', hretraces⟩ := h.floats hi hreach
    rw [← g.toFloats_round] at hi'
    exact ⟨f, state_bind_eq_ok.mpr ⟨i, f, hi', rfl⟩, hretraces⟩

/-- A transform after other values of a call. -/
private theorem transform_after (h : Retraces final e₁ f) (hinterned : e.Interned e₁)
    {m m' : Option Affine} {k : Option UInt32} (hm : Encoder.transform m e₁ = .ok (k, e'))
    (hrename : m.map (Affine.round e.width) = m') :
    ∃ f₁, Encoder.transform m' f = .ok (k, f₁) ∧ Retraces final e' f₁ := by
  rw [← hrename, ← hinterned.width]
  exact h.transform hm

/-- A paint after other values of a call. -/
private theorem paint_after (h : Retraces final e₁ f) (hinterned : e.Interned e₁)
    (hplaced : e.Placed final) {p p' : Paint} {code : PaintCode}
    (hp : Encoder.paint p e₁ = .ok (code, e')) (hreach : e'.Reaches final)
    (hrenames : (p.round e.width).Renames e.renaming p') :
    Encoder.paint p' f = .ok (code, f) ∧ Retraces final e' f := by
  rw [← hinterned.width, ← hinterned.renaming] at hrenames
  exact h.paint (hplaced.of_renaming hinterned.renaming) hp hreach hrenames

/-- What the instruction of a call reads back as is prepared to the same instruction. -/
theorem prepares (h : Retraces final e f) (hplaced : e.Placed final) {call call' : Call}
    {instruction : Instruction} (hp : e.Prepares call instruction e') (hreach : e'.Reaches final)
    (hrenames : (call.round e.width).Renames e.renaming call') :
    ∃ f', f.Prepares call' instruction f' ∧ Retraces final e' f' := by
  have himages (k j : UInt32) (hj : lookup e.images .image k = .ok j) :
      lookup f.images .image j = .ok j := by
    obtain ⟨v, hv⟩ := hplaced.images k j hj
    exact h.images hv
  have hstrings (k j : UInt32) (hj : lookup e.strings .string k = .ok j) :
      lookup f.strings .string j = .ok j := by
    obtain ⟨v, hv⟩ := hplaced.strings k j hj
    exact h.strings hv
  have hnames {id code id' : Option UInt32} (hcode : e.NamePlaced id code)
      (hrename : Option.Rel e.renaming.strings id id') : f.NamePlaced id' code :=
    optPlaces (P := fun j => lookup f.strings .string j = .ok j) hstrings (fun _ hj => hj) hcode
      hrename
  cases hp with
  | endGroup =>
    cases hrenames
    exact ⟨f, .endGroup, h⟩
  | beginMask =>
    cases hrenames
    exact ⟨f, .beginMask, h⟩
  | maskContent =>
    cases hrenames
    exact ⟨f, .maskContent, h⟩
  | endMask =>
    cases hrenames
    exact ⟨f, .endMask, h⟩
  | @gradient g geometry offsets t e₁ _ hgeometry hoffsets htransform =>
    obtain ⟨k, rfl, hkind, hplace, hcolors, hspread, hrename⟩ := hrenames.of_gradient
    have hinterned := (floats_spec hgeometry).1
    obtain ⟨v, hv⟩ := hplaced.floatLists _ _ hoffsets
    cases hoffsets.symm.trans hplace
    obtain ⟨hgeometry, h₁⟩ := h.floats hgeometry
      ((transform_spec htransform).1.reaches hreach)
    obtain ⟨f', htransform, h₂⟩ := h₁.transform_after hinterned htransform hrename
    rw [← GradientKind.toFloats_map, show g.kind.map e.width.round = k.kind from hkind] at hgeometry
    have hcode : k.kind.code = g.kind.code := by
      rw [← hkind]
      show (g.kind.map e.width.round).code = g.kind.code
      cases g.kind <;> rfl
    refine ⟨f', ?_, h₂⟩
    rw [← hcode, show g.colors = k.colors from hcolors, show g.spread = k.spread from hspread]
    exact .gradient hgeometry (h.floatLists hv) htransform
  | @beginGroup attrs _ _ _ htransform hexport =>
    cases hrenames with
    | @beginGroup _ attrs' hrename halpha hid =>
      obtain ⟨f', htransform, h₁⟩ := h.transform_after (.refl e) htransform hrename
      refine ⟨f', ?_, h₁⟩
      rw [show attrs.alpha = attrs'.alpha from halpha]
      exact .beginGroup htransform (hnames hexport hid)
  | clip hpath htransform =>
    cases hrenames
    obtain ⟨f₁, hpath', h₁⟩ := h.path hpath
    obtain ⟨f', htransform, h₂⟩ := h₁.transform_after (path_spec hpath).1 htransform rfl
    exact ⟨f', .clip hpath' htransform, h₂⟩
  | shape hgeometry hpaint htransform =>
    cases hrenames with
    | shape houtline hrename hm =>
      have hfirst := (geometry_spec hgeometry).1
      have hsecond := (paint_spec hpaint).1
      have hlast := (transform_spec htransform).1.reaches hreach
      obtain ⟨f₁, hgeometry, h₁⟩ := h.geometry hgeometry (hsecond.reaches hlast)
      obtain ⟨hpaint, h₂⟩ := h₁.paint_after hfirst hplaced hpaint hlast hrename
      obtain ⟨f', htransform, h₃⟩ := h₂.transform_after (hfirst.trans hsecond) htransform hm
      rw [show Geometry.round _ _ = _ from houtline] at hgeometry
      exact ⟨f', .shape hgeometry hpaint htransform, h₃⟩
  | image himage hdest htransform =>
    cases hrenames with
    | image hplace hrename hm =>
      cases himage.symm.trans hplace
      obtain ⟨hdest', h₁⟩ := h.floats hdest ((transform_spec htransform).1.reaches hreach)
      obtain ⟨f', htransform, h₂⟩ := h₁.transform_after (floats_spec hdest).1 htransform hm
      refine ⟨f', .image (himages _ _ himage) ?_ htransform, h₂⟩
      rw [← hrename]
      exact hdest'
  | @text leaf _ _ _ _ _ _ _ _ htext hfamily hparams hpaint htransform =>
    cases hrenames with
    | @text _ leaf' hleaf =>
      obtain ⟨hplace, hname, hsize, horigin, hanchor, hrename, hm⟩ := hleaf
      cases htext.symm.trans hplace
      have hfirst := (floats_spec hparams).1
      have hsecond := (paint_spec hpaint).1
      have hlast := (transform_spec htransform).1.reaches hreach
      obtain ⟨hparams, h₁⟩ := h.floats hparams (hsecond.reaches hlast)
      obtain ⟨hpaint, h₂⟩ := h₁.paint_after hfirst hplaced hpaint hlast hrename
      obtain ⟨f', htransform, h₃⟩ := h₂.transform_after (hfirst.trans hsecond) htransform hm
      refine ⟨f', ?_, h₃⟩
      rw [show leaf.anchor = leaf'.anchor from hanchor]
      refine .text (hstrings _ _ htext) (hnames hfamily hname) ?_ hpaint htransform
      rw [← hsize, ← horigin]
      exact hparams
  | use htarget htransform =>
    cases hrenames with
    | use hplace hm =>
      cases htarget.symm.trans hplace
      obtain ⟨f', htransform, h₁⟩ := h.transform_after (.refl e) htransform hm
      exact ⟨f', .use (hstrings _ _ htarget) htransform, h₁⟩

/-- A gradient that has been registered already has nothing that is new to the tables but numbers. -/
theorem registered (h : Retraces final e f) {g : Gradient} {offsets : UInt32}
    {instruction : Instruction} (hp : e.Prepares (.gradient g) instruction e')
    (hmem : e.canonical g offsets ∈ e.gradients.entries) : Retraces final e' f := by
  have hinterned := hp.interned
  cases hp with
  | @gradient _ _ _ _ e₁ _ hgeometry _ htransform =>
    obtain ⟨htransforms, hpaths⟩ := floats_only hgeometry
    refine h.interned hinterned (.trans ?_ htransforms) ((transform_only htransform).trans hpaths)
    cases hm : g.transform with
    | none =>
      rw [hm] at htransform
      obtain ⟨-, rfl⟩ := state_pure_eq_ok.mp htransform
      rfl
    | some m =>
      rw [hm] at htransform
      obtain ⟨i, hi, -⟩ := transform_some_eq_ok.mp htransform
      obtain ⟨n, hn, rfl⟩ := interning_eq_ok.mp hi
      have hheld : m.round e.width ∈ e.tables.transforms.entries :=
        h.held _ hmem _ (congrArg (Option.map (Affine.round e.width)) hm)
      obtain ⟨k, hk⟩ := h.stored.transforms.bucketed.find?_progress hheld
      rw [← htransforms, ← (floats_spec hgeometry).1.width] at hk
      rcases Interner.intern_cases hn with ⟨-, -, -, rfl⟩ | ⟨hnew, -⟩
      · rfl
      · cases hk.symm.trans hnew

/-- One more gradient is registered once its transform is in the tables. -/
theorem held_push (h : Retraces final e f) {g : Gradient} {offsets : UInt32}
    {instruction : Instruction} (hp : e.Prepares (.gradient g) instruction e')
    (hreach : e'.Reaches final) : ∀ k ∈ (e.gradients.push (e.canonical g offsets)).entries,
      ∀ m, k.transform = some m → m ∈ e'.tables.transforms.entries := by
  intro k hk m hm
  rw [CanonicalTable.entries_push] at hk
  rcases Array.mem_push.mp hk with hk | rfl
  · have hgradients : e'.gradients = e.gradients := by rw [hp.interned.same]
    exact h.held_interned hp.interned k (hgradients.symm ▸ hk) m hm
  · have hcodes := hp.codes ⟨.refl _, hreach.indexable.of_extendedBy hreach.extended⟩
    cases hcodes with
    | gradient _ _ htransform =>
      rw [TransformCodes, show g.transform.map (Affine.round e.width) = some m from hm]
        at htransform
      cases htransform with
      | some hentry => exact Array.mem_of_getElem? (lookup_eq_ok_iff.mp hentry)

theorem writes (h : Retraces final e f) (ops : Array UInt8) :
    Retraces final { e with ops := ops } { f with ops := ops } :=
  ⟨h.finished, h.stored, congrArg (fun u : Encoder => { u with ops := ops }) h.same, h.tables,
    h.images, h.strings, h.floatLists, h.held⟩

theorem documented (h : Retraces final e f) (d : Document) :
    Retraces final { e with document := d } { f with document := d } :=
  ⟨h.finished, h.stored, congrArg (fun u : Encoder => { u with document := d }) h.same, h.tables,
    h.images, h.strings, h.floatLists, h.held⟩

theorem registers (h : Retraces final e f) {gradients : CanonicalTable Gradient}
    (hheld : ∀ g ∈ gradients.entries, ∀ m, g.transform = some m →
      m ∈ e.tables.transforms.entries) :
    Retraces final { e with gradients := gradients } { f with gradients := gradients } :=
  ⟨h.finished, h.stored, congrArg (fun u : Encoder => { u with gradients := gradients }) h.same,
    h.tables, h.images, h.strings, h.floatLists, hheld⟩

/-- What a gradient is registered under is registered under itself. -/
theorem canonical_canonical (h : Retraces final e f) (g : Gradient) (offsets : UInt32) :
    f.canonical (e.canonical g offsets) offsets = e.canonical g offsets := by
  rw [canonical, h.width]
  exact congrArg (fun k : Gradient => { k with offsets := offsets }) g.round_round

end Retraces

end Encoder

end VectorImage
