import VectorImage.Proofs.Compact.Held
import VectorImage.Proofs.Compact.Trail

/-!
Encoding into tables that hold every value already. Each value is found, at the first of its
positions, so nothing is pushed and the tables stay the instance that they are. No index is higher
than the one it is looked up by, so that every optional index can be stored, even in full tables.
-/

set_option autoImplicit false
set_option relaxedAutoImplicit false

namespace VectorImage

/-- A value that is an entry at some index is found, and nothing is pushed. -/
private theorem Interner.intern_hit {α : Type} [Keyed α] {pick : TableSet → CanonicalTable α}
    {put : TableSet → CanonicalTable α → TableSet} {v : α} {n n' : Interner} {i : UInt32}
    (hbuilt : (pick n.shared.value).Built) {j : Nat} (hlt : j < 2 ^ 32)
    (hj : (pick n.shared.value).entries[j]? = some v) (h : intern pick put v n = .ok (i, n')) :
    n' = n ∧ (pick n.shared.value).find? v = some i.toNat := by
  obtain ⟨k, hk⟩ := hbuilt.bucketed.find?_progress (Array.mem_of_getElem? hj)
  cases (intern_of_find hk).symm.trans h
  rw [toNat_ofNat_of_lt (Nat.lt_of_le_of_lt (hbuilt.find?_le hk hj) hlt)]
  exact ⟨rfl, hk⟩

/-- Where a value is found, it is the entry. -/
theorem CanonicalTable.lookup_of_find? {α : Type} [Keyed α] [LawfulKeyed α] {table : CanonicalTable α}
    {kind : TableKind} {v : α} {i : UInt32} (h : table.find? v = some i.toNat) :
    lookup table.entries kind i = .ok v := lookup_eq_ok_iff.mpr (find?_entry h)

namespace Encoder

open VectorImage.Compact

/-- The place of a list of numbers is the first of the positions at which the list stands in `t`. -/
def FirstPlaces (t : TableSet) (e : Encoder) : Prop :=
  ∀ {k j}, lookup e.floatLists .floatList k = .ok j →
    ∃ xs, t.floatList k = .ok xs ∧ t.floatLists.find? xs = some j.toNat

/-- An encoder whose tables are `t`, which can be stored; no place is behind the index that it was
given for. -/
structure Seeded (t : TableSet) (e : Encoder) : Prop where
  tables : e.tables = t
  stored : t.Stored e.width
  strings : ∀ {k j}, lookup e.strings .string k = .ok j → j.toNat ≤ k.toNat
  floatLists : e.FirstPlaces t

variable {t : TableSet} {e e' : Encoder}

/-! Values. -/

private theorem interning_hit {m : StateT Interner (Except Error) UInt32} {i : UInt32} {P : Prop}
    (hhit : ∀ {n : Interner}, m e.interner = .ok (i, n) → n = e.interner ∧ P)
    (h : interning m e = .ok (i, e')) : e' = e ∧ P := by
  obtain ⟨n, hm, rfl⟩ := interning_eq_ok.mp h
  obtain ⟨rfl, hp⟩ := hhit hm
  exact ⟨rfl, hp⟩

namespace Seeded

variable {i : UInt32}

private theorem find_floats (he : e.Seeded t) {xs : List Binary64} (hxs : t.HoldsFloats xs)
    (h : floats xs e = .ok (i, e')) : e' = e ∧ t.floatLists.find? xs = some i.toNat := by
  have hround := hxs.map_round he.stored
  have hinterning := floats_eq_ok.mp h
  obtain ⟨j, hj⟩ := hxs
  have hbuilt : t.floatLists.Built := he.stored.floatLists
  have hentry := lookup_eq_ok_iff.mp hj
  rw [hround] at hinterning
  rw [← he.tables] at hentry hbuilt ⊢
  exact interning_hit (Interner.intern_hit hbuilt j.toNat_lt hentry) hinterning

private theorem floats (he : e.Seeded t) {xs : List Binary64} (hxs : t.HoldsFloats xs)
    (h : floats xs e = .ok (i, e')) : e' = e ∧ t.floatList i = .ok (xs.map e.width.round) := by
  obtain ⟨rfl, hfound⟩ := he.find_floats hxs h
  rw [hxs.map_round he.stored]
  exact ⟨rfl, CanonicalTable.lookup_of_find? hfound⟩

private theorem path (he : e.Seeded t) {p : Path} (hp : t.HoldsPath p)
    (h : path p e = .ok (i, e')) : e' = e ∧ t.path i = .ok (p.round e.width) := by
  have hround := hp.round he.stored
  have hinterning := path_eq_ok.mp h
  obtain ⟨j, hj⟩ := hp
  have hbuilt : t.paths.Built := he.stored.paths
  have hentry := lookup_eq_ok_iff.mp hj
  rw [hround] at hinterning ⊢
  rw [← he.tables] at hentry hbuilt ⊢
  obtain ⟨rfl, hfound⟩ := interning_hit (Interner.intern_hit hbuilt j.toNat_lt hentry) hinterning
  exact ⟨rfl, CanonicalTable.lookup_of_find? hfound⟩

/-- The index of a transform is not behind any index that the transform stands at. -/
private theorem transform (he : e.Seeded t) {m : Option Affine} {k : Option UInt32}
    (hm : t.HoldsTransform m) (h : transform m e = .ok (k, e')) :
    e' = e ∧ TransformCodes e.width t m k ∧ (t.HoldsOptional m → OptFits k) := by
  have hround := hm.map_round he.stored
  cases m with
  | none =>
    obtain ⟨rfl, rfl⟩ := state_pure_eq_ok.mp h
    exact ⟨rfl, .none, fun _ _ hk => nomatch hk⟩
  | some a =>
    obtain ⟨i, hi, rfl⟩ := transform_some_eq_ok.mp h
    obtain ⟨j, hj⟩ := hm a rfl
    have hbuilt : t.transforms.Built := he.stored.transforms
    have hentry := lookup_eq_ok_iff.mp hj
    rw [← he.tables] at hentry hbuilt
    rw [show a.round e.width = a from Option.some.inj hround] at hi
    obtain ⟨rfl, hfound⟩ := interning_hit (Interner.intern_hit hbuilt j.toNat_lt hentry) hi
    refine ⟨rfl, .some ?_, fun hfits => ?_⟩
    · rw [show a.round e'.width = a from Option.some.inj hround, ← he.tables]
      exact CanonicalTable.lookup_of_find? hfound
    · rintro _ ⟨⟩
      obtain ⟨l, hl, hlt⟩ := hfits a rfl
      have hle := hbuilt.find?_le hfound (he.tables ▸ lookup_eq_ok_iff.mp hl)
      omega

/-- A transform at an index that is stored one higher. -/
private theorem transform_fits (he : e.Seeded t) {m : Option Affine} {k : Option UInt32}
    (hm : t.HoldsOptional m) (h : Encoder.transform m e = .ok (k, e')) :
    e' = e ∧ TransformCodes e.width t m k ∧ OptFits k := by
  obtain ⟨hsame, hcodes, hfits⟩ := he.transform hm.holds h
  exact ⟨hsame, hcodes, hfits hm⟩

/-- A place is not behind the index it was given for. -/
private theorem optFits {places : Array UInt32} {kind : TableKind} {id k : Option UInt32}
    (hplaces : ∀ {i j}, lookup places kind i = .ok j → j.toNat ≤ i.toNat) (hid : OptFits id)
    (h : Option.Rel (fun i j => lookup places kind i = .ok j) id k) : OptFits k := by
  cases h with
  | none => exact hid
  | @some i j hij =>
    rintro _ ⟨⟩
    have hle := hplaces hij
    have hlt := hid i rfl
    omega

private theorem stroke (he : e.Seeded t) {s : Stroke} {code : StrokeCode}
    (hparams : t.HoldsFloats [s.width, s.miterLimit, s.dashOffset]) (hdash : OptFits s.dash)
    (h : stroke s e = .ok (code, e')) :
    e' = e ∧ StrokeCodes e.width e.floatLists t s code ∧ OptFits code.dash := by
  obtain ⟨params, e₁, hfloats, h⟩ := state_bind_eq_ok.mp h
  obtain ⟨dash, e₂, hplaced, h⟩ := state_bind_eq_ok.mp h
  obtain ⟨rfl, rfl⟩ := state_pure_eq_ok.mp h
  obtain ⟨rfl, hfloats⟩ := he.floats hparams hfloats
  obtain ⟨rfl, hplaced⟩ := optPlaced_eq_ok.mp hplaced
  refine ⟨rfl, ⟨rfl, hfloats, rfl, rfl, hplaced⟩, optFits (fun hij => ?_) hdash hplaced⟩
  obtain ⟨xs, hxs, hfound⟩ := he.floatLists hij
  exact he.stored.floatLists.find?_le hfound (lookup_eq_ok_iff.mp hxs)

private theorem paint (he : e.Seeded t) {p : Paint} {code : PaintCode} (hp : p.HeldBy t)
    (h : paint p e = .ok (code, e')) :
    e' = e ∧ PaintCodes e.width e.floatLists t p code ∧ code.Fits := by
  obtain ⟨fill, s⟩ := p
  obtain ⟨strokeCode, e₁, hstroke, h⟩ := state_bind_eq_ok.mp h
  obtain ⟨rfl, rfl⟩ := state_pure_eq_ok.mp h
  cases s with
  | none =>
    obtain ⟨rfl, rfl⟩ := state_pure_eq_ok.mp hstroke
    exact ⟨rfl, ⟨rfl, .none⟩, fun _ hs => nomatch hs⟩
  | some s =>
    obtain ⟨code, hcode, rfl⟩ := state_map_eq_ok.mp hstroke
    obtain ⟨hparams, hdash⟩ := hp s rfl
    obtain ⟨rfl, hcodes, hfits⟩ := he.stroke hparams hdash hcode
    refine ⟨rfl, ⟨rfl, .some hcodes⟩, ?_⟩
    rintro _ ⟨⟩
    exact hfits

private theorem geometry (he : e.Seeded t) {g : Geometry} {code : GeometryCode} (hg : g.HeldBy t)
    (h : geometry g e = .ok (code, e')) : e' = e ∧ GeometryCodes e.width t g code := by
  cases g with
  | path p =>
    obtain ⟨i, hi, rfl⟩ := state_map_eq_ok.mp h
    obtain ⟨rfl, hentry⟩ := he.path hg hi
    exact ⟨rfl, .path hentry⟩
  | rect g =>
    obtain ⟨i, hi, rfl⟩ := state_map_eq_ok.mp h
    obtain ⟨rfl, hentry⟩ := he.floats hg hi
    exact ⟨rfl, .rect hentry⟩
  | ellipse g =>
    obtain ⟨i, hi, rfl⟩ := state_map_eq_ok.mp h
    obtain ⟨rfl, hentry⟩ := he.floats hg hi
    exact ⟨rfl, .ellipse hentry⟩
  | poly g =>
    obtain ⟨i, e₁, hi, h⟩ := state_bind_eq_ok.mp h
    obtain ⟨rfl, rfl⟩ := state_pure_eq_ok.mp h
    obtain ⟨rfl, hentry⟩ := he.floats hg hi
    refine ⟨rfl, .poly ?_⟩
    rw [PolyGeom.toFloats_round]
    exact hentry

/-! Calls. -/

/-- Preparing a call whose values are entries leaves the encoder as it is. -/
theorem prepares (he : e.Seeded t) {call : Call} {instruction : Instruction}
    (hcall : call.HeldBy t) (h : e.Prepares call instruction e') :
    e' = e ∧ e.Codes t call instruction ∧ instruction.Fits := by
  cases h with
  | endGroup => exact ⟨rfl, .endGroup, trivial⟩
  | beginMask => exact ⟨rfl, .beginMask, trivial⟩
  | maskContent => exact ⟨rfl, .maskContent, trivial⟩
  | endMask => exact ⟨rfl, .endMask, trivial⟩
  | gradient hgeometry hoffsets htransform =>
    obtain ⟨rfl, hgeometry⟩ := he.floats hcall.1 hgeometry
    obtain ⟨rfl, htransform, hfits⟩ := he.transform_fits hcall.2.1 htransform
    refine ⟨rfl, .gradient ?_ hoffsets htransform, hfits⟩
    rw [← GradientKind.toFloats_map] at hgeometry
    exact hgeometry
  | beginGroup htransform hexport =>
    obtain ⟨rfl, htransform, -⟩ := he.transform hcall htransform
    exact ⟨rfl, .beginGroup htransform hexport, trivial⟩
  | clip hpath htransform =>
    obtain ⟨rfl, hpath⟩ := he.path hcall.1 hpath
    obtain ⟨rfl, htransform, hfits⟩ := he.transform_fits hcall.2 htransform
    exact ⟨rfl, .clip hpath htransform, hfits⟩
  | shape hgeometry hpaint htransform =>
    obtain ⟨houtline, hpainted, hm⟩ := hcall
    obtain ⟨rfl, hgeometry⟩ := he.geometry houtline hgeometry
    obtain ⟨rfl, hpaint, hpaintFits⟩ := he.paint hpainted hpaint
    obtain ⟨rfl, htransform, hfits⟩ := he.transform_fits hm htransform
    exact ⟨rfl, .shape hgeometry hpaint htransform, hpaintFits, hfits⟩
  | image himage hdest htransform =>
    obtain ⟨rfl, hdest⟩ := he.floats hcall.1 hdest
    obtain ⟨rfl, htransform, hfits⟩ := he.transform_fits hcall.2 htransform
    exact ⟨rfl, .image himage hdest htransform, hfits⟩
  | text htext hfamily hparams hpaint htransform =>
    obtain ⟨hname, hheld, hpainted, hm⟩ := hcall
    obtain ⟨rfl, hparams⟩ := he.floats hheld hparams
    obtain ⟨rfl, hpaint, hpaintFits⟩ := he.paint hpainted hpaint
    obtain ⟨rfl, htransform, hfits⟩ := he.transform_fits hm htransform
    exact ⟨rfl, .text htext hfamily hparams hpaint htransform, optFits he.strings hname hfamily,
      hpaintFits, hfits⟩
  | use htarget htransform =>
    obtain ⟨rfl, htransform, hfits⟩ := he.transform_fits hcall htransform
    exact ⟨rfl, .use htarget htransform, hfits⟩

/-- A call whose values are entries leaves the tables as they are, the same instance. -/
theorem puts (he : e.Seeded t) {call : Call} {reply : Reply} (htree : call.OfTree)
    (hcall : call.HeldBy t) (h : e.Emits call e' reply) :
    e.Puts t call e' reply ∧ e'.Seeded t ∧ e'.interner = e.interner := by
  cases h with
  | init | document => cases htree
  | registered hprepares hoffsets hfound =>
    obtain ⟨rfl, -, -⟩ := he.prepares hcall hprepares
    exact ⟨.registered (.refl _) hoffsets hfound, he, rfl⟩
  | gradient hprepares hoffsets hnew hroom hwrite =>
    obtain ⟨rfl, hcodes, hfits⟩ := he.prepares hcall hprepares
    exact ⟨.gradient (.refl _) hoffsets hnew hroom ⟨_, hcodes, hfits, hwrite⟩,
      ⟨he.tables, he.stored, he.strings, he.floatLists⟩, rfl⟩
  | write hne hprepares hwrite =>
    obtain ⟨rfl, hcodes, hfits⟩ := he.prepares hcall hprepares
    exact ⟨.write hne (.refl _) ⟨_, hcodes, hfits, hwrite⟩,
      ⟨he.tables, he.stored, he.strings, he.floatLists⟩, rfl⟩

/-! The tables that a stream gives. -/

private theorem entry_of_mem {α : Type} {entries : Array α} (hsize : entries.size ≤ 2 ^ 32) {v : α}
    (hv : v ∈ entries.toList) : ∃ i : UInt32, entries[i.toNat]? = some v := by
  obtain ⟨j, hj⟩ := List.getElem?_of_mem hv
  rw [Array.getElem?_toList] at hj
  obtain ⟨hlt, -⟩ := Array.getElem?_eq_some_iff.mp hj
  refine ⟨UInt32.ofNat j, ?_⟩
  rw [toNat_ofNat_of_lt (Nat.lt_of_lt_of_le hlt hsize), hj]

/-- Interning an entry. -/
private theorem find_entry {α : Type} [Keyed α] {pick : TableSet → CanonicalTable α}
    {put : TableSet → CanonicalTable α → TableSet} (he : e.Seeded t) (hbuilt : (pick t).Built)
    (hsize : (pick t).size ≤ 2 ^ 32) {v : α} (hv : v ∈ (pick t).entries.toList)
    (h : interning (Interner.intern pick put v) e = .ok (i, e')) :
    e' = e ∧ (pick t).find? v = some i.toNat := by
  obtain ⟨j, hj⟩ := entry_of_mem hsize hv
  rw [← he.tables] at hbuilt hj ⊢
  exact interning_hit (Interner.intern_hit hbuilt j.toNat_lt hj) h

private theorem mapM_hit {α : Type} {f : α → Encode UInt32} {R : UInt32 → α → Prop} {vs : List α}
    (hf : ∀ v ∈ vs, ∀ {i e'}, f v e = .ok (i, e') → e' = e ∧ R i v) {is : List UInt32}
    (h : vs.mapM f e = .ok (is, e')) : e' = e ∧ List.Forall₂ R is vs := by
  induction vs generalizing is with
  | nil =>
    rw [List.mapM_nil] at h
    obtain ⟨rfl, rfl⟩ := state_pure_eq_ok.mp h
    exact ⟨rfl, .nil⟩
  | cons v vs ih =>
    obtain ⟨i, rest, e₁, hi, hrest, rfl⟩ := state_mapM_cons_eq_ok.mp h
    obtain ⟨rfl, hv⟩ := hf v List.mem_cons_self hi
    obtain ⟨rfl, hvs⟩ := ih (fun w hw => hf w (List.mem_cons_of_mem v hw)) hrest
    exact ⟨rfl, .cons hv hvs⟩

/-- The entries of the tables themselves get places, and nothing is pushed. -/
theorem init (he : e.Seeded t) (ht : t.Addressable) {u : Unit}
    (h : Encoder.init t.tables e = .ok (u, e')) :
    e'.Places t t.tables ∧ e'.Seeded t ∧ e'.interner = e.interner := by
  obtain ⟨images, strings, floatLists, e₁, e₂, e₃, himages, hstrings, hfloatLists, rfl⟩ :=
    Encoder.init_eq_ok.mp h
  have hheld : ∀ xs ∈ t.tables.floatLists, t.HoldsFloats xs := by
    intro xs hxs
    obtain ⟨j, hj⟩ := entry_of_mem ht.floatLists hxs
    exact ⟨j, lookup_eq_ok_iff.mpr hj⟩
  obtain ⟨rfl, hfirstImages⟩ := mapM_hit (R := fun i v => t.images.find? v = some i.toNat)
    (fun _ hv _ _ h => he.find_entry he.stored.images ht.images hv h) himages
  obtain ⟨rfl, hfirstStrings⟩ := mapM_hit (R := fun i v => t.strings.find? v = some i.toNat)
    (fun _ hv _ _ h => he.find_entry he.stored.strings ht.strings hv h) hstrings
  obtain ⟨rfl, hfirstLists⟩ := mapM_hit (R := fun i v => t.floatLists.find? v = some i.toNat)
    (fun _ hv _ _ h => he.find_floats (hheld _ hv) h) hfloatLists
  refine ⟨⟨hfirstImages.imp fun _ _ hv => CanonicalTable.lookup_of_find? hv,
    hfirstStrings.imp fun _ _ hv => CanonicalTable.lookup_of_find? hv, ?_⟩,
    ⟨he.tables, he.stored, ?_, ?_⟩, rfl⟩
  · rw [he.stored.tables_round]
    exact hfirstLists.imp fun _ _ hv => CanonicalTable.lookup_of_find? hv
  · intro k j hk
    obtain ⟨v, hv, hfound⟩ := lookup_place hfirstStrings hk
    exact he.stored.strings.find?_le hfound hv
  · intro k j hk
    obtain ⟨xs, hxs, hfound⟩ := lookup_place hfirstLists hk
    exact ⟨xs, lookup_eq_ok_iff.mpr hxs, hfound⟩

/-! Streams. -/

variable {p q : Position Encoder}

/-- Calls of the tree whose values are entries. -/
theorem trail (he : p.session.state.Seeded t) {calls : List Call}
    (h : Encoder.backend.Runs p calls q) (hcalls : ∀ call ∈ calls, call.OfTree ∧ call.HeldBy t) :
    Trail t p calls q ∧ q.session.state.interner = p.session.state.interner := by
  induction h with
  | nil p => exact ⟨.nil p, rfl⟩
  | cons hstep hrest ih =>
    obtain ⟨⟨htree, hcall⟩, hlater⟩ := List.forall_mem_cons.mp hcalls
    cases hstep with
    | @step renamed m e' reply hmap haccept hperform =>
      have hrenames := Call.mapGradients_renames htree hmap
      obtain ⟨hputs, hseeded, hinterner⟩ :=
        he.puts hrenames.ofTree.2 (hcall.of_renames hrenames) (perform_emits hperform)
      obtain ⟨htrail, hsame⟩ := ih hseeded hlater
      exact ⟨.cons (.step hmap haccept hputs) htrail, hsame.trans hinterner⟩

/-- The tables of an encoder given to itself, and a document. -/
theorem opening (he : p.session.state.Seeded t) (ht : t.Addressable) {d : Document}
    (h : Encoder.backend.Runs p [.init t.tables, .document d] q) :
    Trail t p [.init t.tables, .document d] q ∧ q.session.state.Seeded t ∧
      q.session.state.interner = p.session.state.interner := by
  cases h with
  | cons hinit hrest =>
    cases hrest with
    | cons hdocument hnil =>
      cases hnil
      cases hinit with
      | @step _ _ state _ hmap haccept hperform =>
        cases hdocument with
        | step hmap' haccept' hperform' =>
          cases hmap
          cases hmap'
          have hsecond : state.Emits (.document d) _ _ := perform_emits hperform'
          cases perform_emits hperform with
          | write hne hprepares => cases hprepares
          | init hinit =>
            cases hsecond with
            | write hne hprepares => cases hprepares
            | document =>
              obtain ⟨hplaces, hseeded, hinterner⟩ := he.init ht hinit
              refine ⟨.cons (.step rfl haccept (.init (init_spec hinit).1 hplaces))
                (.cons (.step rfl haccept' (.document d)) (.nil _)), ?_, hinterner⟩
              exact ⟨hseeded.tables, hseeded.stored, hseeded.strings, hseeded.floatLists⟩

end Seeded

/-- Tables that can be stored, as an encoder finds them. -/
theorem seeded_start {width : FloatWidth} {interner : Interner}
    (h : interner.shared.value.Stored width) :
    (Encoder.start width interner).Seeded interner.shared.value :=
  ⟨rfl, h, fun hk => absurd hk lookup_nil, fun hk => absurd hk lookup_nil⟩

end Encoder

end VectorImage
