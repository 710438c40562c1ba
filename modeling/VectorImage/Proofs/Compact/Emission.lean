import VectorImage.Proofs.Compact.Interning

/-!
What an encoder does with a call, said once. `Prepares` is what it does before it writes: the values
of the call are interned and its indices placed. `Emits` tells the calls that write one instruction
from those that write none (the tables, the document, a gradient registered before); `Codes` says
what the instruction of a call has behind its indices.
-/

set_option autoImplicit false
set_option relaxedAutoImplicit false

namespace VectorImage

namespace Encoder

open VectorImage.Compact

/-- An optional string and its place. -/
abbrev NamePlaced (e : Encoder) (id i : Option UInt32) : Prop :=
  Option.Rel (fun k j => lookup e.strings .string k = .ok j) id i

/-- The instruction of a call, its indices looked up in `final`. -/
inductive Codes (e : Encoder) (final : TableSet) : Call → Instruction → Prop
  | gradient {g : Gradient} {geometry offsets : UInt32} {t : Option UInt32}
      (hgeometry : final.floatList geometry = .ok (g.round e.width).kind.toFloats)
      (hoffsets : lookup e.floatLists .floatList g.offsets = .ok offsets)
      (htransform : TransformCodes e.width final g.transform t) :
    Codes e final (.gradient g) (.gradient g.kind.code geometry offsets g.colors g.spread t)
  | beginGroup {attrs : GroupAttrs} {t id : Option UInt32}
      (htransform : TransformCodes e.width final attrs.transform t)
      (hexport : e.NamePlaced attrs.exportId id) :
    Codes e final (.beginGroup attrs) (.beginGroup t attrs.alpha id)
  | endGroup : Codes e final .endGroup .endGroup
  | clip {c : ClipPath} {path : UInt32} {t : Option UInt32}
      (hpath : final.path path = .ok (c.path.round e.width))
      (htransform : TransformCodes e.width final c.transform t) :
    Codes e final (.clip c) (.clip path c.rule t)
  | beginMask : Codes e final .beginMask .beginMask
  | maskContent : Codes e final .maskContent .maskContent
  | endMask : Codes e final .endMask .endMask
  | shape {s : Shape} {geometry : GeometryCode} {paint : PaintCode} {t : Option UInt32}
      (hgeometry : GeometryCodes e.width final s.geometry geometry)
      (hpaint : PaintCodes e.width e.floatLists final s.paint paint)
      (htransform : TransformCodes e.width final s.transform t) :
    Codes e final (.shape s) (.shape geometry paint t)
  | image {leaf : ImageLeaf} {image dest : UInt32} {t : Option UInt32}
      (himage : lookup e.images .image leaf.image = .ok image)
      (hdest : final.floatList dest = .ok (leaf.dest.round e.width).toList)
      (htransform : TransformCodes e.width final leaf.transform t) :
    Codes e final (.image leaf) (.image image dest t)
  | text {leaf : TextLeaf} {text params : UInt32} {family t : Option UInt32} {paint : PaintCode}
      (htext : lookup e.strings .string leaf.text = .ok text)
      (hfamily : e.NamePlaced leaf.family family)
      (hparams : final.floatList params = .ok [e.width.round leaf.size,
        e.width.round leaf.origin.x, e.width.round leaf.origin.y])
      (hpaint : PaintCodes e.width e.floatLists final leaf.paint paint)
      (htransform : TransformCodes e.width final leaf.transform t) :
    Codes e final (.text leaf) (.text text family params leaf.anchor paint t)
  | use {u : UseRef} {target : UInt32} {t : Option UInt32}
      (htarget : lookup e.strings .string u.target = .ok target)
      (htransform : TransformCodes e.width final u.transform t) :
    Codes e final (.use u) (.use target t)

/-- The definition under which a gradient is registered. -/
def canonical (e : Encoder) (g : Gradient) (offsets : UInt32) : Gradient :=
  { g.round e.width with offsets := offsets }

/-- The values of a call go into the tables and its indices are looked up: the encoder after it, and
the instruction that is to be written. -/
inductive Prepares (e : Encoder) : Call → Instruction → Encoder → Prop
  | gradient {g : Gradient} {geometry offsets : UInt32} {t : Option UInt32} {e₁ e' : Encoder}
      (hgeometry : floats g.kind.toFloats e = .ok (geometry, e₁))
      (hoffsets : lookup e.floatLists .floatList g.offsets = .ok offsets)
      (htransform : transform g.transform e₁ = .ok (t, e')) :
    Prepares e (.gradient g) (.gradient g.kind.code geometry offsets g.colors g.spread t) e'
  | beginGroup {attrs : GroupAttrs} {t id : Option UInt32} {e' : Encoder}
      (htransform : transform attrs.transform e = .ok (t, e'))
      (hexport : e.NamePlaced attrs.exportId id) :
    Prepares e (.beginGroup attrs) (.beginGroup t attrs.alpha id) e'
  | endGroup : Prepares e .endGroup .endGroup e
  | clip {c : ClipPath} {i : UInt32} {t : Option UInt32} {e₁ e' : Encoder}
      (hpath : path c.path e = .ok (i, e₁))
      (htransform : transform c.transform e₁ = .ok (t, e')) :
    Prepares e (.clip c) (.clip i c.rule t) e'
  | beginMask : Prepares e .beginMask .beginMask e
  | maskContent : Prepares e .maskContent .maskContent e
  | endMask : Prepares e .endMask .endMask e
  | shape {s : Shape} {outline : GeometryCode} {code : PaintCode} {t : Option UInt32}
      {e₁ e₂ e' : Encoder} (hgeometry : geometry s.geometry e = .ok (outline, e₁))
      (hpaint : paint s.paint e₁ = .ok (code, e₂))
      (htransform : transform s.transform e₂ = .ok (t, e')) :
    Prepares e (.shape s) (.shape outline code t) e'
  | image {leaf : ImageLeaf} {i dest : UInt32} {t : Option UInt32} {e₁ e' : Encoder}
      (himage : lookup e.images .image leaf.image = .ok i)
      (hdest : floats leaf.dest.toList e = .ok (dest, e₁))
      (htransform : transform leaf.transform e₁ = .ok (t, e')) :
    Prepares e (.image leaf) (.image i dest t) e'
  | text {leaf : TextLeaf} {i params : UInt32} {family t : Option UInt32} {code : PaintCode}
      {e₁ e₂ e' : Encoder} (htext : lookup e.strings .string leaf.text = .ok i)
      (hfamily : e.NamePlaced leaf.family family)
      (hparams : floats [leaf.size, leaf.origin.x, leaf.origin.y] e = .ok (params, e₁))
      (hpaint : paint leaf.paint e₁ = .ok (code, e₂))
      (htransform : transform leaf.transform e₂ = .ok (t, e')) :
    Prepares e (.text leaf) (.text i family params leaf.anchor code t) e'
  | use {u : UseRef} {target : UInt32} {t : Option UInt32} {e' : Encoder}
      (htarget : lookup e.strings .string u.target = .ok target)
      (htransform : transform u.transform e = .ok (t, e')) :
    Prepares e (.use u) (.use target t) e'

/-- What a call does to an encoder. -/
inductive Emits (e : Encoder) : Call → Encoder → Reply → Prop
  | init {t : Tables} {e' : Encoder} (hinit : Encoder.init t e = .ok ((), e')) :
    Emits e (.init t) e' .done
  | document (d : Document) : Emits e (.document d) { e with document := d } .done
  | registered {g : Gradient} {e' : Encoder} {instruction : Instruction} {offsets : UInt32} {i : Nat}
      (hprepares : e.Prepares (.gradient g) instruction e')
      (hoffsets : lookup e.floatLists .floatList g.offsets = .ok offsets)
      (hfound : e.gradients.find? (e.canonical g offsets) = some i) :
    Emits e (.gradient g) e' (.gradient (UInt32.ofNat i))
  | gradient {g : Gradient} {e' : Encoder} {offsets : UInt32} {instruction : Instruction}
      {bytes : Bytes} (hprepares : e.Prepares (.gradient g) instruction e')
      (hoffsets : lookup e.floatLists .floatList g.offsets = .ok offsets)
      (hnew : e.gradients.find? (e.canonical g offsets) = none)
      (hroom : e.gradients.size < 2 ^ 32) (hwrite : instruction.write = .ok bytes) :
    Emits e (.gradient g)
      { e' with
        gradients := e.gradients.push (e.canonical g offsets)
        ops := e.ops ++ bytes }
      (.gradient (UInt32.ofNat e.gradients.size))
  | write {call : Call} {e' : Encoder} {instruction : Instruction} {bytes : Bytes}
      (hne : ∀ g, call ≠ .gradient g) (hprepares : e.Prepares call instruction e')
      (hwrite : instruction.write = .ok bytes) :
    Emits e call { e' with ops := e.ops ++ bytes } .done

variable {e e' : Encoder} {call : Call} {reply : Reply}

/-- Preparing a call interns its values, and the instruction stands for the call. -/
private theorem Prepares.spec {instruction : Instruction} (h : e.Prepares call instruction e') :
    e.Interned e' ∧ ∀ {final}, e'.Reaches final → e.Codes final call instruction := by
  cases h with
  | endGroup => exact ⟨.refl _, fun _ => .endGroup⟩
  | beginMask => exact ⟨.refl _, fun _ => .beginMask⟩
  | maskContent => exact ⟨.refl _, fun _ => .maskContent⟩
  | endMask => exact ⟨.refl _, fun _ => .endMask⟩
  | gradient hgeometry hoffsets htransform =>
    obtain ⟨h₁, hgeometry⟩ := floats_spec hgeometry
    obtain ⟨h₂, htransform⟩ := transform_spec htransform
    rw [h₁.width] at htransform
    refine ⟨h₁.trans h₂, fun hfinal => .gradient ?_ hoffsets (htransform hfinal)⟩
    have hentry := hgeometry (h₂.reaches hfinal)
    rw [← GradientKind.toFloats_map] at hentry
    exact hentry
  | beginGroup htransform hexport =>
    obtain ⟨hinterned, htransform⟩ := transform_spec htransform
    exact ⟨hinterned, fun hfinal => .beginGroup (htransform hfinal) hexport⟩
  | clip hpath htransform =>
    obtain ⟨h₁, hpath⟩ := path_spec hpath
    obtain ⟨h₂, htransform⟩ := transform_spec htransform
    rw [h₁.width] at htransform
    exact ⟨h₁.trans h₂, fun hfinal => .clip (hpath (h₂.reaches hfinal)) (htransform hfinal)⟩
  | shape hgeometry hpaint htransform =>
    obtain ⟨h₁, hgeometry⟩ := geometry_spec hgeometry
    obtain ⟨h₂, hpaint⟩ := paint_spec hpaint
    obtain ⟨h₃, htransform⟩ := transform_spec htransform
    rw [(h₁.trans h₂).width] at htransform
    rw [h₁.same] at hpaint
    exact ⟨(h₁.trans h₂).trans h₃, fun hfinal =>
      .shape (hgeometry ((h₂.trans h₃).reaches hfinal)) (hpaint (h₃.reaches hfinal))
        (htransform hfinal)⟩
  | image himage hdest htransform =>
    obtain ⟨h₁, hdest⟩ := floats_spec hdest
    obtain ⟨h₂, htransform⟩ := transform_spec htransform
    rw [h₁.width] at htransform
    exact ⟨h₁.trans h₂, fun hfinal =>
      .image himage (hdest (h₂.reaches hfinal)) (htransform hfinal)⟩
  | text htext hfamily hparams hpaint htransform =>
    obtain ⟨h₁, hparams⟩ := floats_spec hparams
    obtain ⟨h₂, hpaint⟩ := paint_spec hpaint
    obtain ⟨h₃, htransform⟩ := transform_spec htransform
    rw [(h₁.trans h₂).width] at htransform
    rw [h₁.same] at hpaint
    exact ⟨(h₁.trans h₂).trans h₃, fun hfinal =>
      .text htext hfamily (hparams ((h₂.trans h₃).reaches hfinal)) (hpaint (h₃.reaches hfinal))
        (htransform hfinal)⟩
  | use htarget htransform =>
    obtain ⟨hinterned, htransform⟩ := transform_spec htransform
    exact ⟨hinterned, fun hfinal => .use htarget (htransform hfinal)⟩

theorem Prepares.interned {instruction : Instruction} (h : e.Prepares call instruction e') :
    e.Interned e' := h.spec.1

theorem Prepares.codes {instruction : Instruction} (h : e.Prepares call instruction e')
    {final : TableSet} (hfinal : e'.Reaches final) : e.Codes final call instruction := h.spec.2 hfinal

theorem write_eq_ok {instruction : Instruction} {u : Unit} :
    write instruction e = .ok (u, e') ↔
      ∃ bytes, instruction.write = .ok bytes ∧ e' = { e with ops := e.ops ++ bytes } := by
  constructor
  · intro h
    obtain ⟨bytes, e₁, hlift, hmodify⟩ := state_bind_eq_ok.mp h
    obtain ⟨hwrite, rfl⟩ := state_lift_eq_ok.mp hlift
    exact ⟨bytes, hwrite, state_modify_eq_ok.mp hmodify⟩
  · rintro ⟨bytes, hwrite, rfl⟩
    exact state_bind_eq_ok.mpr ⟨bytes, e, state_lift_eq_ok.mpr ⟨hwrite, rfl⟩, rfl⟩

/-- An instruction written after the call has been prepared. -/
private theorem emits_write {e₁ : Encoder} {instruction : Instruction} {u : Unit}
    (hne : ∀ g, call ≠ .gradient g) (hprepares : e.Prepares call instruction e₁)
    (h : write instruction e₁ = .ok (u, e')) : e.Emits call e' .done := by
  obtain ⟨bytes, hwrite, rfl⟩ := write_eq_ok.mp h
  have hops : e₁.ops = e.ops := by rw [hprepares.interned.same]
  rw [hops]
  exact .write hne hprepares hwrite

private theorem emits_gradient {g : Gradient} {id : GradientId}
    (h : gradient g e = .ok (id, e')) : e.Emits (.gradient g) e' (.gradient id) := by
  obtain ⟨geometry, e₁, hgeometry, h⟩ := state_bind_eq_ok.mp h
  obtain ⟨offsets, e₂, hplaced, h⟩ := state_bind_eq_ok.mp h
  obtain ⟨t, e₃, htransform, h⟩ := state_bind_eq_ok.mp h
  obtain ⟨w, e₄, hwidth, h⟩ := state_bind_eq_ok.mp h
  obtain ⟨w', e₅, htable, hrest⟩ := state_bind_eq_ok.mp h
  obtain ⟨hw, he₄⟩ := state_get_eq_ok.mp hwidth
  obtain ⟨hw', he₅⟩ := state_get_eq_ok.mp htable
  obtain ⟨he₂, hoffsets⟩ := placed_eq_ok.mp hplaced
  subst hw hw' he₅ he₄ he₂
  rw [(floats_spec hgeometry).1.same] at hoffsets
  have hprepares : e.Prepares (.gradient g) _ e₅ := .gradient hgeometry hoffsets htransform
  have hinterned := hprepares.interned
  have hcanonical : ({ g with
      kind := g.kind.map e₅.width.round
      offsets := offsets
      transform := g.transform.map fun m => m.map e₅.width.round } : Gradient) =
        e.canonical g offsets := by
    rw [hinterned.width]
    rfl
  have hgradients : e₅.gradients = e.gradients := by rw [hinterned.same]
  have hops : e₅.ops = e.ops := by rw [hinterned.same]
  rw [hcanonical, hgradients] at hrest
  cases hfound : e.gradients.find? (e.canonical g offsets) with
  | some i =>
    rw [hfound] at hrest
    obtain ⟨rfl, rfl⟩ := state_pure_eq_ok.mp hrest
    exact .registered hprepares hoffsets hfound
  | none =>
    rw [hfound] at hrest
    obtain ⟨_, e₆, hwrite, hrest⟩ := state_bind_eq_ok.mp hrest
    obtain ⟨w, e₇, hget, hrest⟩ := state_bind_eq_ok.mp hrest
    obtain ⟨⟨table, id'⟩, e₈, hlift, hrest⟩ := state_bind_eq_ok.mp hrest
    obtain ⟨_, e₉, hmodify, hpure⟩ := state_bind_eq_ok.mp hrest
    obtain ⟨bytes, hbytes, he₆⟩ := write_eq_ok.mp hwrite
    obtain ⟨hw, he₇⟩ := state_get_eq_ok.mp hget
    obtain ⟨hpush, he₈⟩ := state_lift_eq_ok.mp hlift
    have he₉ := state_modify_eq_ok.mp hmodify
    obtain ⟨hid, he'⟩ := state_pure_eq_ok.mp hpure
    subst hw he₇ he₈ he₆ hid he'
    rw [he₉]
    dsimp only at hpush ⊢
    rw [hgradients] at hpush
    obtain ⟨hroom, rfl, rfl⟩ := CanonicalTable.pushIndexed_ok hpush
    rw [hops]
    exact .gradient hprepares hoffsets hfound hroom hbytes

/-- A step that ends with a fixed reply. -/
private theorem done_eq_ok {m : Encode Unit} (h : (do m; return Reply.done) e = .ok (reply, e')) :
    m e = .ok ((), e') ∧ reply = .done := by
  obtain ⟨_, e₁, hm, hpure⟩ := state_bind_eq_ok.mp h
  obtain ⟨rfl, rfl⟩ := state_pure_eq_ok.mp hpure
  exact ⟨hm, rfl⟩

/-- A call that is performed is one of the cases. -/
theorem perform_emits (h : e.perform call = .ok (e', reply)) : e.Emits call e' reply := by
  obtain ⟨⟨reply', u⟩, hcall, hpair⟩ := map_eq_ok.mp h
  cases hpair
  cases call with
  | init t =>
    obtain ⟨hinit, rfl⟩ := done_eq_ok hcall
    exact .init hinit
  | document d =>
    obtain ⟨hmodify, rfl⟩ := done_eq_ok hcall
    obtain rfl := state_modify_eq_ok.mp hmodify
    exact .document d
  | gradient g =>
    obtain ⟨id, e₁, hgradient, hcall⟩ := state_bind_eq_ok.mp hcall
    obtain ⟨rfl, rfl⟩ := state_pure_eq_ok.mp hcall
    exact emits_gradient hgradient
  | endGroup =>
    obtain ⟨hwrite, rfl⟩ := done_eq_ok hcall
    exact emits_write nofun .endGroup hwrite
  | beginMask =>
    obtain ⟨hwrite, rfl⟩ := done_eq_ok hcall
    exact emits_write nofun .beginMask hwrite
  | maskContent =>
    obtain ⟨hwrite, rfl⟩ := done_eq_ok hcall
    exact emits_write nofun .maskContent hwrite
  | endMask =>
    obtain ⟨hwrite, rfl⟩ := done_eq_ok hcall
    exact emits_write nofun .endMask hwrite
  | beginGroup attrs =>
    obtain ⟨hgroup, rfl⟩ := done_eq_ok hcall
    obtain ⟨t, e₂, ht, hgroup⟩ := state_bind_eq_ok.mp hgroup
    obtain ⟨id, e₃, hplaced, hwrite⟩ := state_bind_eq_ok.mp hgroup
    obtain ⟨rfl, hid⟩ := optPlaced_eq_ok.mp hplaced
    rw [(transform_spec ht).1.same] at hid
    exact emits_write nofun (.beginGroup ht hid) hwrite
  | clip c =>
    obtain ⟨hclip, rfl⟩ := done_eq_ok hcall
    obtain ⟨path, e₂, hpath, hclip⟩ := state_bind_eq_ok.mp hclip
    obtain ⟨t, e₃, ht, hwrite⟩ := state_bind_eq_ok.mp hclip
    exact emits_write nofun (.clip hpath ht) hwrite
  | shape s =>
    obtain ⟨hshape, rfl⟩ := done_eq_ok hcall
    obtain ⟨geometry, e₂, hgeometry, hshape⟩ := state_bind_eq_ok.mp hshape
    obtain ⟨paint, e₃, hpaint, hshape⟩ := state_bind_eq_ok.mp hshape
    obtain ⟨t, e₄, ht, hwrite⟩ := state_bind_eq_ok.mp hshape
    exact emits_write nofun (.shape hgeometry hpaint ht) hwrite
  | image leaf =>
    obtain ⟨himage, rfl⟩ := done_eq_ok hcall
    obtain ⟨image, e₂, hplaced, himage⟩ := state_bind_eq_ok.mp himage
    obtain ⟨dest, e₃, hdest, himage⟩ := state_bind_eq_ok.mp himage
    obtain ⟨t, e₄, ht, hwrite⟩ := state_bind_eq_ok.mp himage
    obtain ⟨rfl, hid⟩ := placed_eq_ok.mp hplaced
    exact emits_write nofun (.image hid hdest ht) hwrite
  | text leaf =>
    obtain ⟨htext, rfl⟩ := done_eq_ok hcall
    obtain ⟨text, e₂, hplaced, htext⟩ := state_bind_eq_ok.mp htext
    obtain ⟨family, e₃, hfamily, htext⟩ := state_bind_eq_ok.mp htext
    obtain ⟨params, e₄, hparams, htext⟩ := state_bind_eq_ok.mp htext
    obtain ⟨paint, e₅, hpaint, htext⟩ := state_bind_eq_ok.mp htext
    obtain ⟨t, e₆, ht, hwrite⟩ := state_bind_eq_ok.mp htext
    obtain ⟨rfl, hid⟩ := placed_eq_ok.mp hplaced
    obtain ⟨rfl, hfamily⟩ := optPlaced_eq_ok.mp hfamily
    exact emits_write nofun (.text hid hfamily hparams hpaint ht) hwrite
  | use u =>
    obtain ⟨huse, rfl⟩ := done_eq_ok hcall
    obtain ⟨target, e₂, hplaced, huse⟩ := state_bind_eq_ok.mp huse
    obtain ⟨t, e₃, ht, hwrite⟩ := state_bind_eq_ok.mp huse
    obtain ⟨rfl, hid⟩ := placed_eq_ok.mp hplaced
    exact emits_write nofun (.use hid ht) hwrite

/-- What a gradient call does up to its look-up. -/
private theorem gradient_of_prepares {g : Gradient} {instruction : Instruction} {e₁ : Encoder}
    {offsets : UInt32} (hprepares : e.Prepares (.gradient g) instruction e₁)
    (hoffsets : lookup e.floatLists .floatList g.offsets = .ok offsets) {r : GradientId × Encoder}
    (h : (match e.gradients.find? (e.canonical g offsets) with
      | some i => return UInt32.ofNat i
      | none => do
        write instruction
        let (gradients, id) ← (← get).gradients.pushIndexed (e.canonical g offsets)
        modify fun e => { e with gradients := gradients }
        return id : Encode GradientId) e₁ = .ok r) : gradient g e = .ok r := by
  have hinterned := hprepares.interned
  have hgradients : e₁.gradients = e.gradients := by rw [hinterned.same]
  rw [← hgradients] at h
  cases hprepares with
  | @gradient _ geometry offsets' t e₀ _ hgeometry hoffsets' htransform =>
    cases hoffsets.symm.trans hoffsets'
    have hplaced : lookup e₀.floatLists .floatList g.offsets = .ok offsets := by
      rw [(floats_spec hgeometry).1.same]
      exact hoffsets
    have hcanonical : ({ g with
        kind := g.kind.map e₁.width.round
        offsets := offsets
        transform := g.transform.map fun m => m.map e₁.width.round } : Gradient) =
          e.canonical g offsets := by
      rw [hinterned.width]
      rfl
    rw [← hcanonical] at h
    exact state_bind_eq_ok.mpr ⟨_, _, hgeometry, state_bind_eq_ok.mpr ⟨_, _,
      placed_eq_ok.mpr ⟨rfl, hplaced⟩, state_bind_eq_ok.mpr ⟨_, _, htransform,
      state_bind_eq_ok.mpr ⟨_, _, rfl, state_bind_eq_ok.mpr ⟨_, _, rfl, h⟩⟩⟩⟩⟩

/-- A call that is one of the cases is performed. -/
theorem perform_of_emits (h : e.Emits call e' reply) : e.perform call = .ok (e', reply) := by
  have hdone {m : Encode Unit} {e' : Encoder} (hm : m e = .ok ((), e')) :
      (do m; return Reply.done) e = .ok (.done, e') := state_bind_eq_ok.mpr ⟨(), e', hm, rfl⟩
  refine map_eq_ok.mpr ⟨(reply, e'), ?_, rfl⟩
  cases h with
  | init hinit => exact hdone hinit
  | document d => rfl
  | registered hprepares hoffsets hfound =>
    refine state_bind_eq_ok.mpr ⟨_, _, gradient_of_prepares hprepares hoffsets ?_, rfl⟩
    rw [hfound]
    rfl
  | @gradient g e₁ offsets instruction bytes hprepares hoffsets hnew hroom hwrite =>
    have hgradients : e₁.gradients = e.gradients := by rw [hprepares.interned.same]
    have hops : e₁.ops = e.ops := by rw [hprepares.interned.same]
    have hpush : e₁.gradients.pushIndexed (e.canonical g offsets) =
        .ok (e.gradients.push (e.canonical g offsets), UInt32.ofNat e.gradients.size) := by
      rw [hgradients, CanonicalTable.pushIndexed_of_room hroom]
    refine state_bind_eq_ok.mpr ⟨_, _, gradient_of_prepares hprepares hoffsets ?_, rfl⟩
    rw [hnew, ← hops]
    refine state_bind_eq_ok.mpr ⟨(), _, write_eq_ok.mpr ⟨bytes, hwrite, rfl⟩, ?_⟩
    exact state_bind_eq_ok.mpr ⟨_, _, rfl, state_bind_eq_ok.mpr ⟨_, _,
      state_lift_eq_ok.mpr ⟨hpush, rfl⟩, rfl⟩⟩
  | @write _ e₁ instruction bytes hne hprepares hwrite =>
    have hops : e₁.ops = e.ops := by rw [hprepares.interned.same]
    have hwritten : write instruction e₁ = .ok ((), { e₁ with ops := e.ops ++ bytes }) :=
      write_eq_ok.mpr ⟨bytes, hwrite, hops ▸ rfl⟩
    cases hprepares with
    | gradient => exact absurd rfl (hne _)
    | endGroup | beginMask | maskContent | endMask => exact hdone hwritten
    | beginGroup htransform hexport =>
      refine hdone (state_bind_eq_ok.mpr ⟨_, _, htransform, state_bind_eq_ok.mpr ⟨_, _,
        optPlaced_eq_ok.mpr ⟨rfl, ?_⟩, hwritten⟩⟩)
      rw [(transform_spec htransform).1.same]
      exact hexport
    | clip hpath htransform =>
      exact hdone (state_bind_eq_ok.mpr ⟨_, _, hpath, state_bind_eq_ok.mpr ⟨_, _, htransform,
        hwritten⟩⟩)
    | shape hgeometry hpaint htransform =>
      exact hdone (state_bind_eq_ok.mpr ⟨_, _, hgeometry, state_bind_eq_ok.mpr ⟨_, _, hpaint,
        state_bind_eq_ok.mpr ⟨_, _, htransform, hwritten⟩⟩⟩)
    | image himage hdest htransform =>
      exact hdone (state_bind_eq_ok.mpr ⟨_, _, placed_eq_ok.mpr ⟨rfl, himage⟩,
        state_bind_eq_ok.mpr ⟨_, _, hdest, state_bind_eq_ok.mpr ⟨_, _, htransform, hwritten⟩⟩⟩)
    | text htext hfamily hparams hpaint htransform =>
      exact hdone (state_bind_eq_ok.mpr ⟨_, _, placed_eq_ok.mpr ⟨rfl, htext⟩,
        state_bind_eq_ok.mpr ⟨_, _, optPlaced_eq_ok.mpr ⟨rfl, hfamily⟩,
        state_bind_eq_ok.mpr ⟨_, _, hparams, state_bind_eq_ok.mpr ⟨_, _, hpaint,
        state_bind_eq_ok.mpr ⟨_, _, htransform, hwritten⟩⟩⟩⟩⟩)
    | use htarget htransform =>
      exact hdone (state_bind_eq_ok.mpr ⟨_, _, placed_eq_ok.mpr ⟨rfl, htarget⟩,
        state_bind_eq_ok.mpr ⟨_, _, htransform, hwritten⟩⟩)

namespace Emits

theorem width (h : e.Emits call e' reply) : e'.width = e.width := by
  cases h with
  | init hinit => rw [(init_spec hinit).1]
  | document d => rfl
  | registered hprepares => exact hprepares.interned.width
  | gradient hprepares => exact hprepares.interned.width
  | write hne hprepares => exact hprepares.interned.width

theorem grown (h : e.Emits call e' reply) : e.tables.Grows e.width e'.tables := by
  cases h with
  | init hinit => exact (init_spec hinit).2.1
  | document d => exact .refl
  | registered hprepares => exact hprepares.interned.grown
  | gradient hprepares => exact hprepares.interned.grown
  | write hne hprepares => exact hprepares.interned.grown

end Emits

end Encoder

end VectorImage
