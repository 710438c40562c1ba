import VectorImage.Proofs.Call.Streams
import VectorImage.Proofs.Compact.Operands
import VectorImage.Proofs.Compact.Scan

/-!
Calls whose values are entries of the tables. The calls of a validated stream are such calls, since
every value was read from behind an index; a value that was read from behind an index stored one
higher has an index that can be stored so again. Only the numbers, paths and transforms of a call
count, so renaming gradients changes nothing, and in tables that can be stored such calls are
rounded already.
-/

set_option autoImplicit false
set_option relaxedAutoImplicit false

namespace VectorImage

open VectorImage.Compact

namespace TableSet

variable (t : TableSet)

def HoldsFloats (xs : List Binary64) : Prop := ∃ i, t.floatList i = .ok xs

def HoldsPath (p : Path) : Prop := ∃ i, t.path i = .ok p

def HoldsTransform (m : Option Affine) : Prop := ∀ a, m = some a → ∃ i, t.transform i = .ok a

/-- An optional transform at an index that can be stored one higher. -/
def HoldsOptional (m : Option Affine) : Prop :=
  ∀ a, m = some a → ∃ i, t.transform i = .ok a ∧ i.toNat + 1 < 2 ^ 32

end TableSet

section HeldBy

variable (t : TableSet)

def Paint.HeldBy (p : Paint) : Prop :=
  ∀ s, p.stroke = some s → t.HoldsFloats [s.width, s.miterLimit, s.dashOffset] ∧ OptFits s.dash

def Geometry.HeldBy : Geometry → Prop
  | .path p => t.HoldsPath p
  | .rect g => t.HoldsFloats g.toFloats
  | .ellipse g => t.HoldsFloats g.toFloats
  | .poly g => t.HoldsFloats g.toFloats

/-- The numbers, paths and transforms of a call are entries of the tables, and lists of colors and
indices that are stored one higher can be stored. -/
def Call.HeldBy : Call → Prop
  | .gradient g => t.HoldsFloats g.kind.toFloats ∧ t.HoldsOptional g.transform ∧
    g.colors.length < 2 ^ 32
  | .beginGroup attrs => t.HoldsTransform attrs.transform
  | .clip c => t.HoldsPath c.path ∧ t.HoldsOptional c.transform
  | .shape s => s.geometry.HeldBy t ∧ s.paint.HeldBy t ∧ t.HoldsOptional s.transform
  | .image leaf => t.HoldsFloats leaf.dest.toList ∧ t.HoldsOptional leaf.transform
  | .text leaf => OptFits leaf.family ∧
    t.HoldsFloats [leaf.size, leaf.origin.x, leaf.origin.y] ∧ leaf.paint.HeldBy t ∧
      t.HoldsOptional leaf.transform
  | .use u => t.HoldsOptional u.transform
  | _ => True

end HeldBy

variable {t : TableSet}

/-! Calls that are read. -/

namespace Compact

variable {α β : Type}

private theorem yields_map {p : Reader α} {f : α → β} {P : α → Prop} {Q : β → Prop}
    (hp : Yields p P) (hf : ∀ a, P a → Q (f a)) : Yields (f <$> p) Q := by
  intro i j b h
  obtain ⟨a, ha, rfl⟩ := Parser.run_map_eq_ok.mp h
  exact hf a (hp _ _ a ha)

private theorem yields_fail {e : Error} {P : α → Prop} : Yields (Parser.fail e : Reader α) P :=
  fun _ _ _ h => nomatch h

private theorem yields_ofExcept (x : Except Error α) :
    Yields (Parser.ofExcept x : Reader α) fun a => x = .ok a := by
  intro i j a h
  exact (Parser.run_ofExcept_eq_ok.mp h).1

private theorem readEntry_held (entry : UInt32 → Except Error α) :
    Yields (readEntry entry) fun v => ∃ i, entry i = .ok v :=
  yields_bind (yields_any _) fun i _ j k v h => ⟨i, yields_ofExcept _ j k v h⟩

private theorem readOptIndex_fits : Yields readOptIndex OptFits := by
  refine yields_bind (yields_any _) fun n _ => yields_pure ?_
  intro k hk
  split at hk
  · cases hk
  · next hn =>
    cases hk
    have hlt := n.toNat_lt
    have hpos : n.toNat ≠ 0 := fun he => hn (UInt32.toNat_inj.mp he)
    rw [UInt32.toNat_sub_of_le _ _ (UInt32.le_iff_toNat_le.mpr (by
      rw [UInt32.toNat_one]
      omega)), UInt32.toNat_one]
    omega

private theorem readOptEntry_held (entry : UInt32 → Except Error α) :
    Yields (readOptEntry entry) fun o =>
      ∀ v, o = some v → ∃ i, entry i = .ok v ∧ i.toNat + 1 < 2 ^ 32 := by
  refine yields_bind readOptIndex_fits fun o ho => ?_
  cases o with
  | none =>
    refine yields_pure fun v hv => ?_
    cases hv
  | some i =>
    refine yields_map (yields_ofExcept (entry i)) fun a ha v hv => ?_
    cases hv
    exact ⟨i, ha, ho i rfl⟩

/-- An index that is checked and kept. -/
private theorem readOptChecked_fits (entry : UInt32 → Except Error α) :
    Yields (readOptEntry (checked entry)) OptFits := by
  intro i j o h k hk
  obtain ⟨l, hl, hlt⟩ := readOptEntry_held _ i j o h k hk
  obtain ⟨_, -, rfl⟩ := map_eq_ok.mp hl
  exact hlt

private theorem readStroke_held : Yields (readStroke t) fun s =>
    t.HoldsFloats [s.width, s.miterLimit, s.dashOffset] ∧ OptFits s.dash := by
  refine yields_bind (yields_any _) fun source _ =>
    yields_bind (readEntry_held _) fun floats hfloats => ?_
  split
  · refine yields_bind (yields_any _) fun _ _ => yields_bind (yields_any _) fun cap _ =>
      yields_bind (yields_any _) fun _ _ => yields_bind (yields_any _) fun join _ =>
        yields_bind (readOptChecked_fits _) fun dash hdash => yields_pure ?_
    exact ⟨hfloats, hdash⟩
  · exact yields_fail

private theorem readPaint_held : Yields (readPaint t) fun p => p.HeldBy t := by
  refine yields_bind (yields_any _) fun flags _ => yields_bind (yields_any _) fun fill _ =>
    yields_bind (P := fun o => ∀ s, o = some s → _) ?_ fun stroke hstroke => yields_pure hstroke
  unfold readOption
  split
  · refine yields_map readStroke_held fun s hs s' hs' => ?_
    cases hs'
    exact hs
  · refine yields_pure fun s hs => ?_
    cases hs

private theorem readGroup_held : Yields (readGroup t) fun attrs =>
    t.HoldsTransform attrs.transform := by
  refine yields_bind (yields_any _) fun flags _ =>
    yields_bind (P := t.HoldsTransform) ?_ fun transform htransform =>
      yields_bind (yields_any _) fun alpha _ => yields_bind (yields_any _) fun id _ =>
        yields_pure htransform
  unfold readOption
  split
  · refine yields_map (readEntry_held _) fun m hm a ha => ?_
    cases ha
    exact hm
  · refine yields_pure fun a ha => ?_
    cases ha

/-- The numbers of a gradient that is made of numbers. -/
private theorem toFloats_of_ofFloats {code : UInt8} {floats : List Binary64} {k : GradientKind}
    (h : GradientKind.ofFloats code floats = .ok k) : k.toFloats = floats := by
  unfold GradientKind.ofFloats at h
  split at h <;> cases h <;> rfl

private theorem replicate_length (p : Reader α) (n : Nat) :
    Yields (Parser.replicate p n) fun as => as.length = n := by
  induction n with
  | zero => exact yields_pure rfl
  | succ n ih =>
    exact yields_bind (yields_any _) fun a _ => yields_bind ih fun as has =>
      yields_pure (congrArg (· + 1) has)

private theorem readGradient_held : Yields (readGradient t) fun g =>
    t.HoldsFloats g.kind.toFloats ∧ t.HoldsOptional g.transform ∧ g.colors.length < 2 ^ 32 := by
  refine yields_bind (yields_any _) fun code _ =>
    yields_bind (readEntry_held _) fun floats hfloats =>
    yields_bind (yields_ofExcept _) fun kind hkind => yields_bind (yields_any _) fun offsets _ =>
    yields_bind readCount_lt fun count hcount =>
    yields_bind (replicate_length _ _) fun colors hcolors =>
    yields_bind (yields_any _) fun _ _ => yields_bind (yields_any _) fun spread _ =>
    yields_bind (readOptEntry_held _) fun transform htransform => yields_pure ?_
  exact ⟨toFloats_of_ofFloats hkind ▸ hfloats, htransform, hcolors.symm ▸ hcount⟩

private theorem readClip_held : Yields (readClip t) fun c =>
    t.HoldsPath c.path ∧ t.HoldsOptional c.transform :=
  yields_bind (readEntry_held _) fun _ hpath => yields_bind (yields_any _) fun _ _ =>
    yields_bind (readOptEntry_held _) fun _ htransform => yields_pure ⟨hpath, htransform⟩

private theorem readShape_held {geometry : Geometry} (hgeometry : geometry.HeldBy t) :
    Yields (readShape t geometry) fun s =>
      s.geometry.HeldBy t ∧ s.paint.HeldBy t ∧ t.HoldsOptional s.transform :=
  yields_bind readPaint_held fun _ hpaint => yields_bind (readOptEntry_held _) fun _ htransform =>
    yields_pure ⟨hgeometry, hpaint, htransform⟩

/-- The numbers of points that are made of numbers. -/
private theorem flatMap_of_pointsOfFloats {floats : List Binary64} {points : List Point}
    (h : pointsOfFloats floats = .ok points) :
    (points.flatMap fun p => [p.x, p.y]) = floats := by
  fun_induction pointsOfFloats floats generalizing points with
  | case1 =>
    cases h
    rfl
  | case2 => cases h
  | case3 x y rest ih =>
    obtain ⟨later, hlater, rfl⟩ := map_eq_ok.mp h
    rw [List.flatMap_cons, ih hlater]
    rfl

private theorem readPoly_held : Yields (readPoly t) fun g => t.HoldsFloats g.toFloats := by
  refine yields_bind (readEntry_held _) fun floats hfloats => yields_bind (yields_any _) fun _ _ =>
    ?_
  intro i j g h
  obtain ⟨points, hpoints, rfl⟩ := map_eq_ok.mp (yields_ofExcept _ i j g h)
  show t.HoldsFloats (points.flatMap fun p => [p.x, p.y])
  rw [flatMap_of_pointsOfFloats hpoints]
  exact hfloats

private theorem readRect_held {floats : List Binary64} (hfloats : t.HoldsFloats floats) :
    Yields (Parser.ofExcept (RectGeom.ofFloats floats) : Reader RectGeom) fun g =>
      t.HoldsFloats g.toFloats := by
  intro i j g h
  have hg := yields_ofExcept _ i j g h
  unfold RectGeom.ofFloats at hg
  split at hg
  · cases hg
    exact hfloats
  · cases hg

private theorem readEllipse_held {floats : List Binary64} (hfloats : t.HoldsFloats floats) :
    Yields (Parser.ofExcept (EllipseGeom.ofFloats floats) : Reader EllipseGeom) fun g =>
      t.HoldsFloats g.toFloats := by
  intro i j g h
  have hg := yields_ofExcept _ i j g h
  unfold EllipseGeom.ofFloats at hg
  split at hg
  · cases hg
    exact hfloats
  · cases hg

private theorem readImage_held : Yields (readImage t) fun leaf =>
    t.HoldsFloats leaf.dest.toList ∧ t.HoldsOptional leaf.transform := by
  refine yields_bind (yields_any _) fun _ _ => yields_bind (readEntry_held _) fun floats hfloats => ?_
  split
  · exact yields_bind (readOptEntry_held _) fun _ htransform => yields_pure ⟨hfloats, htransform⟩
  · exact yields_fail

private theorem readText_held : Yields (readText t) fun leaf => OptFits leaf.family ∧
    t.HoldsFloats [leaf.size, leaf.origin.x, leaf.origin.y] ∧ leaf.paint.HeldBy t ∧
      t.HoldsOptional leaf.transform := by
  refine yields_bind (yields_any _) fun _ _ => yields_bind (readOptChecked_fits _) fun _ hfamily =>
    yields_bind (readEntry_held _) fun floats hfloats => ?_
  split
  · exact yields_bind (yields_any _) fun _ _ => yields_bind (yields_any _) fun _ _ =>
      yields_bind readPaint_held fun _ hpaint =>
        yields_bind (readOptEntry_held _) fun _ htransform =>
          yields_pure ⟨hfamily, hfloats, hpaint, htransform⟩
  · exact yields_fail

private theorem readUse_held : Yields (readUse t) fun u => t.HoldsOptional u.transform :=
  yields_bind (yields_any _) fun _ _ => yields_bind (readOptEntry_held _) fun _ htransform =>
    yields_pure htransform

private theorem readOperands_held (code : UInt8) :
    Yields (readOperands t code) fun call => call.HeldBy t := by
  unfold readOperands
  split
  case h_1 => exact yields_map readGroup_held fun _ h => h
  case h_2 | h_5 | h_6 | h_7 => exact yields_pure trivial
  case h_3 => exact yields_map readGradient_held fun _ h => h
  case h_4 => exact yields_map readClip_held fun _ h => h
  case h_8 =>
    exact yields_bind (readEntry_held _) fun _ hpath => yields_map (readShape_held hpath) fun _ h => h
  case h_9 =>
    exact yields_bind (readEntry_held _) fun _ hfloats => yields_bind (readRect_held hfloats)
      fun _ hrect => yields_map (readShape_held hrect) fun _ h => h
  case h_10 =>
    exact yields_bind (readEntry_held _) fun _ hfloats => yields_bind (readEllipse_held hfloats)
      fun _ hellipse => yields_map (readShape_held hellipse) fun _ h => h
  case h_11 =>
    exact yields_bind readPoly_held fun _ hpoly => yields_map (readShape_held hpoly) fun _ h => h
  case h_12 => exact yields_map readImage_held fun _ h => h
  case h_13 => exact yields_map readText_held fun _ h => h
  case h_14 => exact yields_map readUse_held fun _ h => h
  case h_15 => exact yields_fail

/-- The calls of a stream are held by its tables. -/
theorem Decodes.held {i : Input UInt8} {es : List Entry} (h : Decodes t i es) :
    ∀ e ∈ es, e.call.HeldBy t := by
  induction h with
  | nil hread =>
    intro e he
    cases he
  | @cons i j call rest hread hrest ih =>
    have hcall : Yields (readCall t) fun found =>
        ∀ offset call, found = some (offset, call) → call.HeldBy t := by
      refine yields_bind (yields_any _) fun i _ => yields_bind (yields_any _) fun code _ => ?_
      cases code with
      | none => exact yields_pure fun _ _ hnone => nomatch hnone
      | some code =>
        refine yields_bind (readOperands_held code) fun call hcall => yields_pure ?_
        rintro offset call' ⟨⟩
        exact hcall
    intro e he
    rcases List.mem_cons.mp he with rfl | he
    · exact hcall _ _ _ hread _ _ rfl
    · exact ih e he

end Compact

/-! Calls whose gradients are renamed. -/

private theorem optFits_of_rel {i j : Option UInt32} (h : Option.Rel Eq i j) (hi : OptFits i) :
    OptFits j := by
  cases h with
  | none => exact hi
  | some he => exact he ▸ hi

private theorem Paint.HeldBy.of_renames {f : GradientId → Except Error GradientId} {p q : Paint}
    (h : p.Renames (.gradientsBy f) q) (hp : p.HeldBy t) : q.HeldBy t := by
  obtain ⟨fill, stroke⟩ := p
  obtain ⟨fill', stroke'⟩ := q
  obtain ⟨-, hstroke⟩ := h
  intro s' hs'
  obtain rfl : stroke' = some s' := hs'
  cases hstroke with
  | @some s _ hs =>
    obtain ⟨hfloats, hdash⟩ := hp s rfl
    rw [hs.width, hs.miterLimit, hs.dashOffset] at hfloats
    exact ⟨hfloats, optFits_of_rel hs.dash hdash⟩

/-- The values of a call do not depend on its gradients. -/
theorem Call.HeldBy.of_renames {f : GradientId → Except Error GradientId} {call call' : Call}
    (h : call.Renames (.gradientsBy f) call') (hcall : call.HeldBy t) : call'.HeldBy t := by
  cases h with
  | gradient hg =>
    exact ⟨hg.kind ▸ hcall.1, hg.transform ▸ hcall.2.1, hg.colors ▸ hcall.2.2⟩
  | beginGroup htransform =>
    have hm : t.HoldsTransform _ := hcall
    rw [htransform] at hm
    exact hm
  | shape hgeometry hpaint htransform =>
    obtain ⟨houtline, hp, hm⟩ := hcall
    exact ⟨hgeometry ▸ houtline, hp.of_renames hpaint, htransform ▸ hm⟩
  | image _ hdest htransform => exact ⟨hdest ▸ hcall.1, htransform ▸ hcall.2⟩
  | text hleaf =>
    obtain ⟨hfamily, hparams, hp, hm⟩ := hcall
    rw [hleaf.size, hleaf.origin] at hparams
    exact ⟨optFits_of_rel hleaf.family hfamily, hparams, hp.of_renames hleaf.paint,
      hleaf.transform ▸ hm⟩
  | use _ htransform =>
    have hm : t.HoldsOptional _ := hcall
    rw [htransform] at hm
    exact hm
  | _ => exact hcall

/-! Calls that are rounded already. -/

section Round

variable {width : FloatWidth} (ht : t.Stored width)
include ht

theorem TableSet.Stored.tables_round : t.tables.round width = t.tables := by
  have hlists : t.tables.floatLists.map (List.map width.round) = t.tables.floatLists := by
    refine (List.map_congr_left fun xs hxs => ?_).trans (List.map_id _)
    exact map_round_of_kept (ht.keptFloats xs (Array.mem_toList_iff.mp hxs))
  exact congrArg (Tables.mk t.tables.images t.tables.strings) hlists

theorem TableSet.HoldsFloats.map_round {xs : List Binary64} (h : t.HoldsFloats xs) :
    xs.map width.round = xs := by
  obtain ⟨i, hi⟩ := h
  exact map_round_of_kept (ht.keptFloats xs (Array.mem_of_getElem? (lookup_eq_ok_iff.mp hi)))

theorem TableSet.HoldsPath.round {p : Path} (h : t.HoldsPath p) : p.round width = p := by
  obtain ⟨i, hi⟩ := h
  exact p.round_of_kept (ht.keptPaths p (Array.mem_of_getElem? (lookup_eq_ok_iff.mp hi)))

theorem TableSet.HoldsTransform.map_round {m : Option Affine} (h : t.HoldsTransform m) :
    m.map (Affine.round width) = m := by
  cases m with
  | none => rfl
  | some a =>
    obtain ⟨i, hi⟩ := h a rfl
    have hkept := ht.keptTransforms a (Array.mem_of_getElem? (lookup_eq_ok_iff.mp hi))
    exact congrArg some (a.round_of_kept hkept)

omit ht in
theorem TableSet.HoldsOptional.holds {m : Option Affine} (h : t.HoldsOptional m) :
    t.HoldsTransform m := by
  intro a ha
  obtain ⟨i, hi, -⟩ := h a ha
  exact ⟨i, hi⟩

private theorem Paint.HeldBy.round {p : Paint} (h : p.HeldBy t) : p.round width = p := by
  obtain ⟨fill, stroke⟩ := p
  cases stroke with
  | none => rfl
  | some s =>
    have hfloats := (h s rfl).1.map_round ht
    obtain ⟨hwidth, hrest⟩ := List.cons.inj hfloats
    obtain ⟨hmiterLimit, hrest⟩ := List.cons.inj hrest
    obtain ⟨hdashOffset, -⟩ := List.cons.inj hrest
    simp only [Paint.round, Option.map_some, Stroke.round, hwidth, hmiterLimit, hdashOffset]

private theorem Geometry.HeldBy.round {g : Geometry} (h : g.HeldBy t) : g.round width = g := by
  cases g with
  | path p => exact congrArg Geometry.path (TableSet.HoldsPath.round ht h)
  | rect g => exact congrArg Geometry.rect (g.round_of_kept (TableSet.HoldsFloats.map_round ht h))
  | ellipse g =>
    exact congrArg Geometry.ellipse (g.round_of_kept (TableSet.HoldsFloats.map_round ht h))
  | poly g => exact congrArg Geometry.poly (g.round_of_kept (TableSet.HoldsFloats.map_round ht h))

/-- What tables hold that can be stored at a width, rounding to the width leaves as it is. -/
theorem Call.HeldBy.round {call : Call} (h : call.HeldBy t) (htree : call.OfTree) :
    call.round width = call := by
  cases call with
  | init | document => cases htree
  | gradient g =>
    have hkind := g.kind.map_of_kept (h.1.map_round ht)
    simp only [Call.round, Gradient.round, hkind, h.2.1.holds.map_round ht]
  | beginGroup attrs =>
    have hm := TableSet.HoldsTransform.map_round ht h
    simp only [Call.round, GroupAttrs.round, hm]
  | clip c => simp only [Call.round, ClipPath.round, h.1.round ht, h.2.holds.map_round ht]
  | shape s =>
    obtain ⟨hgeometry, hpaint, hm⟩ := h
    simp only [Call.round, Shape.round, hgeometry.round ht, hpaint.round ht, hm.holds.map_round ht]
  | image leaf =>
    have hdest := leaf.dest.round_of_kept (h.1.map_round ht)
    simp only [Call.round, ImageLeaf.round, hdest, h.2.holds.map_round ht]
  | text leaf =>
    obtain ⟨-, hparams, hpaint, hm⟩ := h
    have hfloats := hparams.map_round ht
    obtain ⟨hsize, hrest⟩ := List.cons.inj hfloats
    obtain ⟨hx, hrest⟩ := List.cons.inj hrest
    obtain ⟨hy, -⟩ := List.cons.inj hrest
    simp only [Call.round, TextLeaf.round, Point.round, hsize, hx, hy, hpaint.round ht,
      hm.holds.map_round ht]
  | use u =>
    have hm := (TableSet.HoldsOptional.holds h).map_round ht
    simp only [Call.round, UseRef.round, hm]
  | endGroup | beginMask | maskContent | endMask => rfl

end Round

end VectorImage
