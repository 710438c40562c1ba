import Mathlib.Data.List.Forall2
import Mathlib.Logic.Relation
import VectorImage.Drawing.Resources
import VectorImage.Proofs.Call.Acceptance

/-!
Streams that name the same values by other indices. A renaming relates the indices of two
streams; it matches two sets of resources when related indices stand for the same values, and
then paints and texts that differ by the renaming resolve to the same styles and runs.
-/

set_option autoImplicit false
set_option relaxedAutoImplicit false

namespace VectorImage

/-- In lists that are related one by one, each element is related to one of the other list. -/
theorem exists_related {α β : Type} {R : α → β → Prop} {l : List α} {r : List β}
    (h : List.Forall₂ R l r) {a : α} (ha : a ∈ l) : ∃ b ∈ r, R a b := by
  induction h with
  | nil => cases ha
  | cons hab _ ih =>
    rcases List.mem_cons.mp ha with rfl | ha
    · exact ⟨_, List.mem_cons_self, hab⟩
    · obtain ⟨b, hb, hrel⟩ := ih ha
      exact ⟨b, List.mem_cons_of_mem _ hb, hrel⟩

/-- In lists that are related one by one, each element is related to the one at its place. -/
theorem related_getElem? {α β : Type} {R : α → β → Prop} {l : List α} {r : List β}
    (h : List.Forall₂ R l r) {i : Nat} {b : β} (hb : r[i]? = some b) :
    ∃ a, l[i]? = some a ∧ R a b := by
  induction h generalizing i with
  | nil => cases hb
  | cons hab _ ih =>
    cases i with
    | zero =>
      cases hb
      exact ⟨_, rfl, hab⟩
    | succ i => exact ih hb

/-- A list and what its elements give, one by one. -/
theorem forall₂_of_mapM {ε α β : Type} {f : α → Except ε β} {as : List α} {bs : List β}
    (h : as.mapM f = .ok bs) : List.Forall₂ (fun a b => f a = .ok b) as bs := by
  induction as generalizing bs with
  | nil =>
    rw [mapM_nil_eq_ok.mp h]
    exact .nil
  | cons a as ih =>
    obtain ⟨b, rest, hb, hrest, rfl⟩ := mapM_cons_eq_ok.mp h
    exact .cons hb (ih hrest)

theorem mapM_of_forall₂ {ε α β : Type} {f : α → Except ε β} {as : List α} {bs : List β}
    (h : List.Forall₂ (fun a b => f a = .ok b) as bs) : as.mapM f = .ok bs := by
  induction h with
  | nil => exact mapM_nil_eq_ok.mpr rfl
  | cons hb _ ih => exact mapM_cons_eq_ok.mpr ⟨_, _, hb, ih, rfl⟩

/-- Lists that are related one by one to a list between them. -/
theorem forall₂_comp {α β γ : Type} {R : α → β → Prop} {S : β → γ → Prop} {T : α → γ → Prop}
    (hT : ∀ a b c, R a b → S b c → T a c) {l : List α} {m : List β} {r : List γ}
    (h : List.Forall₂ R l m) (h' : List.Forall₂ S m r) : List.Forall₂ T l r := by
  induction h generalizing r with
  | nil =>
    cases h'
    exact .nil
  | cons hab _ ih =>
    cases h' with
    | cons hbc hrest => exact .cons (hT _ _ _ hab hbc) (ih hrest)

/-- Which indices of one stream correspond to which of another. -/
structure Renaming where
  images : ImageId → ImageId → Prop
  strings : StringId → StringId → Prop
  floatLists : FloatListId → FloatListId → Prop
  gradients : GradientId → GradientId → Prop

/-- Every index stands for itself. -/
def Renaming.identity : Renaming := ⟨Eq, Eq, Eq, Eq⟩

/-- The same renaming but for gradients, which a function renames. -/
def Renaming.withGradients (ρ : Renaming) (f : GradientId → Except Error GradientId) : Renaming :=
  { ρ with gradients := fun i j => f i = .ok j }

/-- Only gradients are renamed, by a function. -/
def Renaming.gradientsBy (f : GradientId → Except Error GradientId) : Renaming :=
  Renaming.identity.withGradients f

variable {ρ : Renaming}

inductive PaintSource.Renames (ρ : Renaming) : PaintSource → PaintSource → Prop
  | solid (c : Color) : Renames ρ (.solid c) (.solid c)
  | gradient {i j : GradientId} (h : ρ.gradients i j) : Renames ρ (.gradient i) (.gradient j)

structure Fill.Renames (ρ : Renaming) (f g : Fill) : Prop where
  source : f.source.Renames ρ g.source
  rule : f.rule = g.rule

structure Stroke.Renames (ρ : Renaming) (s t : Stroke) : Prop where
  source : s.source.Renames ρ t.source
  width : s.width = t.width
  cap : s.cap = t.cap
  join : s.join = t.join
  miterLimit : s.miterLimit = t.miterLimit
  dash : Option.Rel ρ.floatLists s.dash t.dash
  dashOffset : s.dashOffset = t.dashOffset

structure Paint.Renames (ρ : Renaming) (p q : Paint) : Prop where
  fill : Option.Rel (Fill.Renames ρ) p.fill q.fill
  stroke : Option.Rel (Stroke.Renames ρ) p.stroke q.stroke

structure Gradient.Renames (ρ : Renaming) (g h : Gradient) : Prop where
  kind : g.kind = h.kind
  offsets : ρ.floatLists g.offsets h.offsets
  colors : g.colors = h.colors
  spread : g.spread = h.spread
  transform : g.transform = h.transform

structure TextLeaf.Renames (ρ : Renaming) (s t : TextLeaf) : Prop where
  text : ρ.strings s.text t.text
  family : Option.Rel ρ.strings s.family t.family
  size : s.size = t.size
  origin : s.origin = t.origin
  anchor : s.anchor = t.anchor
  paint : s.paint.Renames ρ t.paint
  transform : s.transform = t.transform

/-- Calls of the tree that differ by a renaming. -/
inductive Call.Renames (ρ : Renaming) : Call → Call → Prop
  | gradient {g h : Gradient} (hrenames : g.Renames ρ h) : Renames ρ (.gradient g) (.gradient h)
  | beginGroup {attrs attrs' : GroupAttrs} (htransform : attrs.transform = attrs'.transform)
      (halpha : attrs.alpha = attrs'.alpha)
      (hexport : Option.Rel ρ.strings attrs.exportId attrs'.exportId) :
    Renames ρ (.beginGroup attrs) (.beginGroup attrs')
  | endGroup : Renames ρ .endGroup .endGroup
  | clip (c : ClipPath) : Renames ρ (.clip c) (.clip c)
  | beginMask : Renames ρ .beginMask .beginMask
  | maskContent : Renames ρ .maskContent .maskContent
  | endMask : Renames ρ .endMask .endMask
  | shape {s t : Shape} (hgeometry : s.geometry = t.geometry) (hpaint : s.paint.Renames ρ t.paint)
      (htransform : s.transform = t.transform) : Renames ρ (.shape s) (.shape t)
  | image {s t : ImageLeaf} (himage : ρ.images s.image t.image) (hdest : s.dest = t.dest)
      (htransform : s.transform = t.transform) : Renames ρ (.image s) (.image t)
  | text {s t : TextLeaf} (hrenames : s.Renames ρ t) : Renames ρ (.text s) (.text t)
  | use {u v : UseRef} (htarget : ρ.strings u.target v.target)
      (htransform : u.transform = v.transform) : Renames ρ (.use u) (.use v)

private theorem option_rel_eq {α : Type} (o : Option α) : Option.Rel Eq o o := by
  cases o with
  | none => exact .none
  | some a => exact .some rfl

theorem option_eq_of_rel {α : Type} {o o' : Option α} (h : Option.Rel Eq o o') :
    o = o' := by
  cases h with
  | none => rfl
  | some h => rw [h]

theorem Paint.renames_identity (p : Paint) : p.Renames .identity p := by
  have hsource (s : PaintSource) : s.Renames .identity s := by
    cases s with
    | solid c => exact .solid c
    | gradient i => exact .gradient rfl
  obtain ⟨fill, stroke⟩ := p
  constructor
  · cases fill with
    | none => exact .none
    | some f => exact .some ⟨hsource f.source, rfl⟩
  · cases stroke with
    | none => exact .none
    | some s =>
      exact .some ⟨hsource s.source, rfl, rfl, rfl, rfl, option_rel_eq s.dash, rfl⟩

theorem TextLeaf.renames_identity (leaf : TextLeaf) : leaf.Renames .identity leaf :=
  ⟨rfl, option_rel_eq leaf.family, rfl, rfl, rfl, leaf.paint.renames_identity, rfl⟩

/-! Renaming the gradients of a paint by a function. -/

section MapGradients

variable {f : GradientId → Except Error GradientId}

private theorem mapGradient_renames {s t : PaintSource} (h : s.mapGradient f = .ok t) :
    s.Renames (.gradientsBy f) t := by
  cases s with
  | solid c =>
    cases h
    exact .solid c
  | gradient i =>
    obtain ⟨j, hj, rfl⟩ := map_eq_ok.mp h
    exact .gradient hj

private theorem mapGradient_progress {s : PaintSource}
    (h : ∀ i, s.gradientId? = some i → ∃ j, f i = .ok j) : ∃ t, s.mapGradient f = .ok t := by
  cases s with
  | solid c => exact ⟨_, rfl⟩
  | gradient i =>
    obtain ⟨j, hj⟩ := h i rfl
    exact ⟨.gradient j, map_eq_ok.mpr ⟨j, hj, rfl⟩⟩

theorem Paint.mapGradients_renames {p q : Paint} (h : p.mapGradients f = .ok q) :
    p.Renames (.gradientsBy f) q := by
  have hfill (g : Fill) {source : PaintSource} (h : g.source.mapGradient f = .ok source) :
      Option.Rel (Fill.Renames (.gradientsBy f)) (some g) (some { g with source := source }) :=
    .some ⟨mapGradient_renames h, rfl⟩
  have hstroke (s : Stroke) {source : PaintSource} (h : s.source.mapGradient f = .ok source) :
      Option.Rel (Stroke.Renames (.gradientsBy f)) (some s) (some { s with source := source }) :=
    .some ⟨mapGradient_renames h, rfl, rfl, rfl, rfl, option_rel_eq s.dash, rfl⟩
  obtain ⟨fill, stroke⟩ := p
  cases fill with
  | none =>
    cases stroke with
    | none =>
      cases h
      exact ⟨.none, .none⟩
    | some s =>
      obtain ⟨fill', hnone, h⟩ := bind_eq_ok.mp h
      obtain ⟨source, hsource, h⟩ := bind_eq_ok.mp h
      cases hnone
      cases h
      exact ⟨.none, hstroke s hsource⟩
  | some g =>
    obtain ⟨source, hsource, h⟩ := bind_eq_ok.mp h
    cases stroke with
    | none =>
      cases h
      exact ⟨hfill g hsource, .none⟩
    | some s =>
      obtain ⟨fill', hsome, h⟩ := bind_eq_ok.mp h
      obtain ⟨source', hsource', h⟩ := bind_eq_ok.mp h
      cases hsome
      cases h
      exact ⟨hfill g hsource, hstroke s hsource'⟩

theorem Paint.mapGradients_progress {p : Paint} (h : ∀ i ∈ p.gradientIds, ∃ j, f i = .ok j) :
    ∃ q, p.mapGradients f = .ok q := by
  obtain ⟨fill, stroke⟩ := p
  have hfill : ∀ g, fill = some g → ∃ t, g.source.mapGradient f = .ok t := by
    rintro g rfl
    refine mapGradient_progress fun i hi => h i ?_
    simp [Paint.gradientIds, hi]
  have hstroke : ∀ s, stroke = some s → ∃ t, s.source.mapGradient f = .ok t := by
    rintro s rfl
    refine mapGradient_progress fun i hi => h i ?_
    simp [Paint.gradientIds, hi]
  unfold mapGradients
  cases fill with
  | none =>
    cases stroke with
    | none => exact ⟨_, rfl⟩
    | some s =>
      obtain ⟨t, ht⟩ := hstroke s rfl
      dsimp only
      rw [ht]
      exact ⟨_, rfl⟩
  | some g =>
    obtain ⟨t, ht⟩ := hfill g rfl
    dsimp only
    rw [ht]
    cases stroke with
    | none => exact ⟨_, rfl⟩
    | some s =>
      obtain ⟨u, hu⟩ := hstroke s rfl
      dsimp only
      rw [hu]
      exact ⟨_, rfl⟩

private theorem PaintSource.Renames.after {s t u : PaintSource}
    (h : s.Renames (.gradientsBy f) t) (hρ : ρ.gradients = Eq) (h' : t.Renames ρ u) :
    s.Renames (ρ.withGradients f) u := by
  cases h with
  | solid c =>
    cases h' with
    | solid c => exact .solid c
  | gradient hij =>
    cases h' with
    | gradient hjk =>
      rw [hρ] at hjk
      subst hjk
      exact .gradient hij

/-- Paints renamed first in their gradients and then in the rest. -/
theorem Paint.Renames.after {p q r : Paint} (h : p.Renames (.gradientsBy f) q)
    (hρ : ρ.gradients = Eq) (h' : q.Renames ρ r) : p.Renames (ρ.withGradients f) r := by
  obtain ⟨fill, stroke⟩ := p
  obtain ⟨fill', stroke'⟩ := q
  obtain ⟨fill'', stroke''⟩ := r
  obtain ⟨hfill, hstroke⟩ := h
  obtain ⟨hfill', hstroke'⟩ := h'
  constructor
  · cases hfill with
    | none =>
      cases hfill' with
      | none => exact .none
    | some hf =>
      cases hfill' with
      | some hf' => exact .some ⟨hf.source.after hρ hf'.source, hf.rule.trans hf'.rule⟩
  · cases hstroke with
    | none =>
      cases hstroke' with
      | none => exact .none
    | @some s t hs =>
      cases hstroke' with
      | @some _ u hs' =>
        refine .some ⟨hs.source.after hρ hs'.source, hs.width.trans hs'.width,
          hs.cap.trans hs'.cap, hs.join.trans hs'.join, hs.miterLimit.trans hs'.miterLimit, ?_,
          hs.dashOffset.trans hs'.dashOffset⟩
        rw [show s.dash = t.dash from option_eq_of_rel hs.dash]
        exact hs'.dash

end MapGradients

/-! The indices of a renamed paint. -/

private theorem mem_gradientIds {p : Paint} {i : GradientId} :
    i ∈ p.gradientIds ↔
      (∃ f, p.fill = some f ∧ f.source = .gradient i) ∨
        ∃ s, p.stroke = some s ∧ s.source = .gradient i := by
  have hid (t : PaintSource) : t.gradientId? = some i ↔ t = .gradient i := by
    cases t <;> simp [PaintSource.gradientId?]
  simp [Paint.gradientIds, Option.bind_eq_some_iff, hid]

namespace Paint.Renames

variable {p q : Paint}

theorem gradientIds_left (h : p.Renames ρ q) {i : GradientId} (hi : i ∈ p.gradientIds) :
    ∃ j ∈ q.gradientIds, ρ.gradients i j := by
  obtain ⟨fill, stroke⟩ := p
  obtain ⟨fill', stroke'⟩ := q
  obtain ⟨hfill, hstroke⟩ := h
  rcases mem_gradientIds.mp hi with ⟨f, rfl, hf⟩ | ⟨s, rfl, hs⟩
  · cases hfill with
    | @some _ g hfg =>
      have hsource := hfg.source
      rw [hf] at hsource
      generalize ht : g.source = t at hsource
      cases hsource with
      | @gradient _ j hij => exact ⟨j, mem_gradientIds.mpr (Or.inl ⟨g, rfl, ht⟩), hij⟩
  · cases hstroke with
    | @some _ u hsu =>
      have hsource := hsu.source
      rw [hs] at hsource
      generalize ht : u.source = t at hsource
      cases hsource with
      | @gradient _ j hij => exact ⟨j, mem_gradientIds.mpr (Or.inr ⟨u, rfl, ht⟩), hij⟩

theorem gradientIds_right (h : p.Renames ρ q) {j : GradientId} (hj : j ∈ q.gradientIds) :
    ∃ i ∈ p.gradientIds, ρ.gradients i j := by
  obtain ⟨fill, stroke⟩ := p
  obtain ⟨fill', stroke'⟩ := q
  obtain ⟨hfill, hstroke⟩ := h
  rcases mem_gradientIds.mp hj with ⟨g, rfl, hg⟩ | ⟨u, rfl, hu⟩
  · cases hfill with
    | @some f _ hfg =>
      have hsource := hfg.source
      rw [hg] at hsource
      generalize ht : f.source = t at hsource
      cases hsource with
      | @gradient i _ hij => exact ⟨i, mem_gradientIds.mpr (Or.inl ⟨f, rfl, ht⟩), hij⟩
  · cases hstroke with
    | @some s _ hsu =>
      have hsource := hsu.source
      rw [hu] at hsource
      generalize ht : s.source = t at hsource
      cases hsource with
      | @gradient i _ hij => exact ⟨i, mem_gradientIds.mpr (Or.inr ⟨s, rfl, ht⟩), hij⟩

theorem dash_left (h : p.Renames ρ q) {d : FloatListId} (hd : p.stroke.bind Stroke.dash = some d) :
    ∃ e, q.stroke.bind Stroke.dash = some e ∧ ρ.floatLists d e := by
  obtain ⟨fill, stroke⟩ := p
  obtain ⟨fill', stroke'⟩ := q
  obtain ⟨-, hstroke⟩ := h
  obtain ⟨s, rfl, hs⟩ := Option.bind_eq_some_iff.mp hd
  cases hstroke with
  | @some _ t hst =>
    have hdash := hst.dash
    rw [hs] at hdash
    generalize ht : t.dash = e at hdash
    cases hdash with
    | some hde => exact ⟨_, Option.bind_eq_some_iff.mpr ⟨t, rfl, ht⟩, hde⟩

theorem dash_right (h : p.Renames ρ q) {e : FloatListId}
    (he : q.stroke.bind Stroke.dash = some e) :
    ∃ d, p.stroke.bind Stroke.dash = some d ∧ ρ.floatLists d e := by
  obtain ⟨fill, stroke⟩ := p
  obtain ⟨fill', stroke'⟩ := q
  obtain ⟨-, hstroke⟩ := h
  obtain ⟨t, rfl, ht⟩ := Option.bind_eq_some_iff.mp he
  cases hstroke with
  | @some s _ hst =>
    have hdash := hst.dash
    rw [ht] at hdash
    generalize hs : s.dash = d at hdash
    cases hdash with
    | some hde => exact ⟨_, Option.bind_eq_some_iff.mpr ⟨s, rfl, hs⟩, hde⟩

end Paint.Renames

/-! Calls renamed twice. -/

section Comp

variable {σ : Renaming}

/-- One renaming after another. -/
def Renaming.comp (ρ σ : Renaming) : Renaming where
  images := Relation.Comp ρ.images σ.images
  strings := Relation.Comp ρ.strings σ.strings
  floatLists := Relation.Comp ρ.floatLists σ.floatLists
  gradients := Relation.Comp ρ.gradients σ.gradients

private theorem option_rel_comp {α : Type} {R S : α → α → Prop} {a b c : Option α}
    (h : Option.Rel R a b) (h' : Option.Rel S b c) : Option.Rel (Relation.Comp R S) a c := by
  cases h with
  | none =>
    cases h' with
    | none => exact .none
  | some hab =>
    cases h' with
    | some hbc => exact .some ⟨_, hab, hbc⟩

private theorem PaintSource.Renames.comp {s t u : PaintSource} (h : s.Renames ρ t)
    (h' : t.Renames σ u) : s.Renames (ρ.comp σ) u := by
  cases h with
  | solid c =>
    cases h' with
    | solid c => exact .solid c
  | gradient hij =>
    cases h' with
    | gradient hjk => exact .gradient ⟨_, hij, hjk⟩

private theorem Paint.Renames.comp {p q r : Paint} (h : p.Renames ρ q) (h' : q.Renames σ r) :
    p.Renames (ρ.comp σ) r := by
  obtain ⟨fill, stroke⟩ := p
  obtain ⟨fill', stroke'⟩ := q
  obtain ⟨fill'', stroke''⟩ := r
  obtain ⟨hfill, hstroke⟩ := h
  obtain ⟨hfill', hstroke'⟩ := h'
  constructor
  · cases hfill with
    | none =>
      cases hfill' with
      | none => exact .none
    | some hf =>
      cases hfill' with
      | some hf' => exact .some ⟨hf.source.comp hf'.source, hf.rule.trans hf'.rule⟩
  · cases hstroke with
    | none =>
      cases hstroke' with
      | none => exact .none
    | some hs =>
      cases hstroke' with
      | some hs' =>
        exact .some ⟨hs.source.comp hs'.source, hs.width.trans hs'.width, hs.cap.trans hs'.cap,
          hs.join.trans hs'.join, hs.miterLimit.trans hs'.miterLimit,
          option_rel_comp hs.dash hs'.dash, hs.dashOffset.trans hs'.dashOffset⟩

theorem Call.Renames.comp {a b c : Call} (h : a.Renames ρ b) (h' : b.Renames σ c) :
    a.Renames (ρ.comp σ) c := by
  cases h with
  | gradient hg =>
    cases h' with
    | gradient hg' =>
      exact .gradient ⟨hg.kind.trans hg'.kind, ⟨_, hg.offsets, hg'.offsets⟩,
        hg.colors.trans hg'.colors, hg.spread.trans hg'.spread, hg.transform.trans hg'.transform⟩
  | beginGroup htransform halpha hexport =>
    cases h' with
    | beginGroup htransform' halpha' hexport' =>
      exact .beginGroup (htransform.trans htransform') (halpha.trans halpha')
        (option_rel_comp hexport hexport')
  | shape hgeometry hpaint htransform =>
    cases h' with
    | shape hgeometry' hpaint' htransform' =>
      exact .shape (hgeometry.trans hgeometry') (hpaint.comp hpaint') (htransform.trans htransform')
  | image himage hdest htransform =>
    cases h' with
    | image himage' hdest' htransform' =>
      exact .image ⟨_, himage, himage'⟩ (hdest.trans hdest') (htransform.trans htransform')
  | text ht =>
    cases h' with
    | text ht' =>
      exact .text ⟨⟨_, ht.text, ht'.text⟩, option_rel_comp ht.family ht'.family,
        ht.size.trans ht'.size, ht.origin.trans ht'.origin, ht.anchor.trans ht'.anchor,
        ht.paint.comp ht'.paint, ht.transform.trans ht'.transform⟩
  | use htarget htransform =>
    cases h' with
    | use htarget' htransform' => exact .use ⟨_, htarget, htarget'⟩ (htransform.trans htransform')
  | endGroup => cases h'; exact .endGroup
  | clip c => cases h'; exact .clip c
  | beginMask => cases h'; exact .beginMask
  | maskContent => cases h'; exact .maskContent
  | endMask => cases h'; exact .endMask

end Comp

/-- A renaming of every index to itself changes nothing. -/
structure Renaming.Trivial (ρ : Renaming) : Prop where
  floatLists : ∀ i j, ρ.floatLists i j → i = j
  gradients : ∀ i j, ρ.gradients i j → i = j

section Trivial

variable (hρ : ρ.Trivial)
include hρ

private theorem PaintSource.Renames.eq {s t : PaintSource} (h : s.Renames ρ t) : s = t := by
  cases h with
  | solid c => rfl
  | gradient h => rw [hρ.gradients _ _ h]

private theorem Fill.Renames.eq {f g : Fill} (h : f.Renames ρ g) : f = g := by
  obtain ⟨source, rule⟩ := f
  obtain ⟨source', rule'⟩ := g
  obtain ⟨hsource, hrule⟩ := h
  cases hrule
  rw [show source = source' from hsource.eq hρ]

private theorem Stroke.Renames.eq {s t : Stroke} (h : s.Renames ρ t) : s = t := by
  obtain ⟨source, width, cap, join, miterLimit, dash, dashOffset⟩ := s
  obtain ⟨source', width', cap', join', miterLimit', dash', dashOffset'⟩ := t
  obtain ⟨hsource, hwidth, hcap, hjoin, hmiter, hdash, hoffset⟩ := h
  cases hwidth
  cases hcap
  cases hjoin
  cases hmiter
  cases hoffset
  rw [show source = source' from hsource.eq hρ]
  cases hdash with
  | none => rfl
  | some h => rw [hρ.floatLists _ _ h]

theorem Paint.Renames.eq {p q : Paint} (h : p.Renames ρ q) : p = q := by
  obtain ⟨fill, stroke⟩ := p
  obtain ⟨fill', stroke'⟩ := q
  obtain ⟨hfill, hstroke⟩ := h
  congr 1
  · cases hfill with
    | none => rfl
    | some h => rw [h.eq hρ]
  · cases hstroke with
    | none => rfl
    | some h => rw [h.eq hρ]

end Trivial

theorem Call.eq_of_mapGradients {f : GradientId → Except Error GradientId} {call call' : Call}
    (hf : ∀ i j, f i = .ok j → i = j) (h : call.mapGradients f = .ok call') : call' = call := by
  have hρ : (Renaming.gradientsBy f).Trivial := ⟨fun _ _ he => he, hf⟩
  cases call with
  | shape s =>
    obtain ⟨q, hq, rfl⟩ := map_eq_ok.mp h
    rw [← (Paint.mapGradients_renames hq).eq hρ]
  | text t =>
    obtain ⟨q, hq, rfl⟩ := map_eq_ok.mp h
    rw [← (Paint.mapGradients_renames hq).eq hρ]
  | _ => exact (Except.ok.inj h).symm

/-- A call of the tree whose gradients a function renames. -/
theorem Call.mapGradients_renames {f : GradientId → Except Error GradientId} {call call' : Call}
    (htree : call.OfTree) (h : call.mapGradients f = .ok call') :
    call.Renames (.gradientsBy f) call' := by
  cases call with
  | init t => cases htree
  | document d => cases htree
  | shape s =>
    obtain ⟨q, hq, rfl⟩ := map_eq_ok.mp h
    exact .shape rfl (Paint.mapGradients_renames hq) rfl
  | text t =>
    obtain ⟨q, hq, rfl⟩ := map_eq_ok.mp h
    have hsame := t.renames_identity
    exact .text ⟨rfl, hsame.family, rfl, rfl, rfl, Paint.mapGradients_renames hq, rfl⟩
  | gradient g => cases h; exact .gradient ⟨rfl, rfl, rfl, rfl, rfl⟩
  | beginGroup attrs => cases h; exact .beginGroup rfl rfl (option_rel_eq _)
  | endGroup => cases h; exact .endGroup
  | clip c => cases h; exact .clip c
  | beginMask => cases h; exact .beginMask
  | maskContent => cases h; exact .maskContent
  | endMask => cases h; exact .endMask
  | image leaf => cases h; exact .image rfl rfl rfl
  | use u => cases h; exact .use rfl rfl

/-- Renaming the gradients of a call changes shapes and texts only. -/
theorem Call.eq_of_mapGradients_ne {f : GradientId → Except Error GradientId} {call call' : Call}
    (h : call.mapGradients f = .ok call') (hshape : ∀ s, call' ≠ .shape s)
    (htext : ∀ t, call' ≠ .text t) : call = call' := by
  cases call with
  | shape s =>
    obtain ⟨q, -, rfl⟩ := map_eq_ok.mp h
    exact absurd rfl (hshape _)
  | text t =>
    obtain ⟨q, -, rfl⟩ := map_eq_ok.mp h
    exact absurd rfl (htext _)
  | _ => exact Except.ok.inj h

theorem Call.isGradient_mapGradients {f : GradientId → Except Error GradientId}
    {call call' : Call} (h : call.mapGradients f = .ok call') :
    call'.isGradient = call.isGradient := by
  cases call with
  | shape s =>
    obtain ⟨q, -, rfl⟩ := map_eq_ok.mp h
    rfl
  | text t =>
    obtain ⟨q, -, rfl⟩ := map_eq_ok.mp h
    rfl
  | _ => rw [← Except.ok.inj h]

/-- Calls that differ by a renaming describe the tree. -/
theorem Call.Renames.ofTree {call call' : Call} (h : call.Renames ρ call') :
    call.OfTree ∧ call'.OfTree := by
  cases h <;> exact ⟨trivial, trivial⟩

/-- Calls that differ by a renaming have paints that do, or none. -/
theorem Call.Renames.paint {call call' : Call} (h : call.Renames ρ call') :
    Option.Rel (Paint.Renames ρ) call.paint? call'.paint? := by
  cases h with
  | shape hgeometry hpaint htransform => exact .some hpaint
  | text hleaf => exact .some hleaf.paint
  | _ => exact .none

theorem Call.Renames.isGradient {call call' : Call} (h : call.Renames ρ call') :
    call.isGradient = call'.isGradient := by
  cases h <;> rfl

theorem Call.Renames.of_gradient {g : Gradient} {call : Call}
    (h : Call.Renames ρ (.gradient g) call) : ∃ k, call = .gradient k ∧ g.Renames ρ k := by
  cases h with
  | gradient hrenames => exact ⟨_, rfl, hrenames⟩

/-! Steps of the nesting check under a renaming of gradients. -/

namespace Nesting.Accepted

variable {f : GradientId → Except Error GradientId} {n m : Nesting} {gradients gradients' : Nat}
  {call call' : Call}

/-- The gradients of an accepted call are registered, so a renaming of all registered gradients
renames the call. -/
theorem mapGradients_progress (h : Accepted gradients n call m)
    (hf : ∀ i : GradientId, i.toNat < gradients → ∃ j, f i = .ok j) :
    ∃ call', call.mapGradients f = .ok call' := by
  cases h with
  | shape s hphase hpaint =>
    obtain ⟨q, hq⟩ := Paint.mapGradients_progress fun i hi => hf i (hpaint.gradients i hi)
    exact ⟨_, map_eq_ok.mpr ⟨q, hq, rfl⟩⟩
  | text leaf hphase hpaint htext hfamily =>
    obtain ⟨q, hq⟩ := Paint.mapGradients_progress fun i hi => hf i (hpaint.gradients i hi)
    exact ⟨_, map_eq_ok.mpr ⟨q, hq, rfl⟩⟩
  | _ => exact ⟨_, rfl⟩

/-- A call that is accepted is accepted under names of registered gradients. -/
theorem mapGradients (hmap : call.mapGradients f = .ok call')
    (hf : ∀ i j : GradientId, f i = .ok j → j.toNat < gradients')
    (h : Accepted gradients n call m) : Accepted gradients' n call' m := by
  have hwithin {p q : Paint} (hq : p.mapGradients f = .ok q)
      (hp : p.Within gradients n.floatLists) : q.Within gradients' n.floatLists := by
    have hrenames := Paint.mapGradients_renames hq
    refine ⟨fun j hj => ?_, fun e he => ?_⟩
    · obtain ⟨i, -, hij⟩ := hrenames.gradientIds_right hj
      exact hf i j hij
    · obtain ⟨d, hd, rfl⟩ := hrenames.dash_right he
      exact hp.dash d hd
  cases h with
  | shape s hphase hpaint =>
    obtain ⟨q, hq, rfl⟩ := map_eq_ok.mp hmap
    exact .shape _ hphase (hwithin hq hpaint)
  | text leaf hphase hpaint htext hfamily =>
    obtain ⟨q, hq, rfl⟩ := map_eq_ok.mp hmap
    exact .text _ hphase (hwithin hq hpaint) htext hfamily
  | init tables hphase => cases hmap; exact .init tables hphase
  | document d hphase => cases hmap; exact .document d hphase
  | gradient g hphase hoffsets => cases hmap; exact .gradient g hphase hoffsets
  | beginGroup attrs hphase hfree => cases hmap; exact .beginGroup attrs hphase hfree
  | endGroup exportId rest hscopes => cases hmap; exact .endGroup exportId rest hscopes
  | clip c hphase => cases hmap; exact .clip c hphase
  | beginMask hphase => cases hmap; exact .beginMask hphase
  | maskContent rest hscopes => cases hmap; exact .maskContent rest hscopes
  | endMask rest hscopes => cases hmap; exact .endMask rest hscopes
  | image leaf hphase himage => cases hmap; exact .image leaf hphase himage
  | use ref hphase htarget => cases hmap; exact .use ref hphase htarget

/-- A call that is accepted under other names of its gradients is accepted under its own. -/
theorem of_mapGradients (hmap : call.mapGradients f = .ok call')
    (hf : ∀ i j : GradientId, f i = .ok j → i.toNat < gradients)
    (h : Accepted gradients' n call' m) : Accepted gradients n call m := by
  have hwithin {p q : Paint} (hq : p.mapGradients f = .ok q)
      (hp : q.Within gradients' n.floatLists) : p.Within gradients n.floatLists := by
    have hrenames := Paint.mapGradients_renames hq
    refine ⟨fun i hi => ?_, fun d hd => ?_⟩
    · obtain ⟨j, -, hij⟩ := hrenames.gradientIds_left hi
      exact hf i j hij
    · obtain ⟨e, he, rfl⟩ := hrenames.dash_left hd
      exact hp.dash d he
  cases call with
  | shape s =>
    obtain ⟨q, hq, rfl⟩ := map_eq_ok.mp hmap
    cases h with
    | shape _ hphase hpaint => exact .shape _ hphase (hwithin hq hpaint)
  | text leaf =>
    obtain ⟨q, hq, rfl⟩ := map_eq_ok.mp hmap
    cases h with
    | text _ hphase hpaint htext hfamily => exact .text _ hphase (hwithin hq hpaint) htext hfamily
  | init tables => cases hmap; cases h; exact .init tables ‹_›
  | document d => cases hmap; cases h; exact .document d ‹_›
  | gradient g => cases hmap; cases h; exact .gradient g ‹_› ‹_›
  | beginGroup attrs => cases hmap; cases h; exact .beginGroup attrs ‹_› ‹_›
  | endGroup => cases hmap; cases h; exact .endGroup _ _ ‹_›
  | clip c => cases hmap; cases h; exact .clip c ‹_›
  | beginMask => cases hmap; cases h; exact .beginMask ‹_›
  | maskContent => cases hmap; cases h; exact .maskContent _ ‹_›
  | endMask => cases hmap; cases h; exact .endMask _ ‹_›
  | image leaf => cases hmap; cases h; exact .image leaf ‹_› ‹_›
  | use ref => cases hmap; cases h; exact .use ref ‹_› ‹_›

end Nesting.Accepted

/-- Related indices of two sets of resources stand for the same values. -/
structure Renaming.Matches (ρ : Renaming) (r s : Resources) : Prop where
  images : ∀ i j v, ρ.images i j → r.image i = .ok v → s.image j = .ok v
  strings : ∀ i j v, ρ.strings i j → r.string i = .ok v → s.string j = .ok v
  floatLists : ∀ i j v, ρ.floatLists i j → r.floatList i = .ok v → s.floatList j = .ok v
  gradients : ∀ i j g, ρ.gradients i j → r.gradient i = .ok g →
    ∃ h, s.gradient j = .ok h ∧ g.Renames ρ h

namespace Resources

variable {r r' : Resources}

theorem resolveSource_renames (hmatch : ρ.Matches r r') {s t : PaintSource} {v : ResolvedSource}
    (h : s.Renames ρ t) (hs : r.resolveSource s = .ok v) : r'.resolveSource t = .ok v := by
  cases h with
  | solid c => exact hs
  | gradient h =>
    obtain ⟨g, hg, hs⟩ := bind_eq_ok.mp hs
    obtain ⟨offsets, hoffsets, hs⟩ := bind_eq_ok.mp hs
    cases hs
    obtain ⟨g', hg', hrenames⟩ := hmatch.gradients _ _ _ h hg
    refine bind_eq_ok.mpr ⟨g', hg', bind_eq_ok.mpr ⟨offsets, ?_, ?_⟩⟩
    · exact hmatch.floatLists _ _ _ hrenames.offsets hoffsets
    · rw [hrenames.kind, hrenames.colors, hrenames.spread, hrenames.transform]
      rfl

private theorem resolveFill_renames (hmatch : ρ.Matches r r') {f g : Fill} {v : ResolvedFill}
    (h : f.Renames ρ g) (hf : r.resolveFill f = .ok v) : r'.resolveFill g = .ok v := by
  obtain ⟨source, hsource, hf⟩ := bind_eq_ok.mp hf
  cases hf
  refine bind_eq_ok.mpr ⟨source, resolveSource_renames hmatch h.source hsource, ?_⟩
  rw [h.rule]
  rfl

private theorem option_mapM_renames {α β : Type} {R : α → α → Prop} {f g : α → Except Error β}
    (hfg : ∀ a b v, R a b → f a = .ok v → g b = .ok v) {a b : Option α} {v : Option β}
    (h : Option.Rel R a b) (ha : a.mapM f = .ok v) : b.mapM g = .ok v := by
  cases h with
  | none => exact ha
  | some h =>
    obtain ⟨w, hw, rfl⟩ := option_mapM_some.mp ha
    exact option_mapM_some.mpr ⟨w, hfg _ _ _ h hw, rfl⟩

private theorem resolveStroke_renames (hmatch : ρ.Matches r r') {s t : Stroke} {v : ResolvedStroke}
    (h : s.Renames ρ t) (hs : r.resolveStroke s = .ok v) : r'.resolveStroke t = .ok v := by
  obtain ⟨source, hsource, hs⟩ := bind_eq_ok.mp hs
  obtain ⟨dash, hdash, hs⟩ := bind_eq_ok.mp hs
  cases hs
  refine bind_eq_ok.mpr ⟨source, resolveSource_renames hmatch h.source hsource,
    bind_eq_ok.mpr ⟨dash, option_mapM_renames hmatch.floatLists h.dash hdash, ?_⟩⟩
  rw [h.width, h.cap, h.join, h.miterLimit, h.dashOffset]
  rfl

theorem resolvePaint_renames (hmatch : ρ.Matches r r') {p q : Paint} {v : Style}
    (h : p.Renames ρ q) (hp : r.resolvePaint p = .ok v) : r'.resolvePaint q = .ok v := by
  obtain ⟨fill, hfill, hp⟩ := bind_eq_ok.mp hp
  obtain ⟨stroke, hstroke, hp⟩ := bind_eq_ok.mp hp
  cases hp
  exact bind_eq_ok.mpr ⟨fill, option_mapM_renames (f := r.resolveFill) (g := r'.resolveFill)
      (fun _ _ _ => resolveFill_renames hmatch) h.fill hfill,
    bind_eq_ok.mpr ⟨stroke, option_mapM_renames (f := r.resolveStroke) (g := r'.resolveStroke)
      (fun _ _ _ => resolveStroke_renames hmatch) h.stroke hstroke, rfl⟩⟩

theorem resolveText_renames (hmatch : ρ.Matches r r') {s t : TextLeaf} {v : ResolvedText}
    (h : s.Renames ρ t) (hs : r.resolveText s = .ok v) : r'.resolveText t = .ok v := by
  obtain ⟨text, htext, hs⟩ := bind_eq_ok.mp hs
  obtain ⟨family, hfamily, hs⟩ := bind_eq_ok.mp hs
  cases hs
  refine bind_eq_ok.mpr ⟨text, hmatch.strings _ _ _ h.text htext,
    bind_eq_ok.mpr ⟨family, option_mapM_renames hmatch.strings h.family hfamily, ?_⟩⟩
  rw [h.size, h.origin, h.anchor]
  rfl

end Resources

end VectorImage
