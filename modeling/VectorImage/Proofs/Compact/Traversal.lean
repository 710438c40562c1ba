import VectorImage.Proofs.Compact.Scan
import VectorImage.Proofs.Drawing.Sketch

/-!
What a walk over a stream paints. Entries spell painter's steps: a group spells the steps between
its brackets, and a use spells the group that its name leads to, which lies before it. A walk over
entries that spell steps follows these steps, whatever group it is in.
-/

set_option autoImplicit false
set_option relaxedAutoImplicit false

namespace VectorImage

namespace Compact

variable {r : Resources} {contents : Contents}

/-- The step of a call that is neither a group nor a use. -/
inductive Draws (r : Resources) : Call → List PaintStep → Prop
  | init (t : Tables) : Draws r (.init t) []
  | document (d : Document) : Draws r (.document d) []
  | gradient (g : Gradient) : Draws r (.gradient g) []
  | clip (c : ClipPath) : Draws r (.clip c) [.clip c]
  | beginMask : Draws r .beginMask [.beginMask]
  | maskContent : Draws r .maskContent [.maskContent]
  | endMask : Draws r .endMask [.endMask]
  | shape {s : Shape} {step : PaintStep} (h : r.shapeStep s = .ok step) : Draws r (.shape s) [step]
  | image {leaf : ImageLeaf} {step : PaintStep} (h : r.imageStep leaf = .ok step) :
    Draws r (.image leaf) [step]
  | text {leaf : TextLeaf} {step : PaintStep} (h : r.textStep leaf = .ok step) :
    Draws r (.text leaf) [step]

/-- The entries of a group and the steps of a painter for it, from its opcode to its end. -/
def groupEntries (start : Nat) (attrs : GroupAttrs) (inner : List Entry) (stop : Nat) : List Entry :=
  ⟨start, .beginGroup attrs⟩ :: (inner ++ [⟨stop, .endGroup⟩])

def groupSteps (attrs : GroupAttrs) (inner : List PaintStep) : List PaintStep :=
  .beginGroup attrs.transform attrs.alpha :: (inner ++ [.endGroup])

/-- The steps that entries spell, all groups in them closed. -/
inductive Spells (r : Resources) (contents : Contents) : List Entry → List PaintStep → Prop
  | nil : Spells r contents [] []
  | call {e : Entry} {step rest' : List PaintStep} {rest : List Entry} (he : Draws r e.call step)
      (hrest : Spells r contents rest rest') : Spells r contents (e :: rest) (step ++ rest')
  | group {start stop : Nat} {attrs : GroupAttrs} {inner rest : List Entry}
      {inner' rest' : List PaintStep} (hinner : Spells r contents inner inner')
      (hrest : Spells r contents rest rest') :
    Spells r contents (groupEntries start attrs inner stop ++ rest)
      (groupSteps attrs inner' ++ rest')
  | use {offset start stop : Nat} {u : UseRef} {attrs : GroupAttrs} {inner after rest : List Entry}
      {inner' rest' : List PaintStep} (hname : attrs.exportId = some u.target)
      (hexport : contents.exports.lookup u.target = some start)
      (hgroup : (contents.entries.dropWhile fun e => e.offset < start) =
        groupEntries start attrs inner stop ++ after)
      (hbefore : ∀ e ∈ groupEntries start attrs inner stop, e.offset < offset)
      (hinner : Spells r contents inner inner') (hrest : Spells r contents rest rest') :
    Spells r contents (⟨offset, .use u⟩ :: rest)
      (.beginUse u.transform :: (groupSteps attrs inner' ++ .endUse :: rest'))

theorem Spells.append {es fs : List Entry} {steps steps' : List PaintStep}
    (h : Spells r contents es steps) (h' : Spells r contents fs steps') :
    Spells r contents (es ++ fs) (steps ++ steps') := by
  induction h with
  | nil => exact h'
  | call he hrest ih =>
    rw [List.cons_append, List.append_assoc]
    exact .call he ih
  | group hinner hrest _ ih =>
    rw [List.append_assoc, List.append_assoc]
    exact .group hinner ih
  | use hname hexport hgroup hbefore hinner hrest _ ih =>
    simp only [List.cons_append, List.append_assoc]
    exact .use hname hexport hgroup hbefore hinner ih

theorem Spells.single {e : Entry} {step : List PaintStep} (he : Draws r e.call step) :
    Spells r contents [e] step := by
  have h : Spells r contents [e] (step ++ []) := .call he .nil
  rw [List.append_nil] at h
  exact h

open CompactImage (walk)

private theorem walk_draws {limit depth : Nat} {single : Bool} {e : Entry} {step : List PaintStep}
    {rest : List Entry} {p : Painter} (he : Draws r e.call step) (hlimit : e.offset < limit) :
    walk r contents limit single depth (e :: rest) p =
      walk r contents limit single depth rest (p.follow step) := by
  obtain ⟨offset, call⟩ := e
  rw [walk, dif_pos hlimit]
  cases he with
  | init t => rfl
  | document d => rfl
  | gradient g => rfl
  | clip c => rfl
  | beginMask => rfl
  | maskContent => rfl
  | endMask => rfl
  | shape h =>
    dsimp only
    rw [Resources.shape_of_step h]
    rfl
  | image h =>
    dsimp only
    rw [Resources.image_of_step h]
    rfl
  | text h =>
    dsimp only
    rw [Resources.text_of_step h]
    rfl

/-- A walk over entries that spell steps follows the steps and goes on after them. It cannot end
in them: a walk over a single group is inside the group. -/
theorem walk_spells {es : List Entry} {steps : List PaintStep} (h : Spells r contents es steps) :
    ∀ {limit depth : Nat} {single : Bool} {rest : List Entry} {p : Painter},
      (∀ e ∈ es, e.offset < limit) → (single = true → 0 < depth) →
        walk r contents limit single depth (es ++ rest) p =
          walk r contents limit single depth rest (p.follow steps) := by
  induction h with
  | nil =>
    intro limit depth single rest p _ _
    rfl
  | call he hrest ih =>
    intro limit depth single rest p hlimit hdepth
    rw [List.cons_append, walk_draws he (hlimit _ List.mem_cons_self), Painter.follow_append]
    exact ih (fun e hmem => hlimit e (List.mem_cons_of_mem _ hmem)) hdepth
  | @group start stop attrs inner rest' inner' steps' hinner hrest ihinner ihrest =>
    intro limit depth single rest p hlimit hdepth
    have hinnerLimit : ∀ e ∈ inner, e.offset < limit := fun e he =>
      hlimit e (by simp [groupEntries, he])
    have hopen : start < limit := hlimit ⟨start, .beginGroup attrs⟩ (by simp [groupEntries])
    have hclose : stop < limit := hlimit ⟨stop, .endGroup⟩ (by simp [groupEntries])
    have hcontinue : (single && (depth + 1 - 1 == 0)) = false := by
      cases single with
      | false => rfl
      | true =>
        have := hdepth rfl
        simp only [Nat.add_sub_cancel, Bool.true_and, beq_eq_false_iff_ne]
        omega
    simp only [groupEntries, groupSteps, List.cons_append, List.append_assoc, List.nil_append]
    rw [walk, dif_pos hopen]
    dsimp only
    rw [ihinner hinnerLimit (fun _ => Nat.succ_pos depth), walk, dif_pos hclose]
    dsimp only
    rw [hcontinue, if_neg Bool.false_ne_true]
    show walk r contents limit single depth (rest' ++ rest) _ = _
    rw [ihrest (fun e he => hlimit e (List.mem_append_right _ he)) hdepth]
    simp [Painter.step]
  | @use offset start stop u attrs inner after rest' inner' steps' hname hexport hgroup hbefore
      hinner hrest ihinner ihrest =>
    intro limit depth single rest p hlimit hdepth
    have hopen : start < offset := hbefore ⟨start, .beginGroup attrs⟩ (by simp [groupEntries])
    have hclose : stop < offset := hbefore ⟨stop, .endGroup⟩ (by simp [groupEntries])
    have hinnerLimit : ∀ e ∈ inner, e.offset < offset := fun e he =>
      hbefore e (by simp [groupEntries, he])
    have hwalk (q : Painter) : walk r contents offset true 0
        (contents.entries.dropWhile fun e => e.offset < start) q =
          .ok (q.follow (groupSteps attrs inner')) := by
      rw [hgroup]
      simp only [groupEntries, groupSteps, List.cons_append, List.append_assoc, List.nil_append]
      rw [walk, dif_pos hopen]
      dsimp only
      rw [ihinner hinnerLimit (fun _ => Nat.succ_pos 0), walk, dif_pos hclose]
      simp [Painter.step]
    rw [List.cons_append, walk, dif_pos (hlimit ⟨offset, .use u⟩ List.mem_cons_self)]
    dsimp only
    rw [hexport]
    dsimp only
    rw [hwalk]
    show walk r contents limit single depth (rest' ++ rest) _ = _
    rw [ihrest (fun e he => hlimit e (List.mem_cons_of_mem _ he)) hdepth]
    simp [Painter.step]

/-- An image whose entries spell steps paints these steps. -/
theorem primitives_of_spells {c : CompactImage} {steps : List PaintStep}
    (h : Spells c.resources c.contents c.contents.entries steps) :
    c.primitives = .ok (Painter.start.follow steps).finish := by
  have hread := read_of_scan c.valid
  have hwalk : walk c.resources c.contents c.ops.length false 0 c.contents.entries .start =
      .ok (Painter.start.follow steps) := by
    have hfollow : walk c.resources c.contents c.ops.length false 0 (c.contents.entries ++ [])
        .start = _ := walk_spells h (fun e he => hread.offset_lt he) (fun he => nomatch he)
    rw [List.append_nil] at hfollow
    rw [hfollow, walk]
  exact bind_eq_ok.mpr ⟨_, hwalk, rfl⟩

end Compact

end VectorImage
