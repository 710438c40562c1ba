import VectorImage.Drawing.Bounds
import VectorImage.Proofs.Drawing.Context

/-!
What a drawing covers outside the halves of masks. Least and greatest numbers do not depend on how
the operands are bracketed, not even where some of them are no numbers or zeros of either sign, so
the extents of the parts of a drawing can be united part by part.
-/

set_option autoImplicit false
set_option relaxedAutoImplicit false

namespace VectorImage

namespace Binary64

theorem min_assoc (a b c : Binary64) : (a.min b).min c = a.min (b.min c) := by
  unfold Binary64.min
  grind

theorem max_assoc (a b c : Binary64) : (a.max b).max c = a.max (b.max c) := by
  unfold Binary64.max
  grind

end Binary64

theorem Rect.union_assoc (r s t : Rect) : (r.union s).union t = r.union (s.union t) := by
  simp only [union, Binary64.min_assoc, Binary64.max_assoc]

/-- What is covered with one extent more, if there is one. -/
def Rect.cover (covered extent : Option Rect) : Option Rect :=
  match extent with
  | some r => some (unionOption covered r)
  | none => covered

namespace Rect

@[simp]
theorem cover_none (covered : Option Rect) : cover covered none = covered := rfl

@[simp]
theorem none_cover (extent : Option Rect) : cover none extent = extent := by
  cases extent <;> rfl

theorem cover_assoc (a b c : Option Rect) : cover (cover a b) c = cover a (cover b c) := by
  cases a with
  | none => rw [none_cover, none_cover]
  | some r =>
    cases b with
    | none => rw [cover_none, none_cover]
    | some s =>
      cases c with
      | none => rfl
      | some t => exact congrArg some (union_assoc r s t)

theorem cover_eq_none {covered extent : Option Rect} :
    cover covered extent = none ↔ covered = none ∧ extent = none := by
  cases extent with
  | none => exact (and_iff_left rfl).symm
  | some r => exact iff_of_false nofun fun h => nomatch h.2

end Rect

section Union

variable {first rest : List (Option Rect)}

theorem unionBounds_cons (extent : Option Rect) (rest : List (Option Rect)) :
    unionBounds (extent :: rest) = Rect.cover extent (unionBounds rest) := by
  show List.foldl Rect.cover (Rect.cover none extent) rest = _
  rw [Rect.none_cover]
  induction rest generalizing extent with
  | nil => rfl
  | cons next rest ih =>
    rw [List.foldl_cons, ih, Rect.cover_assoc]
    congr 1
    show _ = List.foldl Rect.cover (Rect.cover none next) rest
    rw [Rect.none_cover, ih]

theorem unionBounds_append (first rest : List (Option Rect)) :
    unionBounds (first ++ rest) = Rect.cover (unionBounds first) (unionBounds rest) := by
  induction first with
  | nil => exact (Rect.none_cover _).symm
  | cons extent first ih =>
    rw [List.cons_append, unionBounds_cons, unionBounds_cons, ih, Rect.cover_assoc]

/-- A union is missing only if all its parts are. -/
theorem unionBounds_eq_none {extents : List (Option Rect)} :
    unionBounds extents = none ↔ ∀ extent ∈ extents, extent = none := by
  induction extents with
  | nil => exact iff_of_true rfl (List.forall_mem_nil _)
  | cons extent rest ih => rw [unionBounds_cons, Rect.cover_eq_none, ih, List.forall_mem_cons]

end Union

theorem drawingBounds_append (first rest : List Primitive) :
    drawingBounds (first ++ rest) = Rect.cover (drawingBounds first) (drawingBounds rest) := by
  rw [drawingBounds, List.map_append]
  exact unionBounds_append ..

theorem drawingBounds_eq_none {drawn : List Primitive} :
    drawingBounds drawn = none ↔ ∀ p ∈ drawn, p.bounds = none :=
  unionBounds_eq_none.trans List.forall_mem_map

theorem LeavesOpen.enterAll_eq {drawn : List Primitive} (h : LeavesOpen 0 drawn) (place : Nat)
    (around : List Placed) : Placed.enterAll around (drawn.zipIdx place) = around := by
  obtain ⟨opened, hlength, hopened⟩ := h place around
  rw [hopened, List.eq_nil_of_length_eq_zero hlength, List.nil_append]

/-! Outside mask halves. -/

namespace Placed

/-- None of the brackets is the half of a mask that is drawn first. -/
def outside (around : List Placed) : Bool := around.all fun p => p.1 != .beginMask

/-- The primitives around which no mask half is open. -/
def exposed (around ps : List Placed) : List Primitive :=
  ((inContext around ps).filter fun p => outside p.2).map fun p => p.1.1

variable {around : List Placed}

theorem exposed_cons (p : Placed) (ps : List Placed) : exposed around (p :: ps) =
    (if outside around then [p.1] else []) ++ exposed (p.enter around) ps := by
  unfold exposed
  rw [inContext, List.filter_cons]
  cases outside around <;> rfl

theorem exposed_append (first rest : List Placed) :
    exposed around (first ++ rest) =
      exposed around first ++ exposed (enterAll around first) rest := by
  unfold exposed
  rw [inContext_append, List.filter_append, List.map_append]

theorem exposed_subset (ps : List Placed) : exposed around ps ⊆ ps.map Prod.fst := by
  intro p hp
  obtain ⟨placed, hplaced, rfl⟩ := List.mem_map.mp hp
  have hmem := List.mem_map_of_mem (f := Prod.fst) (List.mem_of_mem_filter hplaced)
  rw [map_fst_inContext] at hmem
  exact List.mem_map_of_mem hmem

theorem exposed_boundless {drawn : List Primitive} (h : ∀ p ∈ drawn, p.bounds = none)
    {place : Nat} : drawingBounds (exposed around (drawn.zipIdx place)) = none :=
  drawingBounds_eq_none.mpr fun p hp =>
    h p (List.zipIdx_map_fst place drawn ▸ exposed_subset _ hp)

/-- A primitive without an extent does not count, but for the bracket that it is. -/
theorem drawingBounds_exposed_cons {p : Primitive} (hp : p.bounds = none) (i : Nat)
    (ps : List Placed) : drawingBounds (exposed around ((p, i) :: ps)) =
      drawingBounds (exposed (enter around (p, i)) ps) := by
  have hfirst : drawingBounds (if outside around then [p] else []) = none := by
    refine drawingBounds_eq_none.mpr fun q hq => ?_
    split at hq
    · exact List.mem_singleton.mp hq ▸ hp
    · cases hq
  rw [exposed_cons, drawingBounds_append, hfirst, Rect.none_cover]

theorem outside_tail (h : outside around = true) : outside around.tail = true :=
  List.all_eq_true.mpr fun p hp => List.all_eq_true.mp h p (List.mem_of_mem_tail hp)

theorem outside_cons {p : Placed} (hp : p.1 ≠ .beginMask) :
    outside (p :: around) = outside around := by
  rw [outside, List.all_cons, bne_iff_ne.mpr hp]
  rfl

theorem outside_enter {p : Placed} (hp : p.1 ≠ .beginMask) (h : outside around = true) :
    outside (p.enter around) = true := by
  unfold enter
  split
  case h_3 hmask => exact absurd hmask hp
  case h_1 | h_2 => exact (outside_cons hp).trans h
  case h_4 => exact (outside_cons hp).trans (outside_tail h)
  case h_5 | h_6 | h_7 => exact outside_tail h
  case h_8 | h_9 | h_10 => exact h

/-- Where no mask begins, nothing is in a mask half. -/
theorem exposed_of_no_mask {ps : List Placed} (hps : ∀ p ∈ ps, p.1 ≠ .beginMask)
    (h : outside around = true) : exposed around ps = ps.map Prod.fst := by
  induction ps generalizing around with
  | nil => rfl
  | cons p ps ih =>
    obtain ⟨hp, hps⟩ := List.forall_mem_cons.mp hps
    rw [exposed_cons, if_pos h, ih hps (outside_enter hp h)]
    rfl

end Placed

/-- The primitives of a drawing outside all mask halves, in paint order. -/
def outsideMasks (drawn : List Primitive) : List Primitive := Placed.exposed [] drawn.zipIdx

theorem outsideMasks_of_no_mask {drawn : List Primitive} (h : Primitive.beginMask ∉ drawn) :
    outsideMasks drawn = drawn := by
  have hzip : ∀ p ∈ drawn.zipIdx, p.1 ≠ .beginMask := fun p hp =>
    ne_of_mem_of_not_mem (List.zipIdx_map_fst 0 drawn ▸ List.mem_map_of_mem hp) h
  rw [outsideMasks, Placed.exposed_of_no_mask hzip rfl, List.zipIdx_map_fst]

/-- Wherever they stand, the primitives leave no mask half open that was not, and what of them is
outside mask halves covers the extent. -/
structure Covers (drawn : List Primitive) (extent : Option Rect) : Prop where
  outside : ∀ (place : Nat) (around : List Placed),
    Placed.outside (Placed.enterAll around (drawn.zipIdx place)) = Placed.outside around
  extent : ∀ (place : Nat) (around : List Placed),
    drawingBounds (Placed.exposed around (drawn.zipIdx place)) =
      if Placed.outside around then extent else none

namespace Covers

variable {drawn rest mask content : List Primitive} {extent extent' : Option Rect}

theorem outsideMasks (h : Covers drawn extent) :
    drawingBounds (outsideMasks drawn) = extent := h.extent 0 []

theorem nil : Covers [] none :=
  ⟨fun _ _ => rfl, fun _ _ => (ite_self _).symm⟩

theorem append (h : Covers drawn extent) (h' : Covers rest extent') :
    Covers (drawn ++ rest) (Rect.cover extent extent') := by
  refine ⟨fun place around => ?_, fun place around => ?_⟩
  · rw [List.zipIdx_append, Placed.enterAll_append, h'.outside, h.outside]
  · rw [List.zipIdx_append, Placed.exposed_append, drawingBounds_append, h.extent, h'.extent,
      h.outside]
    cases Placed.outside around <;> rfl

/-- A primitive that is no bracket covers its extent. -/
theorem single {p : Primitive} (hp : ∀ (place : Nat) (around : List Placed),
    Placed.enter around (p, place) = around) : Covers [p] p.bounds := by
  refine ⟨fun place around => ?_, fun place around => ?_⟩
  · exact congrArg Placed.outside (hp place around)
  · rw [List.zipIdx_singleton, Placed.exposed_cons]
    cases Placed.outside around with
    | false => rfl
    | true => exact Rect.none_cover _

/-- What is closed by as many ends of clips as clips are open covers what it did. -/
theorem popClips {clips : Nat} (h : Covers drawn extent) (hopen : LeavesOpen clips drawn) :
    Covers (drawn ++ List.replicate clips .popClip) extent := by
  refine ⟨fun place around => by rw [hopen.popClips.enterAll_eq], fun place around => ?_⟩
  have hpops : ∀ p ∈ List.replicate clips Primitive.popClip, p.bounds = none :=
    fun p hp => List.eq_of_mem_replicate hp ▸ rfl
  rw [List.zipIdx_append, Placed.exposed_append, drawingBounds_append, h.extent,
    Placed.exposed_boundless hpops, Rect.cover_none]

theorem clip (path : Path) (rule : FillRule) (t : Affine) : Covers [.pushClip path rule t] none := by
  refine ⟨fun place around => Placed.outside_cons nofun, fun place around => ?_⟩
  rw [Placed.exposed_boundless (List.forall_mem_singleton.mpr rfl)]
  exact (ite_self _).symm

/-- A group covers what is in it. -/
theorem layered (h : Covers drawn extent) (hclosed : LeavesOpen 0 drawn) (alpha : UInt8) :
    Covers (layered alpha drawn) extent := by
  have hlayer := hclosed.layered alpha
  refine ⟨fun place around => by rw [hlayer.enterAll_eq], fun place around => ?_⟩
  unfold VectorImage.layered
  split
  · exact h.extent place around
  · have hinside (i : Nat) : Placed.outside ((.pushLayer alpha, i) :: around) =
        Placed.outside around := Placed.outside_cons nofun
    rw [List.zipIdx_cons, Placed.drawingBounds_exposed_cons rfl, List.zipIdx_append,
      Placed.exposed_append, drawingBounds_append, h.extent,
      Placed.exposed_boundless (List.forall_mem_singleton.mpr rfl), Rect.cover_none]
    simp only [Placed.enter, hinside]

/-- A masked content covers what it does without the mask. -/
theorem masked (hmask : Covers mask extent) (hcontent : Covers content extent')
    (hmaskClosed : LeavesOpen 0 mask) (hcontentClosed : LeavesOpen 0 content) :
    Covers (maskedBy mask content) extent' := by
  have hclosed := hmaskClosed.mask hcontentClosed
  refine ⟨fun place around => by rw [hclosed.enterAll_eq], fun place around => ?_⟩
  have hinside (i : Nat) : Placed.outside ((.beginMask, i) :: around) = false := rfl
  have hbehind (i : Nat) : Placed.outside ((.maskedContent, i) :: around) =
      Placed.outside around := Placed.outside_cons nofun
  unfold maskedBy
  rw [List.zipIdx_cons, Placed.drawingBounds_exposed_cons rfl, List.zipIdx_append,
    Placed.exposed_append, drawingBounds_append, hmask.extent, hmaskClosed.enterAll_eq,
    List.zipIdx_cons, Placed.drawingBounds_exposed_cons rfl, List.zipIdx_append,
    Placed.exposed_append, drawingBounds_append, hcontent.extent,
    Placed.exposed_boundless (List.forall_mem_singleton.mpr rfl), Rect.cover_none]
  simp [Placed.enter, hinside, hbehind]

end Covers

end VectorImage
