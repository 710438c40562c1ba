import Mathlib.Data.List.Induction
import VectorImage.Proofs.Compact.Seeding

/-!
The gradients that an encoder registers in tables that hold every value already. The offsets of a
gradient are placed at the first of their positions, so two gradients of one definition are one
entry, whatever indices the stream has for their offsets: each definition is registered once.
-/

set_option autoImplicit false
set_option relaxedAutoImplicit false

namespace VectorImage

/-! First occurrences. -/

theorem filter_eraseDups {α : Type} [DecidableEq α] (p : α → Bool) (l : List α) :
    l.eraseDups.filter p = (l.filter p).eraseDups := by
  induction l using List.reverseRecOn with
  | nil => rfl
  | append_singleton l a ih =>
    rw [eraseDups_concat, List.filter_append, List.filter_append, ih]
    cases hp : p a with
    | true =>
      have hmem : a ∈ l.filter p ↔ a ∈ l := by simp [hp]
      rw [List.filter_cons_of_pos hp, List.filter_nil, eraseDups_concat]
      simp only [hmem]
      split <;> simp [hp]
    | false =>
      rw [List.filter_cons_of_neg (by simp [hp]), List.filter_nil, List.append_nil]
      split <;> simp [hp]

/-- First occurrences, mapped, have the first occurrences of what the whole list is mapped to. -/
theorem mapM_eraseDups {ε α β : Type} [DecidableEq α] [DecidableEq β] {f : α → Except ε β}
    {as : List α} {bs : List β} (h : as.mapM f = .ok bs) :
    ∃ ds, as.eraseDups.mapM f = .ok ds ∧ ds.eraseDups = bs.eraseDups := by
  induction as using List.reverseRecOn generalizing bs with
  | nil => exact ⟨bs, h, rfl⟩
  | append_singleton as a ih =>
    obtain ⟨bs, last, hbs, hlast, rfl⟩ := mapM_append_eq_ok.mp h
    obtain ⟨b, rest, hb, hrest, rfl⟩ := mapM_cons_eq_ok.mp hlast
    obtain rfl := mapM_nil_eq_ok.mp hrest
    obtain ⟨ds, hds, hsame⟩ := ih hbs
    rw [eraseDups_concat, eraseDups_concat]
    by_cases ha : a ∈ as
    · obtain ⟨b', hb', hmem⟩ := mem_of_mem_mapM hbs ha
      cases hb.symm.trans hb'
      rw [if_pos ha, if_pos hmem, List.append_nil, List.append_nil]
      exact ⟨ds, hds, hsame⟩
    · rw [if_neg ha]
      refine ⟨ds ++ [b], mapM_append_eq_ok.mpr ⟨ds, [b], hds, hlast, rfl⟩, ?_⟩
      rw [eraseDups_concat, hsame]
      have hmem : b ∈ ds ↔ b ∈ bs := by
        rw [← List.mem_eraseDups, hsame, List.mem_eraseDups]
      simp only [hmem]

/-! Definitions. -/

/-- What gradients mean in tables. -/
def TableSet.define (t : TableSet) (g : Gradient) : Except Error ResolvedGradient :=
  (Resources.ofTables t.tables).define g

variable {t : TableSet} {g k : Gradient} {d : ResolvedGradient}

theorem TableSet.define_eq_ok : t.define g = .ok d ↔ ∃ offsets, t.floatList g.offsets = .ok offsets ∧
    d = ⟨g.kind, offsets, g.colors, g.spread, g.transform⟩ := by
  unfold TableSet.define Resources.define
  rw [bind_eq_ok]
  exact exists_congr fun offsets => and_congr_right fun _ => pure_eq_ok.trans eq_comm

/-- The offsets of a gradient are at the first of their positions. -/
def Gradient.First (t : TableSet) (g : Gradient) : Prop :=
  ∃ xs, t.floatLists.find? xs = some g.offsets.toNat

/-- Gradients with their offsets at the first positions are told apart by their definitions. -/
theorem Gradient.First.eq_of_define (hg : g.First t) (hk : k.First t) (hgd : t.define g = .ok d)
    (hkd : t.define k = .ok d) : g = k := by
  have hfirst {a : Gradient} (ha : a.First t) {xs : List Binary64}
      (hxs : t.floatList a.offsets = .ok xs) : t.floatLists.find? xs = some a.offsets.toNat := by
    obtain ⟨ys, hys⟩ := ha
    have hlist : t.floatList a.offsets = .ok ys := CanonicalTable.lookup_of_find? hys
    cases hlist.symm.trans hxs
    exact hys
  obtain ⟨xs, hxs, rfl⟩ := TableSet.define_eq_ok.mp hgd
  obtain ⟨ys, hys, hd⟩ := TableSet.define_eq_ok.mp hkd
  cases g
  cases k
  cases hd
  have hoffsets := Option.some.inj ((hfirst hg hxs).symm.trans (hfirst hk hys))
  cases UInt32.toNat_inj.mp hoffsets
  rfl

/-- A table of gradients that have the definitions `ds`, each once and in the order in which they
come first. -/
structure CanonicalTable.Registers (t : TableSet) (ds : List ResolvedGradient)
    (table : CanonicalTable Gradient) : Prop where
  built : table.Built
  defined : List.Forall₂ (fun k d => t.define k = .ok d) table.entries.toList ds.eraseDups
  first : ∀ k ∈ table.entries, k.First t

namespace CanonicalTable.Registers

variable {ds : List ResolvedGradient} {table : CanonicalTable Gradient}

theorem empty (t : TableSet) : CanonicalTable.empty.Registers t [] := by
  refine ⟨built_empty, .nil, ?_⟩
  intro k hk
  exact absurd hk (Array.not_mem_empty k)

/-- A gradient that is found has a definition that has been there. -/
theorem known (h : table.Registers t ds) (hd : t.define k = .ok d) {i : Nat}
    (hfound : table.find? k = some i) : table.Registers t (ds ++ [d]) := by
  have hmem : k ∈ table.entries.toList :=
    Array.mem_toList_iff.mpr (mem_of_find? hfound)
  obtain ⟨d', hd', hsame⟩ := exists_related h.defined hmem
  cases hd.symm.trans hsame
  refine ⟨h.built, ?_, h.first⟩
  rw [eraseDups_concat, if_pos (List.mem_eraseDups.mp hd'), List.append_nil]
  exact h.defined

/-- A gradient that is not found has a new definition. -/
theorem push (h : table.Registers t ds) (hfirst : k.First t) (hd : t.define k = .ok d)
    (hnew : table.find? k = none) : (table.push k).Registers t (ds ++ [d]) := by
  have hmem : d ∉ ds := by
    intro hmem
    obtain ⟨k', hk', hsame⟩ := exists_related h.defined.flip (List.mem_eraseDups.mpr hmem)
    have hentry := Array.mem_toList_iff.mp hk'
    obtain rfl := hfirst.eq_of_define (h.first k' hentry) hd hsame
    obtain ⟨i, hi⟩ := h.built.bucketed.find?_progress hentry
    cases hnew.symm.trans hi
  refine ⟨h.built.push k, ?_, ?_⟩
  · rw [eraseDups_concat, if_neg hmem, entries_push, Array.toList_push]
    exact List.rel_append h.defined (.cons hd .nil)
  · intro k' hk'
    rcases Array.mem_push.mp hk' with hk' | rfl
    · exact h.first k' hk'
    · exact hfirst

end CanonicalTable.Registers

namespace Encoder

/-- What a gradient is registered under is defined as the gradient. -/
theorem FirstPlaces.canonical {e : Encoder} (he : e.FirstPlaces t) {offsets : UInt32}
    (hround : g.round e.width = g)
    (hoffsets : lookup e.floatLists .floatList g.offsets = .ok offsets) (hd : t.define g = .ok d) :
    (e.canonical g offsets).First t ∧ t.define (e.canonical g offsets) = .ok d := by
  obtain ⟨xs, hxs, hfound⟩ := he hoffsets
  refine ⟨⟨xs, hfound⟩, ?_⟩
  obtain ⟨ys, hys, rfl⟩ := TableSet.define_eq_ok.mp hd
  cases hxs.symm.trans hys
  rw [Encoder.canonical, hround]
  exact TableSet.define_eq_ok.mpr ⟨xs, CanonicalTable.lookup_of_find? hfound, rfl⟩

/-- Of the gradients of a stream one is registered for each definition, in the order in which the
definitions come first. -/
theorem Trail.registers {p q : Position Encoder} {gradients : List Gradient}
    (h : Trail t p (gradients.map .gradient) q) (ht : t.Stored p.session.state.width)
    (hplaces : p.session.state.FirstPlaces t)
    (hheld : ∀ g ∈ gradients, (Call.gradient g).HeldBy t) {before ds : List ResolvedGradient}
    (hbefore : p.session.state.gradients.Registers t before)
    (hds : List.Forall₂ (fun g d => t.define g = .ok d) gradients ds) :
    q.session.state.gradients.Registers t (before ++ ds) := by
  induction hds generalizing p before with
  | nil =>
    cases h
    rwa [List.append_nil]
  | @cons g d gradients ds hd _ ih =>
    obtain ⟨hg, hlater⟩ := List.forall_mem_cons.mp hheld
    have hround := Call.gradient.inj (hg.round ht trivial)
    rw [List.append_cons]
    cases h with
    | cons hstep hrest =>
      cases hstep with
      | step hmap haccept hputs =>
        cases hmap
        cases hputs with
        | write hne => exact absurd rfl (hne g)
        | registered hinterned hoffsets hfound =>
          obtain ⟨-, hcanonical⟩ := hplaces.canonical hround hoffsets hd
          have hregisters := hbefore.known hcanonical hfound
          rw [hinterned.same] at hrest
          exact ih hrest ht hplaces hlater hregisters
        | gradient hinterned hoffsets hnew =>
          obtain ⟨hfirst, hcanonical⟩ := hplaces.canonical hround hoffsets hd
          have hregisters := hbefore.push hfirst hcanonical hnew
          rw [hinterned.same] at hrest
          exact ih hrest ht hplaces hlater hregisters

end Encoder

end VectorImage
