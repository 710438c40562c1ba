import Mathlib.Data.List.Chain
import Mathlib.Data.List.Nodup
import VectorImage.Cache.Recency

/-!
What the arena of a recency list holds. The live slots, from the least to the most recently linked,
make up a ring with the sentinel: the next slot of each is the one after it, whose previous slot
it is. All other slots are free.
-/

set_option autoImplicit false
set_option relaxedAutoImplicit false

namespace VectorImage

namespace Recency

variable {κ : Type} {r : Recency κ} {live first rest : List (Nat × κ)} {i j : Nat} {key : κ}

/-- Slot `j` comes after slot `i`. -/
structure Link (r : Recency κ) (i j : Nat) : Prop where
  next : (r.slot i).next = j
  prev : (r.slot j).prev = i

/-- The slots that are live, with their keys, from the front of the list to its back. -/
structure Ring (r : Recency κ) (live : List (Nat × κ)) : Prop where
  slots : (live.map Prod.fst ++ r.free).Perm (List.range' 1 (r.slots.size - 1))
  nonempty : 0 < r.slots.size
  links : (head :: (live.map Prod.fst ++ [head])).IsChain r.Link
  keys : ∀ e ∈ live, (r.slot e.1).key = some e.2
  sentinel : (r.slot head).key = none
  free : ∀ i ∈ r.free, (r.slot i).key = none
  length : r.length = live.length

theorem ring_empty : (empty : Recency κ).Ring [] := by
  refine ⟨.refl _, Nat.one_pos, .cons_cons ⟨rfl, rfl⟩ (.singleton _), ?_, rfl, ?_, rfl⟩
  · intro e he
    cases he
  · intro i hi
    cases hi

/-! Slots after a write. -/

@[simp]
theorem size_setNext (r : Recency κ) (i next : Nat) :
    (r.setNext i next).slots.size = r.slots.size := Array.size_modify ..

@[simp]
theorem size_setPrev (r : Recency κ) (i prev : Nat) :
    (r.setPrev i prev).slots.size = r.slots.size := Array.size_modify ..

private theorem slot_modify (hi : i < r.slots.size) (f : RecencySlot κ → RecencySlot κ)
    (free : List Nat) (length j : Nat) :
    (⟨r.slots.modify i f, free, length⟩ : Recency κ).slot j =
      if j = i then f (r.slot i) else r.slot j := by
  unfold slot
  rw [Array.getD_eq_getD_getElem?, Array.getElem?_modify]
  by_cases hj : j = i
  · rw [if_pos hj, if_pos hj.symm, Array.getD_eq_getD_getElem?, hj]
    simp [hi]
  · rw [if_neg hj, if_neg (Ne.symm hj), Array.getD_eq_getD_getElem?]

private theorem slot_push (new : RecencySlot κ) (free : List Nat) (length j : Nat) :
    (⟨r.slots.push new, free, length⟩ : Recency κ).slot j =
      if j = r.slots.size then new else r.slot j := by
  unfold slot
  rw [Array.getD_eq_getD_getElem?, Array.getElem?_push]
  split
  · rfl
  · rw [Array.getD_eq_getD_getElem?]

@[simp]
theorem slot_setNext (hi : i < r.slots.size) (next j : Nat) :
    (r.setNext i next).slot j =
      { r.slot j with next := if j = i then next else (r.slot j).next } := by
  refine (slot_modify hi _ _ _ j).trans ?_
  by_cases hj : j = i
  · rw [if_pos hj, if_pos hj, hj]
  · rw [if_neg hj, if_neg hj]

@[simp]
theorem slot_setPrev (hi : i < r.slots.size) (prev j : Nat) :
    (r.setPrev i prev).slot j =
      { r.slot j with prev := if j = i then prev else (r.slot j).prev } := by
  refine (slot_modify hi _ _ _ j).trans ?_
  by_cases hj : j = i
  · rw [if_pos hj, if_pos hj, hj]
  · rw [if_neg hj, if_neg hj]

/-! Slots of a ring. -/

/-- A chain is one of another relation that holds where the first does, off its ends. -/
private theorem chain_imp {R S : Nat → Nat → Prop} {l : List Nat} (h : l.IsChain R)
    (himp : ∀ a ∈ l.dropLast, ∀ b ∈ l.tail, R a b → S a b) : l.IsChain S := by
  have hall {as bs : List Nat} (h : List.Forall₂ R as bs)
      (himp : ∀ a ∈ as, ∀ b ∈ bs, R a b → S a b) : List.Forall₂ S as bs := by
    induction h with
    | nil => exact .nil
    | cons hab _ ih =>
      exact .cons (himp _ List.mem_cons_self _ List.mem_cons_self hab) (ih fun a ha b hb =>
        himp a (List.mem_cons_of_mem _ ha) b (List.mem_cons_of_mem _ hb))
  exact List.isChain_iff_forall₂.mpr (hall (List.isChain_iff_forall₂.mp h) himp)

namespace Ring

theorem nodup (h : r.Ring live) : (live.map Prod.fst ++ r.free).Nodup :=
  h.slots.nodup_iff.mpr List.nodup_range'

/-- Live and free slots are in the arena, after the sentinel. -/
theorem mem_bounds (h : r.Ring live) (hi : i ∈ live.map Prod.fst ++ r.free) :
    head < i ∧ i < r.slots.size := by
  have hmem := List.mem_range'_1.mp (h.slots.mem_iff.mp hi)
  have hpos := h.nonempty
  unfold head
  omega

/-- All slots of the cycle are in the arena. -/
theorem lt_size (h : r.Ring live) (hi : i ∈ head :: (live.map Prod.fst ++ [head])) :
    i < r.slots.size := by
  rcases List.mem_cons.mp hi with rfl | hi
  · exact h.nonempty
  · rcases List.mem_append.mp hi with hi | hi
    · exact (h.mem_bounds (List.mem_append_left _ hi)).2
    · exact List.mem_singleton.mp hi ▸ h.nonempty

theorem nodup_live (h : r.Ring live) : (head :: live.map Prod.fst).Nodup := by
  refine List.nodup_cons.mpr ⟨fun hmem => ?_, (List.nodup_append.mp h.nodup).1⟩
  exact Nat.lt_irrefl _ (h.mem_bounds (List.mem_append_left _ hmem)).1

end Ring

/-- Slots that are written at their ends and at slot `i` only leave a chain that keeps off them. -/
private theorem chain_of_agrees {r' : Recency κ} {p n : Nat} {l : List Nat}
    (h : l.IsChain r.Link)
    (hnext : ∀ j, j ≠ p → j ≠ i → (r'.slot j).next = (r.slot j).next)
    (hprev : ∀ j, j ≠ n → j ≠ i → (r'.slot j).prev = (r.slot j).prev)
    (hp : p ∉ l.dropLast) (hn : n ∉ l.tail) (hi : i ∉ l) : l.IsChain r'.Link := by
  refine chain_imp h fun a ha b hb hab => ⟨?_, ?_⟩
  · rw [hnext a (ne_of_mem_of_not_mem ha hp)
      (ne_of_mem_of_not_mem (List.dropLast_subset l ha) hi)]
    exact hab.next
  · rw [hprev b (ne_of_mem_of_not_mem hb hn) (ne_of_mem_of_not_mem (List.mem_of_mem_tail hb) hi)]
    exact hab.prev

/-! Linking a key. -/

/-- A slot that has been claimed for a key: it is neither live nor free. -/
structure Claims (r : Recency κ) (live : List (Nat × κ)) (key : κ) (r' : Recency κ) (i : Nat) :
    Prop where
  slots : (i :: (live.map Prod.fst ++ r'.free)).Perm (List.range' 1 (r'.slots.size - 1))
  larger : r.slots.size ≤ r'.slots.size
  key : (r'.slot i).key = some key
  same : ∀ j, j ≠ i → r'.slot j = r.slot j
  free : ∀ j ∈ r'.free, (r.slot j).key = none
  length : r'.length = r.length

/-- The slot that is claimed was free, or did not exist. -/
theorem Ring.claim (h : r.Ring live) (key : κ) :
    r.Claims live key (r.claim key).1 (r.claim key).2 := by
  unfold Recency.claim
  cases hfree : r.free with
  | nil =>
    have hslots := h.slots
    rw [hfree, List.append_nil] at hslots
    have hpos := h.nonempty
    refine ⟨?_, ?_, ?_, ?_, ?_, rfl⟩
    · dsimp only
      rw [List.append_nil, Array.size_push]
      have hsize : r.slots.size + 1 - 1 = (r.slots.size - 1) + 1 := by omega
      rw [hsize, List.range'_concat]
      refine List.Perm.trans ?_ (List.perm_append_singleton _ _).symm
      rw [show 1 + 1 * (r.slots.size - 1) = r.slots.size by omega]
      exact hslots.cons _
    · exact (Array.size_push _).symm ▸ Nat.le_succ _
    · dsimp only
      rw [slot_push, if_pos rfl]
    · intro j hj
      exact (slot_push _ _ _ j).trans (if_neg hj)
    · intro j hj
      cases hj
  | cons i free =>
    have hi : i ∈ live.map Prod.fst ++ r.free := by
      rw [hfree]
      exact List.mem_append_right _ List.mem_cons_self
    have hlt := (h.mem_bounds hi).2
    refine ⟨?_, ?_, ?_, ?_, ?_, rfl⟩
    · have hslots := h.slots
      rw [hfree] at hslots
      rw [Array.size_modify]
      exact List.perm_middle.symm.trans hslots
    · exact Nat.le_of_eq Array.size_modify.symm
    · dsimp only
      rw [slot_modify hlt, if_pos rfl]
    · intro j hj
      exact (slot_modify hlt _ _ _ j).trans (if_neg hj)
    · intro j hj
      exact h.free j (hfree ▸ List.mem_cons_of_mem i hj)

/-- Slot `i` linked between slot `t` and the sentinel. -/
private def linkLast (r : Recency κ) (i t : Nat) : Recency κ :=
  (({ r with slots := r.slots.modify i fun s => { s with prev := t, next := head } }).setNext
    t i).setPrev head i

private theorem slot_linkLast {t : Nat} (hi : i < r.slots.size) (ht : t < r.slots.size)
    (hhead : head < r.slots.size) (j : Nat) :
    (r.linkLast i t).slot j =
      ⟨if j = head then i else if j = i then t else (r.slot j).prev,
        if j = t then i else if j = i then head else (r.slot j).next, (r.slot j).key⟩ := by
  have hsize : ({ r with
      slots := r.slots.modify i fun s => { s with prev := t, next := head } } :
        Recency κ).slots.size = r.slots.size := Array.size_modify
  rw [linkLast, slot_setPrev (by rw [size_setNext, hsize]; exact hhead), slot_setNext (hsize ▸ ht),
    slot_modify hi]
  by_cases hj : j = i
  · rw [if_pos hj, if_pos hj, if_pos hj, hj]
  · rw [if_neg hj, if_neg hj, if_neg hj]

private theorem size_linkLast (i t : Nat) : (r.linkLast i t).slots.size = r.slots.size := by
  unfold linkLast
  rw [size_setPrev, size_setNext]
  exact Array.size_modify

/-- A chain to the sentinel with slot `i` between slot `t` and the sentinel. -/
private theorem chain_linkLast {r' : Recency κ} {t : Nat} {before : List Nat}
    (h : (before ++ [t]).IsChain r.Link) (hdistinct : (before ++ [t]).Nodup)
    (hhead : head ∉ (before ++ [t]).tail) (hi : i ∉ head :: (before ++ [t]))
    (hold : ∀ j, j ≠ i → r'.slot j =
      ⟨if j = head then i else (r.slot j).prev, if j = t then i else (r.slot j).next,
        (r.slot j).key⟩)
    (hnew : (r'.slot i).prev = t ∧ (r'.slot i).next = head) :
    (before ++ t :: i :: [head]).IsChain r'.Link := by
  obtain ⟨hne, hi⟩ := not_or.mp (fun hor => hi (List.mem_cons.mpr hor))
  have hti : t ≠ i := fun hsame => hi (hsame ▸ List.mem_append_right _ List.mem_cons_self)
  refine List.isChain_append_cons_cons.mpr
    ⟨?_, ⟨?_, hnew.1⟩, .cons_cons ⟨hnew.2, ?_⟩ (.singleton _)⟩
  · refine chain_of_agrees (p := t) h ?_ ?_ ?_ hhead hi
    · exact fun j hjt hji => (congrArg RecencySlot.next (hold j hji)).trans (if_neg hjt)
    · exact fun j hjh hji => (congrArg RecencySlot.prev (hold j hji)).trans (if_neg hjh)
    · rw [List.dropLast_concat]
      exact fun hmem => (List.nodup_append.mp hdistinct).2.2 t hmem t List.mem_cons_self rfl
  · exact (congrArg RecencySlot.next (hold t hti)).trans (if_pos rfl)
  · rw [hold head (Ne.symm hne), if_pos rfl]

/-- Linking a key puts it last. -/
theorem Ring.pushBack (h : r.Ring live) (key : κ) :
    (r.pushBack key).1.Ring (live ++ [((r.pushBack key).2, key)]) := by
  have hclaims := h.claim key
  unfold Recency.pushBack
  generalize r.claim key = c at hclaims ⊢
  obtain ⟨r', i⟩ := c
  dsimp only at hclaims ⊢
  -- the last slot, the sentinel if there is none
  obtain ⟨before, t, hlast⟩ : ∃ before t, head :: live.map Prod.fst = before ++ [t] :=
    ⟨_, _, (List.dropLast_append_getLast (List.cons_ne_nil _ _)).symm⟩
  have hcycle : head :: ((live ++ [(i, key)]).map Prod.fst ++ [head]) =
      before ++ t :: i :: [head] := by
    rw [List.map_append, ← List.cons_append, ← List.cons_append, hlast]
    simp
  have hnodup := h.nodup_live
  have hlinks := h.links
  rw [← List.cons_append, hlast, List.append_assoc, List.singleton_append,
    List.isChain_append_cons_cons] at hlinks
  obtain ⟨hbefore, hlink, -⟩ := hlinks
  have hrange := List.mem_range'_1.mp (hclaims.slots.mem_iff.mp List.mem_cons_self)
  have hfresh := (List.nodup_cons.mp (hclaims.slots.nodup_iff.mpr List.nodup_range')).1
  have hne : i ≠ head := by
    unfold head
    omega
  have hi : i ∉ before ++ [t] := by
    rw [← hlast, List.mem_cons, not_or]
    exact ⟨hne, fun hmem => hfresh (List.mem_append_left _ hmem)⟩
  have ht : t < r'.slots.size := by
    refine Nat.lt_of_lt_of_le (h.lt_size ?_) hclaims.larger
    rw [← List.cons_append, hlast]
    exact List.mem_append_left _ (List.mem_append_right _ List.mem_cons_self)
  rw [show (r'.slot head).prev = t by rw [hclaims.same head hne.symm]; exact hlink.prev]
  have hslot := slot_linkLast (r := r') (i := i) (by omega) ht
    (Nat.lt_of_lt_of_le h.nonempty hclaims.larger)
  have hold (j : Nat) (hj : j ≠ i) : (r'.linkLast i t).slot j =
      ⟨if j = head then i else (r.slot j).prev, if j = t then i else (r.slot j).next,
        (r.slot j).key⟩ := by
    rw [hslot, hclaims.same j hj, if_neg hj, if_neg hj]
  have hnew : (r'.linkLast i t).slot i = ⟨t, head, some key⟩ := by
    have hti : i ≠ t := fun hsame => hi (hsame ▸ List.mem_append_right _ List.mem_cons_self)
    rw [hslot, if_neg hne, if_pos rfl, if_neg hti, if_pos rfl, hclaims.key]
  have hkey (j : Nat) (hj : j ≠ i) : ((r'.linkLast i t).slot j).key = (r.slot j).key :=
    (congrArg RecencySlot.key (hold j hj)).trans rfl
  show Ring { r'.linkLast i t with length := r'.length + 1 } (live ++ [(i, key)])
  refine ⟨?_, (size_linkLast i t).symm ▸ Nat.lt_of_lt_of_le h.nonempty hclaims.larger, ?_, ?_,
    (hkey head hne.symm).trans h.sentinel, ?_, ?_⟩
  · rw [size_linkLast, List.map_append, List.append_assoc]
    exact List.perm_middle.trans hclaims.slots
  · rw [hcycle]
    refine chain_linkLast hbefore (hlast ▸ hnodup) ?_ ?_ hold
      ⟨congrArg RecencySlot.prev hnew, congrArg RecencySlot.next hnew⟩
    · rw [← hlast]
      exact (List.nodup_cons.mp hnodup).1
    · exact fun hmem => (List.mem_cons.mp hmem).elim hne hi
  · intro e he
    rcases List.mem_append.mp he with he | he
    · have hmem : e.1 ∈ before ++ [t] := hlast ▸ List.mem_cons_of_mem _ (List.mem_map_of_mem he)
      exact (hkey e.1 (ne_of_mem_of_not_mem hmem hi)).trans (h.keys e he)
    · obtain rfl := List.mem_singleton.mp he
      exact congrArg RecencySlot.key hnew
  · intro j hj
    have hji : j ≠ i := fun hsame => hfresh (hsame ▸ List.mem_append_right _ hj)
    exact (hkey j hji).trans (hclaims.free j hj)
  · rw [List.length_append]
    exact congrArg (· + 1) (hclaims.length.trans h.length)

/-! Unlinking a slot. -/

/-- Slot `i` unlinked from between slots `p` and `n`. -/
private def unlink (r : Recency κ) (i p n : Nat) : Recency κ :=
  (({ r with slots := r.slots.modify i fun s => { s with key := none } }).setNext p n).setPrev n p

private theorem slot_unlink {p n : Nat} (hi : i < r.slots.size) (hp : p < r.slots.size)
    (hn : n < r.slots.size) (j : Nat) :
    (r.unlink i p n).slot j =
      ⟨if j = n then p else (r.slot j).prev, if j = p then n else (r.slot j).next,
        if j = i then none else (r.slot j).key⟩ := by
  have hsize : ({ r with slots := r.slots.modify i fun s => { s with key := none } } :
      Recency κ).slots.size = r.slots.size := Array.size_modify
  rw [unlink, slot_setPrev (by rw [size_setNext, hsize]; exact hn), slot_setNext (hsize ▸ hp),
    slot_modify hi]
  by_cases hj : j = i
  · rw [if_pos hj, if_pos hj, hj]
  · rw [if_neg hj, if_neg hj]

private theorem size_unlink (i p n : Nat) : (r.unlink i p n).slots.size = r.slots.size := by
  unfold unlink
  rw [size_setPrev, size_setNext]
  exact Array.size_modify

private theorem remove_eq {p n : Nat} (hne : i ≠ head) (hlt : i < r.slots.size)
    (hslot : r.slot i = ⟨p, n, some key⟩) :
    r.remove i =
      ({ r.unlink i p n with free := i :: r.free, length := r.length - 1 }, some key) := by
  have hget : r.slots[i]? = some ⟨p, n, some key⟩ := by
    rw [slot, Array.getD_eq_getD_getElem?] at hslot
    rw [Array.getElem?_eq_getElem hlt] at hslot ⊢
    exact congrArg some hslot
  unfold Recency.remove
  rw [if_neg hne, hget]
  rfl

/-- A chain that passes no slot twice, but for its two ends, without the slot between `p` and
`n`. -/
private theorem chain_unlink {r' : Recency κ} {p n : Nat} {before after : List Nat}
    (h : (before ++ p :: i :: n :: after).IsChain r.Link)
    (hfrom : (before ++ p :: i :: n :: after).dropLast.Nodup)
    (hto : (before ++ p :: i :: n :: after).tail.Nodup)
    (hnext : ∀ j, (r'.slot j).next = if j = p then n else (r.slot j).next)
    (hprev : ∀ j, (r'.slot j).prev = if j = n then p else (r.slot j).prev) :
    (before ++ p :: n :: after).IsChain r'.Link := by
  obtain ⟨hfront, -, hback⟩ := List.isChain_append_cons_cons.mp h
  have hcut : before ++ p :: i :: n :: after = (before ++ [p]) ++ i :: n :: after := by simp
  rw [hcut, List.dropLast_append_of_ne_nil (List.cons_ne_nil _ _), List.dropLast_cons_cons,
    List.nodup_append] at hfrom
  rw [hcut, List.tail_append_of_ne_nil (by simp), List.nodup_append] at hto
  obtain ⟨hbefore, -, happart⟩ := hfrom
  obtain ⟨-, hafter, happart'⟩ := hto
  have hn : n ∈ i :: n :: after := List.mem_cons_of_mem i List.mem_cons_self
  have hp : p ∈ before ++ [p] := List.mem_append_right _ List.mem_cons_self
  have hnext' (j : Nat) (hj : j ≠ p) (_ : j ≠ i) : (r'.slot j).next = (r.slot j).next :=
    (hnext j).trans (if_neg hj)
  have hprev' (j : Nat) (hj : j ≠ n) (_ : j ≠ i) : (r'.slot j).prev = (r.slot j).prev :=
    (hprev j).trans (if_neg hj)
  refine List.isChain_append_cons_cons.mpr ⟨?_, ⟨(hnext p).trans (if_pos rfl),
    (hprev n).trans (if_pos rfl)⟩, ?_⟩
  · refine chain_of_agrees hfront hnext' hprev' ?_ (fun hmem => happart' n hmem n hn rfl)
      fun hmem => happart i hmem i List.mem_cons_self rfl
    rw [List.dropLast_concat]
    exact fun hmem => (List.nodup_append.mp hbefore).2.2 p hmem p List.mem_cons_self rfl
  · exact chain_of_agrees hback.of_cons hnext' hprev'
      (fun hmem => happart p hp p (List.mem_cons_of_mem i hmem) rfl)
      (List.nodup_cons.mp (List.nodup_cons.mp hafter).2).1 (List.nodup_cons.mp hafter).1

/-- Unlinking a live slot answers its key and leaves the others in their order. -/
theorem Ring.remove (h : r.Ring (first ++ (i, key) :: rest)) :
    (r.remove i).2 = some key ∧ (r.remove i).1.Ring (first ++ rest) := by
  -- the slots before and after it, either of which may be the sentinel
  obtain ⟨before, p, hbefore⟩ : ∃ before p, head :: first.map Prod.fst = before ++ [p] :=
    ⟨_, _, (List.dropLast_append_getLast (List.cons_ne_nil _ _)).symm⟩
  obtain ⟨n, after, hafter⟩ : ∃ n after, rest.map Prod.fst ++ [head] = n :: after :=
    List.exists_cons_of_ne_nil (List.append_ne_nil_of_right_ne_nil _ (List.cons_ne_nil _ _))
  have hcycle : head :: ((first ++ (i, key) :: rest).map Prod.fst ++ [head]) =
      before ++ p :: i :: n :: after := by
    rw [List.map_append, List.map_cons, List.append_assoc, List.cons_append, hafter,
      ← List.cons_append, hbefore]
    simp
  have hcycle' : head :: ((first ++ rest).map Prod.fst ++ [head]) = before ++ p :: n :: after := by
    rw [List.map_append, List.append_assoc, hafter, ← List.cons_append, hbefore]
    simp
  have hlt (j : Nat) (hj : j ∈ before ++ p :: i :: n :: after) : j < r.slots.size :=
    h.lt_size (hcycle ▸ hj)
  have hnodup := h.nodup_live
  have hmem : i ∈ (first ++ (i, key) :: rest).map Prod.fst :=
    List.mem_map_of_mem (List.mem_append_right first List.mem_cons_self)
  have hne : i ≠ head := ne_of_mem_of_not_mem hmem (List.nodup_cons.mp hnodup).1
  have hlinks := hcycle ▸ h.links
  obtain ⟨-, hlink, hlinks'⟩ := List.isChain_append_cons_cons.mp hlinks
  have hslot : r.slot i = ⟨p, n, some key⟩ := by
    have hkey := h.keys (i, key) (List.mem_append_right first List.mem_cons_self)
    rw [← hlink.prev, ← (List.isChain_cons_cons.mp hlinks').1.next, ← hkey]
  have hfrom : (before ++ p :: i :: n :: after).dropLast.Nodup := by
    rw [← hcycle, ← List.cons_append, List.dropLast_concat]
    exact hnodup
  have hto : (before ++ p :: i :: n :: after).tail.Nodup := by
    rw [← hcycle, List.tail_cons]
    exact (List.perm_append_singleton _ _).nodup_iff.mpr hnodup
  have hwritten := slot_unlink (hlt i (by simp)) (hlt p (by simp)) (hlt n (by simp))
  have hkey (j : Nat) (hj : j ≠ i) : ((r.unlink i p n).slot j).key = (r.slot j).key := by
    rw [hwritten]
    exact if_neg hj
  have hfreed : ((r.unlink i p n).slot i).key = none := by
    rw [hwritten]
    exact if_pos rfl
  have hslots : (i :: ((first ++ rest).map Prod.fst ++ r.free)).Perm
      (List.range' 1 (r.slots.size - 1)) := by
    refine List.Perm.trans ?_ h.slots
    rw [List.map_append, List.map_append, List.map_cons, List.append_assoc, List.append_assoc]
    exact List.perm_middle.symm
  have hleft : i ∉ (first ++ rest).map Prod.fst ++ r.free :=
    (List.nodup_cons.mp (hslots.nodup_iff.mpr List.nodup_range')).1
  rw [remove_eq hne (hlt i (by simp)) hslot]
  refine ⟨rfl, ?_, (size_unlink i p n).symm ▸ h.nonempty, ?_, ?_,
    (hkey head hne.symm).trans h.sentinel, ?_, ?_⟩
  · rw [size_unlink]
    exact List.perm_middle.trans hslots
  · rw [hcycle']
    exact chain_unlink hlinks hfrom hto (fun j => congrArg RecencySlot.next (hwritten j))
      fun j => congrArg RecencySlot.prev (hwritten j)
  · intro e he
    have hei : e.1 ≠ i :=
      ne_of_mem_of_not_mem (List.mem_append_left _ (List.mem_map_of_mem he)) hleft
    refine (hkey e.1 hei).trans (h.keys e ?_)
    exact ((List.sublist_cons_self _ _).append_left first).subset he
  · intro j hj
    rcases List.mem_cons.mp hj with rfl | hj
    · exact hfreed
    · exact (hkey j (ne_of_mem_of_not_mem (List.mem_append_right _ hj) hleft)).trans (h.free j hj)
  · show r.length - 1 = _
    rw [h.length, List.length_append, List.length_append, List.length_cons]
    omega

/-- Unlinking the first of the live slots. -/
theorem Ring.popFront (h : r.Ring ((i, key) :: rest)) :
    r.popFront.2 = some key ∧ r.popFront.1.Ring rest := by
  have hfirst : (r.slot head).next = i := by
    have hlinks := h.links
    rw [List.map_cons, List.cons_append, List.isChain_cons_cons] at hlinks
    exact hlinks.1.next
  unfold Recency.popFront
  rw [hfirst]
  have hring : r.Ring ([] ++ (i, key) :: rest) := h
  exact hring.remove

/-- The keys along a chain that leads from slot `i` to the sentinel. -/
private theorem keysFrom_next {fuel : Nat}
    (hlinks : (i :: (live.map Prod.fst ++ [head])).IsChain r.Link)
    (hkeys : ∀ e ∈ live, (r.slot e.1).key = some e.2) (hsentinel : (r.slot head).key = none)
    (hfuel : live.length ≤ fuel) : r.keysFrom fuel (r.slot i).next = live.map Prod.snd := by
  induction live generalizing fuel i with
  | nil =>
    have hnext : (r.slot i).next = head := (List.isChain_cons_cons.mp hlinks).1.next
    cases fuel with
    | zero => rfl
    | succ fuel => simp only [keysFrom, hnext, hsentinel, List.map_nil]
  | cons e live ih =>
    rw [List.map_cons, List.cons_append, List.isChain_cons_cons] at hlinks
    obtain ⟨hlink, hlinks⟩ := hlinks
    have hkey := hkeys e List.mem_cons_self
    cases fuel with
    | zero => cases hfuel
    | succ fuel =>
      simp only [keysFrom, hlink.next, hkey, List.map_cons]
      rw [ih hlinks (fun e he => hkeys e (List.mem_cons_of_mem _ he))
        (Nat.le_of_succ_le_succ hfuel)]

theorem Ring.length_le (h : r.Ring live) : live.length ≤ r.slots.size := by
  have hlength := h.slots.length_eq
  rw [List.length_append, List.length_map, List.length_range'] at hlength
  omega

/-- The keys of the live slots are listed from the front to the back. -/
theorem Ring.toList (h : r.Ring live) : r.toList = live.map Prod.snd :=
  keysFrom_next h.links h.keys h.sentinel h.length_le

end Recency

end VectorImage
