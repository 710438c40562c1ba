import Mathlib.Data.List.Iterate
import VectorImage.Proofs.Cache.Ring

/-!
A recency list as a list with handles. Slots are handed out for keys and taken back, in any order
and by any number, also by one that was never handed out or no longer is. The arena has the keys
of the slots that are out, in the order in which they were handed out: along the ring one way and
along it the other way.
-/

set_option autoImplicit false
set_option relaxedAutoImplicit false

namespace VectorImage

inductive RecencyCall (κ : Type)
  | pushBack (key : κ)
  | remove (slot : Nat)
  | popFront
  deriving DecidableEq, Inhabited

/-- A call with its answer: the slot for a key, or the key of a slot. -/
inductive RecencyEvent (κ : Type)
  | pushed (key : κ) (slot : Nat)
  | removed (slot : Nat) (key? : Option κ)
  | popped (key? : Option κ)
  deriving DecidableEq, Inhabited

namespace RecencyEvent

variable {κ : Type}

/-- The slots that are out after an event, with their keys: a new one comes last. -/
def apply (out : List (Nat × κ)) : RecencyEvent κ → List (Nat × κ)
  | .pushed key slot => out ++ [(slot, key)]
  | .removed slot _ => out.filter fun e => e.1 != slot
  | .popped _ => out.tail

/-- The slots that are out after some events, in the order in which they were handed out. -/
def out (events : List (RecencyEvent κ)) : List (Nat × κ) := events.foldl apply []

/-- The key that an event put into a slot. -/
def pushedInto? (slot : Nat) : RecencyEvent κ → Option κ
  | .pushed key used => if used = slot then some key else none
  | _ => none

/-- The key that was last put into a slot. -/
def lastPushedInto? (events : List (RecencyEvent κ)) (slot : Nat) : Option κ :=
  events.reverse.findSome? (pushedInto? slot)

theorem out_concat (events : List (RecencyEvent κ)) (e : RecencyEvent κ) :
    out (events ++ [e]) = apply (out events) e := List.foldl_concat ..

theorem lastPushedInto?_concat (events : List (RecencyEvent κ)) (e : RecencyEvent κ) (slot : Nat) :
    lastPushedInto? (events ++ [e]) slot =
      (e.pushedInto? slot).or (lastPushedInto? events slot) := by
  unfold lastPushedInto?
  rw [List.reverse_concat, List.findSome?_cons]
  cases e.pushedInto? slot <;> rfl

/-- An event that puts no key into a slot hands out no key for it. -/
theorem mem_of_mem_apply {out : List (Nat × κ)} {e : RecencyEvent κ} {entry : Nat × κ}
    (h : entry ∈ apply out e) (hnone : e.pushedInto? entry.1 = none) : entry ∈ out := by
  cases e with
  | pushed key slot =>
    rcases List.mem_append.mp h with h | h
    · exact h
    · obtain rfl := List.mem_singleton.mp h
      exact nomatch (if_pos rfl).symm.trans hnone
  | removed slot key? => exact List.mem_of_mem_filter h
  | popped key? => exact List.mem_of_mem_tail h

end RecencyEvent

namespace Recency

variable {κ : Type} {r : Recency κ} {live : List (Nat × κ)} {i : Nat} {key : κ}

def step (r : Recency κ) : RecencyCall κ → Recency κ × RecencyEvent κ
  | .pushBack key => ((r.pushBack key).1, .pushed key (r.pushBack key).2)
  | .remove slot => ((r.remove slot).1, .removed slot (r.remove slot).2)
  | .popFront => (r.popFront.1, .popped r.popFront.2)

/-- The list after a sequence of calls, and the calls with their answers. -/
def run (r : Recency κ) : List (RecencyCall κ) → Recency κ × List (RecencyEvent κ)
  | [] => (r, [])
  | call :: calls =>
    let (r, event) := r.step call
    let (r, events) := r.run calls
    (r, event :: events)

/-- A slot that holds a key. -/
def IsLive (r : Recency κ) (i : Nat) : Prop := (r.slot i).key.isSome

/-- Reading on from slot `i`: its key and the slot to read next. -/
def advance (r : Recency κ) (i : Nat) : Option (κ × Nat) :=
  (r.slot i).key.map fun key => (key, (r.slot i).next)

/-- Reading on from slot `i` comes to an end, with these keys. -/
inductive Yields (r : Recency κ) : Nat → List κ → Prop
  | stop {i : Nat} : r.advance i = none → r.Yields i []
  | step {i j : Nat} {key : κ} {keys : List κ} :
      r.advance i = some (key, j) → r.Yields j keys → r.Yields i (key :: keys)

/-! The ring. -/

/-- What is followed along a chain of its steps is the chain. -/
private theorem iterate_of_chain {f : Nat → Nat} {a : Nat} {l : List Nat}
    (h : (a :: l).IsChain fun i j => f i = j) : List.iterate f a (l.length + 1) = a :: l := by
  induction l generalizing a with
  | nil => rfl
  | cons b l ih =>
    obtain ⟨hab, h⟩ := List.isChain_cons_cons.mp h
    rw [List.length_cons, List.iterate, hab, ih h]

namespace Ring

theorem iterate_next (h : r.Ring live) :
    List.iterate (fun i => (r.slot i).next) head (live.length + 2) =
      head :: (live.map Prod.fst ++ [head]) := by
  have hiterate := iterate_of_chain (f := fun i => (r.slot i).next)
    (h.links.imp fun _ _ hlink => hlink.next)
  rwa [List.length_append, List.length_map, List.length_singleton] at hiterate

theorem iterate_prev (h : r.Ring live) :
    List.iterate (fun i => (r.slot i).prev) head (live.length + 2) =
      head :: ((live.map Prod.fst).reverse ++ [head]) := by
  have hlinks : (head :: ((live.map Prod.fst).reverse ++ [head])).IsChain
      fun i j => (r.slot i).prev = j := by
    have hreverse := List.isChain_reverse.mpr h.links
    rw [List.reverse_cons, List.reverse_concat] at hreverse
    exact hreverse.imp fun _ _ hlink => hlink.prev
  have hiterate := iterate_of_chain hlinks
  rwa [List.length_append, List.length_reverse, List.length_map, List.length_singleton] at hiterate

/-- The live slots are those with a key. -/
theorem isLive_iff (h : r.Ring live) : r.IsLive i ↔ i ∈ live.map Prod.fst := by
  constructor
  · intro hlive
    by_contra hmem
    refine absurd hlive (Option.not_isSome_iff_eq_none.mpr ?_)
    rcases Nat.eq_zero_or_pos i with rfl | hpos
    · exact h.sentinel
    by_cases hlt : i < r.slots.size
    · have hrange : i ∈ List.range' 1 (r.slots.size - 1) :=
        List.mem_range'_1.mpr ⟨hpos, by omega⟩
      exact h.free i ((List.mem_append.mp (h.slots.mem_iff.mpr hrange)).resolve_left hmem)
    · rw [slot, Array.getD_eq_getD_getElem?, Array.getElem?_eq_none (Nat.le_of_not_lt hlt)]
      rfl
  · intro hmem
    obtain ⟨e, he, rfl⟩ := List.mem_map.mp hmem
    exact Option.isSome_iff_exists.mpr ⟨e.2, h.keys e he⟩

/-- A slot that is handed out for a key is out already for no other. -/
theorem pushBack_not_mem (h : r.Ring live) (key : κ) :
    (r.pushBack key).2 ∉ live.map Prod.fst ∧ (r.pushBack key).2 ≠ head := by
  have hnodup := (h.pushBack key).nodup_live
  rw [List.map_append, List.map_singleton, ← List.cons_append, List.nodup_append] at hnodup
  have hapart {j : Nat} (hj : j ∈ head :: live.map Prod.fst) : j ≠ (r.pushBack key).2 :=
    hnodup.2.2 j hj _ List.mem_cons_self
  exact ⟨fun hmem => hapart (List.mem_cons_of_mem _ hmem) rfl, (hapart List.mem_cons_self).symm⟩

end Ring

/-- A slot without a key is not unlinked. -/
theorem remove_of_not_isLive (h : ¬ r.IsLive i) : r.remove i = (r, none) := by
  unfold IsLive slot at h
  rw [Array.getD_eq_getD_getElem?] at h
  unfold remove
  split
  · rfl
  · split
    · rename_i hget
      rw [hget] at h
      exact absurd rfl h
    · rfl

theorem Ring.popFront_nil (h : r.Ring []) : r.popFront = (r, none) := by
  have hnext : (r.slot head).next = head := (List.isChain_cons_cons.mp h.links).1.next
  unfold Recency.popFront
  rw [hnext]
  exact if_pos rfl

/-- Slots that are passed once, without one of them. -/
private theorem filter_of_nodup {first rest : List (Nat × κ)}
    (h : ((first ++ (i, key) :: rest).map Prod.fst).Nodup) :
    (first ++ (i, key) :: rest).filter (fun e => e.1 != i) = first ++ rest := by
  rw [List.map_append, List.map_cons] at h
  have hnot := (List.nodup_middle.mp h)
  have hkeep : ∀ e ∈ first ++ rest, (e.1 != i) = true := by
    intro e he
    refine bne_iff_ne.mpr (ne_of_mem_of_not_mem ?_ (List.nodup_cons.mp hnot).1)
    rw [← List.map_append]
    exact List.mem_map_of_mem he
  have happend := List.filter_eq_self.mpr hkeep
  rw [List.filter_append] at happend
  rw [List.filter_append, List.filter_cons_of_neg (by simp), happend]

/-- A call keeps the ring, of the slots that are out after it. -/
theorem Ring.step (h : r.Ring live) (call : RecencyCall κ) :
    (r.step call).1.Ring ((r.step call).2.apply live) := by
  cases call with
  | pushBack key => exact h.pushBack key
  | remove i =>
    by_cases hmem : i ∈ live.map Prod.fst
    · obtain ⟨⟨_, key⟩, he, rfl⟩ := List.mem_map.mp hmem
      obtain ⟨first, rest, rfl⟩ := List.append_of_mem he
      show ((r.remove _).1).Ring (List.filter _ _)
      rw [filter_of_nodup (List.nodup_cons.mp h.nodup_live).2]
      exact h.remove.2
    · show ((r.remove i).1).Ring (List.filter _ _)
      rw [remove_of_not_isLive (mt h.isLive_iff.mp hmem), List.filter_eq_self.mpr]
      · exact h
      · exact fun e he => bne_iff_ne.mpr (ne_of_mem_of_not_mem (List.mem_map_of_mem he) hmem)
  | popFront =>
    cases live with
    | nil =>
      show r.popFront.1.Ring []
      rw [h.popFront_nil]
      exact h
    | cons e rest => exact h.popFront.2

/-! Runs. -/

theorem run_concat (r : Recency κ) (calls : List (RecencyCall κ)) (call : RecencyCall κ) :
    r.run (calls ++ [call]) =
      (((r.run calls).1.step call).1, (r.run calls).2 ++ [((r.run calls).1.step call).2]) := by
  induction calls generalizing r with
  | nil => rfl
  | cons first calls ih => simp only [List.cons_append, run, ih]

/-- The ring is that of the slots that are out, each with the key last put into it. -/
structure Holds (r : Recency κ) (events : List (RecencyEvent κ)) : Prop where
  ring : r.Ring (RecencyEvent.out events)
  lastPushed : ∀ e ∈ RecencyEvent.out events,
    RecencyEvent.lastPushedInto? events e.1 = some e.2

theorem Holds.step {events : List (RecencyEvent κ)} (h : r.Holds events) (call : RecencyCall κ) :
    (r.step call).1.Holds (events ++ [(r.step call).2]) := by
  refine ⟨RecencyEvent.out_concat events _ ▸ h.ring.step call, fun e he => ?_⟩
  rw [RecencyEvent.out_concat] at he
  rw [RecencyEvent.lastPushedInto?_concat]
  cases hpushed : (r.step call).2.pushedInto? e.1 with
  | none => exact h.lastPushed e (RecencyEvent.mem_of_mem_apply he hpushed)
  | some key =>
    -- only a call for a key puts one into a slot, one that was not out
    cases call with
    | remove i => cases hpushed
    | popFront => cases hpushed
    | pushBack key' =>
      rcases List.mem_append.mp he with he | he
      · have hne : (r.pushBack key').2 ≠ e.1 := fun hsame =>
          (h.ring.pushBack_not_mem key').1 (hsame ▸ List.mem_map_of_mem he)
        exact nomatch hpushed.symm.trans (if_neg hne)
      · obtain rfl := List.mem_singleton.mp he
        exact hpushed.symm.trans (if_pos rfl)

theorem holds_run (calls : List (RecencyCall κ)) :
    (run empty calls).1.Holds (run empty calls).2 := by
  induction calls using List.reverseRecOn with
  | nil => exact ⟨ring_empty, fun e he => nomatch he⟩
  | append_singleton calls call ih =>
    rw [run_concat]
    exact ih.step call

/-! Reading. -/

private theorem yields_of_links
    (hlinks : (i :: (live.map Prod.fst ++ [head])).IsChain r.Link)
    (hkeys : ∀ e ∈ live, (r.slot e.1).key = some e.2) (hsentinel : (r.slot head).key = none) :
    r.Yields (r.slot i).next (live.map Prod.snd) := by
  induction live generalizing i with
  | nil =>
    rw [(List.isChain_cons_cons.mp hlinks).1.next]
    exact .stop (congrArg (Option.map _) hsentinel)
  | cons e live ih =>
    rw [List.map_cons, List.cons_append, List.isChain_cons_cons] at hlinks
    rw [hlinks.1.next]
    refine .step ?_ (ih hlinks.2 fun e he => hkeys e (List.mem_cons_of_mem _ he))
    exact congrArg (Option.map _) (hkeys e List.mem_cons_self)

theorem Ring.yields (h : r.Ring live) : r.Yields (r.slot head).next (live.map Prod.snd) :=
  yields_of_links h.links h.keys h.sentinel

/-! What a list with handles is. -/

/-- An arena, after some calls with their answers, is a list with handles. -/
structure Arranges (r : Recency κ) (events : List (RecencyEvent κ)) (out : List (Nat × κ)) :
    Prop where
  /-- From the sentinel to the next slot each time: every slot that is out, in order, and back. -/
  forth : List.iterate (fun i => (r.slot i).next) head (out.length + 2) =
    head :: (out.map Prod.fst ++ [head])
  /-- From the sentinel to the previous slot each time: the reverse. -/
  back : List.iterate (fun i => (r.slot i).prev) head (out.length + 2) =
    head :: ((out.map Prod.fst).reverse ++ [head])
  live : ∀ i, r.IsLive i ↔ i ∈ out.map Prod.fst
  /-- Every slot but the sentinel is out or free, and that once. -/
  slots : (out.map Prod.fst ++ r.free).Perm (List.range' (head + 1) (r.slots.size - 1)) ∧
    (out.map Prod.fst ++ r.free).Nodup
  length : r.length = out.length
  keys : r.Yields (r.slot head).next (out.map Prod.snd) ∧ r.toList = out.map Prod.snd
  pushBack : ∀ key, ¬ r.IsLive (r.pushBack key).2 ∧ (r.pushBack key).2 ≠ head
  /-- A slot that is out is taken back with the key last put into it; the others stay. -/
  remove : ∀ i, r.IsLive i → ∃ key, RecencyEvent.lastPushedInto? events i = some key ∧
    (r.remove i).2 = some key ∧ ¬ (r.remove i).1.IsLive i ∧
      (r.remove i).1.toList = (out.filter fun e => e.1 != i).map Prod.snd
  refuse : ∀ i, ¬ r.IsLive i → r.remove i = (r, none)
  popFront : r.popFront = (out.head?.map fun e => r.remove e.1).getD (r, none)

theorem Holds.arranges {events : List (RecencyEvent κ)} (h : r.Holds events) :
    r.Arranges events (RecencyEvent.out events) where
  forth := h.ring.iterate_next
  back := h.ring.iterate_prev
  live _ := h.ring.isLive_iff
  slots := ⟨h.ring.slots, h.ring.nodup⟩
  length := h.ring.length
  keys := ⟨h.ring.yields, h.ring.toList⟩
  pushBack key :=
    ⟨mt h.ring.isLive_iff.mp (h.ring.pushBack_not_mem key).1, (h.ring.pushBack_not_mem key).2⟩
  remove i hlive := by
    obtain ⟨⟨i, key⟩, he, rfl⟩ := List.mem_map.mp (h.ring.isLive_iff.mp hlive)
    have hring := h.ring.step (.remove i)
    refine ⟨key, h.lastPushed _ he, ?_, ?_, hring.toList⟩
    · obtain ⟨first, rest, hsplit⟩ := List.append_of_mem he
      exact (hsplit ▸ h.ring : r.Ring (first ++ (i, key) :: rest)).remove.1
    · refine mt hring.isLive_iff.mp fun hmem => ?_
      obtain ⟨e, he, hsame⟩ := List.mem_map.mp hmem
      exact absurd hsame (bne_iff_ne.mp (List.mem_filter.mp he).2)
  refuse _ := remove_of_not_isLive
  popFront := by
    have hring := h.ring
    cases hout : RecencyEvent.out events with
    | nil => exact (hout ▸ hring : r.Ring []).popFront_nil
    | cons e rest =>
      have hlinks := (hout ▸ hring : r.Ring (e :: rest)).links
      exact congrArg r.remove (List.isChain_cons_cons.mp hlinks).1.next

/-- After any calls on an empty arena it is a list with handles: of the slots that are out, in the
order in which they were handed out. -/
theorem arranges_run (calls : List (RecencyCall κ)) :
    let after := run (empty : Recency κ) calls
    after.1.Arranges after.2 (RecencyEvent.out after.2) := (holds_run calls).arranges

/-- The slot of a key that is taken back is handed out again, last in order. -/
example :
    let after := run empty [.pushBack 'a', .pushBack 'b', .remove 1, .remove 1, .remove 9,
      .pushBack 'c']
    after.2 = [.pushed 'a' 1, .pushed 'b' 2, .removed 1 (some 'a'), .removed 1 none,
      .removed 9 none, .pushed 'c' 1] ∧ after.1.toList = ['b', 'c'] := by
  decide

end Recency

end VectorImage
