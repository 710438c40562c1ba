import VectorImage.Proofs.Call.Refusal
import VectorImage.Proofs.Compact.Likeness
import VectorImage.Proofs.Compact.Progress
import VectorImage.Proofs.Compact.Scan

/-!
An encoder forgets the calls that are refused. Whatever the calls, as long as they are of moderate
size the tables keep room for those still to come, and the places follow the nesting check: a call
that the check accepts is performed.
-/

set_option autoImplicit false
set_option relaxedAutoImplicit false

namespace VectorImage

/-- Room kept in every table for the entries that are given, until they have been given. -/
def Nesting.reserve (n : Nesting) : Nat := if n.phase = .fresh then 2 ^ 30 else 0

namespace Nesting

variable {n m : Nesting} {gradients : Nat} {call : Call}

theorem reserve_of_fresh (h : n.phase = .fresh) : n.reserve = 2 ^ 30 := if_pos h

theorem reserve_le_of_fresh (h : m.phase = .fresh → n.phase = .fresh) : m.reserve ≤ n.reserve := by
  unfold reserve
  split
  · next hm => exact Nat.le_of_eq (if_pos (h hm)).symm
  · exact Nat.zero_le _

theorem reserve_reject (n : Nesting) (call : Call) : (n.reject call).reserve ≤ n.reserve := by
  refine reserve_le_of_fresh fun h => ?_
  unfold reject at h
  split at h
  · cases h
  · exact h

theorem Accepted.reserve_le (h : Accepted gradients n call m) : m.reserve ≤ n.reserve := by
  refine reserve_le_of_fresh fun hm => ?_
  cases h with
  | endGroup | maskContent | endMask => exact hm
  | _ => cases hm

theorem Accepted.reserve_of_init {tables : Tables} (h : Accepted gradients n (.init tables) m) :
    n.reserve = 2 ^ 30 ∧ m.reserve = 0 := by
  cases h with
  | init _ hphase => exact ⟨reserve_of_fresh hphase, if_neg nofun⟩

end Nesting

namespace CompactImage

open VectorImage.Compact

/-- Images differ in the identity of their tables at most, and are stored in the same bytes. -/
structure Alike (c d : CompactImage) : Prop where
  header : c.header = d.header
  document : c.document = d.document
  tables : c.tables.value = d.tables.value
  ops : c.ops = d.ops
  contents : c.contents = d.contents
  bytes : c.toBytes = d.toBytes

/-- Equal parts, in tables that may be different instances, make images that are alike. -/
theorem ofParts_alike (header : Header) (document : Document) {tables tables' : Shared TableSet}
    (htables : tables'.value = tables.value) (ops : Bytes) :
    SameOutcome Alike (ofParts header document tables ops) (ofParts header document tables' ops) := by
  cases hscan : scan tables.value ops with
  | ok contents =>
    rw [ofParts_of_scan _ _ _ hscan, ofParts_of_scan _ _ _ (htables ▸ hscan)]
    refine .ok ⟨rfl, rfl, htables.symm, rfl, rfl, ?_⟩
    simp only [CompactImage.toBytes, htables]
  | error err =>
    rw [ofParts_of_error _ _ hscan, ofParts_of_error _ _ (htables ▸ hscan)]
    exact .error err

end CompactImage

namespace Encoder

open VectorImage.Compact

variable {e f : Encoder} {n m : Nesting} {call : Call} {calls rest : List Call}

/-- Encoders that are alike finish images that are alike, or fail in the same way. -/
theorem Alike.complete (h : e.Alike f) :
    SameOutcome CompactImage.Alike (backend.complete e) (backend.complete f) := by
  have hwidth := h.width
  have hdocument : f.document = e.document := by rw [h.same]
  have hops : f.ops = e.ops := by rw [h.same]
  show SameOutcome _ e.complete f.complete
  rw [Encoder.complete, Encoder.complete, hwidth, hdocument, hops]
  exact CompactImage.ofParts_alike _ _ h.tables _

/-- An encoder with room for calls of moderate size: for two entries of each call in every table,
and for the tables if they have not been given. -/
structure Provided (calls : List Call) (n : Nesting) (e : Encoder) : Prop where
  follows : e.Follows n
  room : ∀ kind, e.tables.count kind + n.reserve + 2 * calls.length < 2 ^ 32
  gradients : e.gradients.size + calls.length ≤ 2 ^ 32
  moderate : ∀ call ∈ calls, call.Moderate

theorem provided_start (hmoderate : Moderate calls) (width : FloatWidth) {interner : Interner}
    (hseed : ∀ kind, interner.shared.value.count kind < 2 ^ 30) :
    (start width interner).Provided calls .start := by
  have hlength := hmoderate.length
  refine ⟨⟨rfl, rfl, rfl⟩, fun kind => ?_, ?_, hmoderate.calls⟩
  · have hkind := hseed kind
    have hreserve : Nesting.start.reserve = 2 ^ 30 := Nesting.reserve_of_fresh rfl
    show interner.shared.value.count kind + _ + _ < _
    omega
  · show 0 + calls.length ≤ 2 ^ 32
    omega

theorem Provided.reject (h : e.Provided (call :: rest) n) : e.Provided rest (n.reject call) := by
  have hlength : (call :: rest).length = rest.length + 1 := rfl
  refine ⟨?_, fun kind => ?_, ?_, (List.forall_mem_cons.mp h.moderate).2⟩
  · unfold Nesting.reject
    split
    · exact ⟨h.follows.images, h.follows.strings, h.follows.floatLists⟩
    · exact h.follows
  · have hroom := h.room kind
    have hreserve := n.reserve_reject call
    omega
  · have hgradients := h.gradients
    omega

/-- The entries of a call leave room for the calls after it. -/
private theorem Provided.room_after (h : e.Provided (call :: rest) n) {gradients : Nat}
    (haccept : Nesting.Accepted gradients n call m) (kind : TableKind) :
    e.tables.count kind + (entries call).count kind + m.reserve + 2 * rest.length < 2 ^ 32 := by
  have hroom := h.room kind
  have hlength : (call :: rest).length = rest.length + 1 := rfl
  by_cases hinit : ∃ tables, call = .init tables
  · obtain ⟨tables, rfl⟩ := hinit
    have hmoderate : cost (.init tables) < 2 ^ 30 := h.moderate _ List.mem_cons_self
    have hentries := count_entries_le_cost (.init tables) kind
    obtain ⟨hbefore, hafter⟩ := haccept.reserve_of_init
    omega
  · have hentries := count_entries_le (fun t ht => hinit ⟨t, ht⟩) kind
    have hreserve := haccept.reserve_le
    omega

/-- An accepted call is performed, and there is room for the calls after it. -/
theorem Provided.perform (h : e.Provided (call :: rest) n)
    (haccept : Nesting.Accepted (backend.gradientCount e) n call m) :
    ∃ e' reply, backend.perform e call = .ok (e', reply) ∧ e'.Provided rest m := by
  have hlength : (call :: rest).length = rest.length + 1 := rfl
  have hgradients := h.gradients
  obtain ⟨hmoderate, hlater⟩ := List.forall_mem_cons.mp h.moderate
  obtain ⟨e', reply, hperform, hcount⟩ := perform_counts haccept h.follows
    (fun g hg => by
      subst hg
      have hcolors : g.colors.length < 2 ^ 30 := hmoderate
      omega)
    (fun kind => by
      have hroom := h.room_after haccept kind
      omega)
  have hemits := perform_emits hperform
  have hroom (kind : TableKind) : e'.tables.count kind + m.reserve + 2 * rest.length < 2 ^ 32 := by
    have hafter := h.room_after haccept kind
    have hkind := hcount kind
    omega
  have hindexable : e'.tables.Indexable := TableSet.indexable_of_count fun kind => by
    have hkind := hroom kind
    omega
  refine ⟨e', reply, hperform, h.follows.step haccept hemits hindexable, hroom, ?_, hlater⟩
  have hsize := hemits.gradients_size_le
  omega

/-- Encoders that are alike stay in step, as long as there is room for the calls to come. -/
theorem inStep : backend.InStep fun calls n e f => e.Provided calls n ∧ e.Alike f where
  count h := by
    show (Encoder.gradients _).size = (Encoder.gradients _).size
    rw [h.2.same]
  reject h := ⟨h.1.reject, h.2⟩
  perform h haccept := by
    obtain ⟨hprovided, halike⟩ := h
    obtain ⟨e', reply, hperform, hprovided'⟩ := hprovided.perform haccept
    obtain ⟨f', hperform', halike'⟩ := halike.perform hperform
    exact ⟨e', f', reply, hperform, hperform', hprovided', halike'⟩

/-- An encoder of either width forgets the calls that are refused, whatever tables it starts from. -/
theorem forgets (hmoderate : Moderate calls) (width : FloatWidth) {interner interner' : Interner}
    (hseed : ∀ kind, interner.shared.value.count kind < 2 ^ 30)
    (hsame : interner'.shared.value = interner.shared.value) :
    backend.Forgets CompactImage.Alike (.start width interner) (.start width interner') calls :=
  inStep.forgets (fun h _ => h.2.complete)
    ⟨provided_start hmoderate width hseed, alike_start width hsame⟩

end Encoder

end VectorImage
