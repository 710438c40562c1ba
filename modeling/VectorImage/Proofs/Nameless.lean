import VectorImage.Proofs.Agreement
import VectorImage.Proofs.Call.Grammar

/-!
Streams in which no group has a name. Nothing is exported and nothing is used, so what a call may
refer to are the tables and the gradients registered before it, and reading the calls from the left
is enough to tell whether it is there. If it is, every builder takes the stream.
-/

set_option autoImplicit false
set_option relaxedAutoImplicit false

namespace VectorImage

/-- A call that neither exports a group nor refers to one. -/
def Call.isNameless : Call → Bool
  | .beginGroup attrs => attrs.exportId.isNone
  | .use _ => false
  | _ => true

/-- A call that opens or closes a scope or clips, and refers to nothing. -/
def Call.isBare : Call → Bool
  | .beginGroup attrs => attrs.exportId.isNone
  | .endGroup => true
  | .clip _ => true
  | .beginMask => true
  | .maskContent => true
  | .endMask => true
  | _ => false

theorem Call.exportId?_of_isNameless {call : Call} (h : call.isNameless = true) :
    call.exportId? = none := by
  cases call with
  | beginGroup attrs => exact Option.isNone_iff_eq_none.mp h
  | _ => rfl

theorem Call.isNameless_of_isBare {call : Call} (h : call.isBare = true) :
    call.isNameless = true := by
  cases call with
  | beginGroup attrs => exact h
  | use ref => cases h
  | _ => rfl

theorem Call.isGradient_of_isBare {call : Call} (h : call.isBare = true) :
    call.isGradient = false := by
  cases call with
  | gradient g => cases h
  | _ => rfl

theorem Call.refersWithin_of_isBare {tables : Tables} {gradients : Nat} {call : Call}
    (h : call.isBare = true) : call.RefersWithin tables gradients := by
  have hnone {α : Type} {P : α → Prop} : ∀ a ∈ ([] : List α), P a := fun a ha => nomatch ha
  cases call with
  | beginGroup attrs =>
    have hname : attrs.exportId = none := Option.isNone_iff_eq_none.mp h
    refine ⟨hnone, ?_, hnone, hnone⟩
    rw [Call.stringIds, hname]
    exact hnone
  | endGroup | clip | beginMask | maskContent | endMask => exact ⟨hnone, hnone, hnone, hnone⟩
  | _ => cases h

/-- Calls that name no group and refer to what is there, read from the left: the first number
counts the gradients registered before them, the second those after. -/
inductive Refers (tables : Tables) : Nat → List Call → Nat → Prop
  | nil (known : Nat) : Refers tables known [] known
  | cons {known known' : Nat} {call : Call} {rest : List Call}
      (hnameless : call.isNameless = true) (hwithin : call.RefersWithin tables known)
      (hrest : Refers tables (known + call.isGradient.toNat) rest known') :
    Refers tables known (call :: rest) known'

namespace Refers

variable {tables : Tables} {k l m : Nat} {call : Call} {first rest calls : List Call}

theorem append (h : Refers tables k first l) (hrest : Refers tables l rest m) :
    Refers tables k (first ++ rest) m := by
  induction h with
  | nil => exact hrest
  | cons hnameless hwithin _ ih => exact .cons hnameless hwithin (ih hrest)

theorem bare (h : call.isBare = true) : Refers tables k [call] k := by
  refine .cons (Call.isNameless_of_isBare h) (Call.refersWithin_of_isBare h) ?_
  rw [Call.isGradient_of_isBare h]
  exact .nil k

theorem le (h : Refers tables k calls l) : k ≤ l := by
  induction h with
  | nil => exact Nat.le_refl _
  | cons _ _ _ ih => exact Nat.le_trans (Nat.le_add_right _ _) ih

theorem nameless (h : Refers tables k calls l) : ∀ call ∈ calls, call.isNameless = true := by
  induction h with
  | nil => exact List.forall_mem_nil _
  | cons hnameless _ _ ih => exact List.forall_mem_cons.mpr ⟨hnameless, ih⟩

theorem within {before after : List Call} (h : Refers tables k (before ++ call :: after) l) :
    call.RefersWithin tables (k + before.countP Call.isGradient) := by
  induction before generalizing k with
  | nil =>
    cases h with
    | cons _ hwithin _ => exact hwithin
  | cons first before ih =>
    cases h with
    | cons _ _ hrest =>
      rw [countP_isGradient_cons, ← Nat.add_assoc]
      exact ih hrest

theorem exportIds_eq (h : Refers tables k calls l) : exportIds calls = [] :=
  List.filterMap_eq_nil_iff.mpr fun call hcall =>
    Call.exportId?_of_isNameless (h.nameless call hcall)

/-- No group is exported and none is used, so only tables and gradients matter. -/
theorem referenced (h : Refers tables 0 calls l) : Referenced tables calls := by
  refine ⟨fun before call after hsplit => ?_, ?_, fun before ref after hsplit => ?_⟩
  · rw [← Nat.zero_add (before.countP _)]
    exact (hsplit ▸ h).within
  · rw [h.exportIds_eq]
    exact List.nodup_nil
  · have huse := h.nameless (.use ref) (hsplit ▸ List.mem_append_right before List.mem_cons_self)
    cases huse

end Refers

/-- Every builder takes the stream: it is recorded exactly when there are ids for its gradients,
then it builds a graph, whatever earlier builds left to share, and it is encoded into any tables
that have room for it. -/
structure Taken (stream : List Call) : Prop where
  recorded : Recorder.record stream = .ok stream ↔ stream.countP Call.isGradient ≤ 2 ^ 32
  built : stream.countP Call.isGradient ≤ 2 ^ 32 →
    ∀ (stamps : List Nat) (seed : NodeCache) (stamp : Nat) (shareNodes : Bool),
      seed.Grown stamps → stamp ∉ stamps →
        ∃ g, GraphImage.ofCalls stamp shareNodes seed stream = .ok g
  encoded : ∀ (width : FloatWidth) (b : Nat) (interner : Interner), interner.shared.value.Tidy b →
    Encoder.HasRoom b stream →
      ∃ c, Encoder.backend.replay (.start width interner) stream = .ok c

/-- A tree that names no group, behind its tables and the document if there is one. -/
theorem Taken.of_tree {tables : Tables} (declared : Option Document) {tree : List Call}
    {gradients : Nat} (hderives : Derives tree) (hrefers : Refers tables 0 tree gradients) :
    Taken (.init tables :: (declared.toList.map Call.document ++ tree)) := by
  have hpasses := Nesting.passes_iff_followsProtocol.mpr
    ⟨tables, declared, tree, rfl, hderives, hrefers.referenced⟩
  have hnames :
      (exportNames (.init tables :: (declared.toList.map Call.document ++ tree))).Nodup := by
    rw [exportNames_of_parts, hrefers.exportIds_eq]
    exact List.nodup_nil
  refine ⟨⟨Recorder.countP_le_of_record, fun hroom => ?_⟩, ?_, ?_⟩
  · obtain ⟨log, hlog⟩ := (Recorder.record_iff hroom).mpr hpasses
    rw [hlog, Recorder.record_eq hroom hlog]
  · intro hroom stamps seed stamp shareNodes hseed hstamp
    exact (GraphImage.ofCalls_iff hroom hseed hstamp shareNodes).mpr hpasses
  · intro width b interner htidy hroom
    exact (CompactImage.replay_iff width htidy hroom).mpr ⟨hpasses, hnames⟩

end VectorImage
