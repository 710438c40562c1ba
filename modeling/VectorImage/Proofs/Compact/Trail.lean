import VectorImage.Proofs.Call.Replay
import VectorImage.Proofs.Compact.Operands

/-!
A run of an encoder, seen among the tables that it ends with. What each call writes has indices
that stand for the values of the call there and that can be stored. Every run leaves such a trail
when all indices of the tables have a successor.
-/

set_option autoImplicit false
set_option relaxedAutoImplicit false

namespace VectorImage

namespace Encoder

open VectorImage.Compact

/-- What an encoder writes for a call: an instruction that stands for the call in `final`. -/
def Writes (final : TableSet) (e : Encoder) (call : Call) (bytes : Bytes) : Prop :=
  ∃ instruction : Instruction, e.Codes final call instruction ∧ instruction.Fits ∧
    instruction.write = .ok bytes

/-- What a call does to an encoder that will end with the tables `final`. -/
inductive Puts (final : TableSet) (e : Encoder) : Call → Encoder → Reply → Prop
  | init {t : Tables} {e' : Encoder}
      (hsame : e' = { e with
        interner := e'.interner
        images := e'.images
        strings := e'.strings
        floatLists := e'.floatLists })
      (hplaces : e'.Places final t) :
    Puts final e (.init t) e' .done
  | document (d : Document) : Puts final e (.document d) { e with document := d } .done
  | registered {g : Gradient} {e' : Encoder} {offsets : UInt32} {i : Nat}
      (hinterned : e.Interned e')
      (hoffsets : lookup e.floatLists .floatList g.offsets = .ok offsets)
      (hfound : e.gradients.find? (e.canonical g offsets) = some i) :
    Puts final e (.gradient g) e' (.gradient (UInt32.ofNat i))
  | gradient {g : Gradient} {e' : Encoder} {offsets : UInt32} {bytes : Bytes}
      (hinterned : e.Interned e')
      (hoffsets : lookup e.floatLists .floatList g.offsets = .ok offsets)
      (hnew : e.gradients.find? (e.canonical g offsets) = none)
      (hroom : e.gradients.size < 2 ^ 32) (hwrites : e.Writes final (.gradient g) bytes) :
    Puts final e (.gradient g)
      { e' with
        gradients := e.gradients.push (e.canonical g offsets)
        ops := e.ops ++ bytes }
      (.gradient (UInt32.ofNat e.gradients.size))
  | write {call : Call} {e' : Encoder} {bytes : Bytes} (hne : ∀ g, call ≠ .gradient g)
      (hinterned : e.Interned e') (hwrites : e.Writes final call bytes) :
    Puts final e call { e' with ops := e.ops ++ bytes } .done

variable {final : TableSet} {e e' : Encoder} {call : Call} {reply : Reply}

theorem Interned.renaming (h : e.Interned e') : e'.renaming = e.renaming := by
  rw [h.same]
  rfl

/-- Places of an encoder that only interns and writes are what they were. -/
theorem Placed.of_renaming (h : e.Placed final) (hsame : e'.renaming = e.renaming) :
    e'.Placed final := by
  refine ⟨?_, ?_, ?_⟩
  · rw [hsame]
    exact h.images
  · rw [hsame]
    exact h.strings
  · rw [hsame]
    exact h.floatLists

/-- A place and the entry it was given for. -/
theorem lookup_place {α : Type} {places : Array UInt32} {kind : TableKind} {vs : List α}
    {R : UInt32 → α → Prop} (h : List.Forall₂ R places.toList vs) {k i : UInt32}
    (hk : lookup places kind k = .ok i) : ∃ v, vs.toArray[k.toNat]? = some v ∧ R i v := by
  have hentry := lookup_eq_ok_iff.mp hk
  rw [← Array.getElem?_toList] at hentry
  obtain ⟨hlt, hget⟩ := List.getElem?_eq_some_iff.mp hentry
  obtain ⟨hlength, hall⟩ := List.forall₂_iff_get.mp h
  refine ⟨vs.get ⟨k.toNat, hlength ▸ hlt⟩, ?_, ?_⟩
  · rw [List.getElem?_toArray]
    exact List.getElem?_eq_getElem _
  · have hv := hall k.toNat hlt (hlength ▸ hlt)
    rw [List.get_eq_getElem, hget] at hv
    exact hv

theorem Places.placed {tables : Tables} (h : e.Places final tables) : e.Placed final := by
  refine ⟨?_, ?_, ?_⟩
  · intro k j hk
    obtain ⟨v, -, hv⟩ := lookup_place h.images hk
    exact ⟨v, hv⟩
  · intro k j hk
    obtain ⟨v, -, hv⟩ := lookup_place h.strings hk
    exact ⟨v, hv⟩
  · intro k j hk
    obtain ⟨v, -, hv⟩ := lookup_place h.floatLists hk
    exact ⟨v, hv⟩

theorem lookup_nil {α : Type} {kind : TableKind} {i : UInt32} {v : α} :
    lookup (#[] : Array α) kind i ≠ .ok v := by
  intro h
  have hentry := lookup_eq_ok_iff.mp h
  cases hentry

/-- An encoder that starts has given no places. -/
theorem placed_start {width : FloatWidth} {interner : Interner} :
    (Encoder.start width interner).Placed final :=
  ⟨fun _ _ h => absurd h lookup_nil, fun _ _ h => absurd h lookup_nil,
    fun _ _ h => absurd h lookup_nil⟩

/-- What is written for a call reads back as the call, rounded and with its indices placed. -/
theorem Writes.readsCall {bytes : Bytes} (h : e.Writes final call bytes) (hplaced : e.Placed final) :
    ∃ call', ReadsCall final bytes call' ∧ (call.round e.width).Renames e.renaming call' := by
  obtain ⟨instruction, hcodes, hfits, hwrite⟩ := h
  exact hcodes.readsCall hplaced hfits hwrite

/-- The gradient that a stream defines reads back as the definition it is registered under. -/
theorem Writes.readsGradient {g : Gradient} {offsets : UInt32} {bytes : Bytes}
    (h : e.Writes final (.gradient g) bytes) (hplaced : e.Placed final)
    (hoffsets : lookup e.floatLists .floatList g.offsets = .ok offsets) :
    ReadsCall final bytes (.gradient (e.canonical g offsets)) := by
  obtain ⟨call', hread, hrenames⟩ := h.readsCall hplaced
  obtain ⟨k, rfl, hkind, hplace, hcolors, hspread, htransform⟩ := hrenames.of_gradient
  have hsame : e.canonical g offsets = k := by
    cases hoffsets.symm.trans hplace
    cases k
    cases hkind
    cases hcolors
    cases hspread
    cases htransform
    rfl
  rw [hsame]
  exact hread

theorem Puts.width (h : e.Puts final call e' reply) : e'.width = e.width := by
  cases h with
  | init hsame => rw [hsame]
  | document d => rfl
  | registered hinterned => exact hinterned.width
  | gradient hinterned => exact hinterned.width
  | write hne hinterned => exact hinterned.width

theorem Puts.placed (h : e.Puts final call e' reply) (hplaced : e.Placed final) :
    e'.Placed final := by
  cases h with
  | init hsame hplaces => exact hplaces.placed
  | document d => exact ⟨hplaced.images, hplaced.strings, hplaced.floatLists⟩
  | registered hinterned => exact hplaced.of_renaming hinterned.renaming
  | gradient hinterned => exact hplaced.of_renaming hinterned.renaming
  | write hne hinterned => exact hplaced.of_renaming hinterned.renaming

/-- What is emitted is put down, when every index of the tables has a successor. -/
theorem Emits.puts (h : e.Emits call e' reply) (hplaced : e.Placed final)
    (hfinal : e'.Reaches final) : e.Puts final call e' reply := by
  have hwrites {call : Call} {instruction : Instruction} {e₁ : Encoder} {bytes : Bytes}
      (hprepares : e.Prepares call instruction e₁) (hreaches : e₁.Reaches final)
      (hwrite : instruction.write = .ok bytes) : e.Writes final call bytes :=
    ⟨instruction, hprepares.codes hreaches,
      (hprepares.codes hreaches).fits hfinal.indexable hplaced, hwrite⟩
  cases h with
  | init hinit =>
    obtain ⟨hsame, -, hplaces⟩ := init_spec hinit
    exact .init hsame (hplaces hfinal)
  | document d => exact .document d
  | registered hprepares hoffsets hfound => exact .registered hprepares.interned hoffsets hfound
  | gradient hprepares hoffsets hnew hroom hwrite =>
    exact .gradient hprepares.interned hoffsets hnew hroom
      (hwrites hprepares ⟨hfinal.extended, hfinal.indexable⟩ hwrite)
  | write hne hprepares hwrite =>
    exact .write hne hprepares.interned
      (hwrites hprepares ⟨hfinal.extended, hfinal.indexable⟩ hwrite)

/-- One call of a run. -/
inductive Goes (final : TableSet) (p : Position Encoder) (call : Call) : Position Encoder → Prop
  | step {renamed : Call} {m : Nesting} {e' : Encoder} {reply : Reply}
      (hmap : call.mapGradients (lookup p.ids .gradient) = .ok renamed)
      (haccept : Nesting.Accepted p.session.state.gradients.size p.session.nesting renamed m)
      (hputs : p.session.state.Puts final renamed e' reply) :
    Goes final p call ⟨reply.known p.ids, ⟨m, e'⟩⟩

/-- The calls of a list, one after the other. -/
inductive Trail (final : TableSet) : Position Encoder → List Call → Position Encoder → Prop
  | nil (p : Position Encoder) : Trail final p [] p
  | cons {p q r : Position Encoder} {call : Call} {rest : List Call} (hstep : Goes final p call q)
      (hrest : Trail final q rest r) : Trail final p (call :: rest) r

variable {p q : Position Encoder} {calls : List Call}

theorem Trail.split {first rest : List Call} (h : Trail final p (first ++ rest) q) :
    ∃ m, Trail final p first m ∧ Trail final m rest q := by
  induction first generalizing p with
  | nil => exact ⟨p, .nil p, h⟩
  | cons call first ih =>
    cases h with
    | cons hstep hafter =>
      obtain ⟨m, hfirst, hrest⟩ := ih hafter
      exact ⟨m, .cons hstep hfirst, hrest⟩

theorem Trail.append {first rest : List Call} {r : Position Encoder} (h : Trail final p first q)
    (hrest : Trail final q rest r) : Trail final p (first ++ rest) r := by
  induction h with
  | nil p => exact hrest
  | cons hstep _ ih => exact .cons hstep (ih hrest)

theorem Trail.width (h : Trail final p calls q) :
    q.session.state.width = p.session.state.width := by
  induction h with
  | nil p => rfl
  | cons hstep _ ih =>
    cases hstep with
    | step _ _ hputs => exact ih.trans hputs.width

/-- Only gradient calls register gradients. -/
theorem Trail.gradients_eq (h : Trail final p calls q)
    (hne : ∀ call ∈ calls, call.isGradient = false) :
    q.session.state.gradients = p.session.state.gradients := by
  induction h with
  | nil p => rfl
  | cons hstep _ ih =>
    obtain ⟨hcall, hlater⟩ := List.forall_mem_cons.mp hne
    refine (ih hlater).trans ?_
    cases hstep with
    | @step renamed m e' reply hmap haccept hputs =>
      rw [← Call.isGradient_mapGradients hmap] at hcall
      cases hputs with
      | init hsame =>
        have hgradients := congrArg Encoder.gradients hsame
        exact hgradients
      | document d => rfl
      | registered => cases hcall
      | gradient => cases hcall
      | write _ hinterned =>
        have hgradients := congrArg Encoder.gradients hinterned.same
        exact hgradients

theorem extended_of_runs (h : Encoder.backend.Runs p calls q) :
    p.session.state.tables.ExtendedBy q.session.state.tables := by
  refine h.preserves (P := fun r => p.session.state.tables.ExtendedBy r.session.state.tables) ?_
    (.refl _)
  intro r r' call hr hstep
  cases hstep with
  | step hmap haccept hperform => exact hr.trans (perform_emits hperform).grown.extended

/-- A run leaves a trail in tables whose indices all have a successor. -/
theorem trail_of_runs (h : Encoder.backend.Runs p calls q) (hplaced : p.session.state.Placed final)
    (hfinal : q.session.state.Reaches final) : Trail final p calls q := by
  induction h with
  | nil p => exact .nil p
  | cons hstep hrest ih =>
    cases hstep with
    | step hmap haccept hperform =>
      have hputs := (perform_emits hperform).puts hplaced
        ⟨(extended_of_runs hrest).trans hfinal.extended, hfinal.indexable⟩
      exact .cons (.step hmap haccept hputs) (ih (hputs.placed hplaced) hfinal)

end Encoder

end VectorImage
