import VectorImage.Proofs.Call.Renaming
import VectorImage.Proofs.Call.Replay

/-!
Streams and what their indices stand for. An accepted stream has the tables first, then the
document if there is one, then the calls of the tree. At every call an index stands for an entry
of the tables or for a gradient registered before. One stream condenses another when it says the
same of the same values, call by call, but leaves out gradients that have been defined already.
-/

set_option autoImplicit false
set_option relaxedAutoImplicit false

namespace VectorImage

/-! The shape of an accepted stream. -/

namespace Nesting.Accepted

variable {n m : Nesting} {gradients : Nat} {call : Call}

/-- Nothing but the tables is accepted at the start. -/
theorem of_start (h : Accepted gradients .start call m) :
    ∃ tables : Tables, call = .init tables ∧
      m = .initialized tables.images.length tables.strings.length tables.floatLists.length := by
  cases h with
  | init tables hphase => exact ⟨tables, rfl, rfl⟩
  | document d hphase => cases hphase
  | endGroup exportId rest hscopes => cases hscopes
  | maskContent rest hscopes => cases hscopes
  | endMask rest hscopes => cases hscopes
  | gradient g hphase _ => exact absurd rfl hphase
  | beginGroup attrs hphase _ => exact absurd rfl hphase
  | clip c hphase => exact absurd rfl hphase
  | beginMask hphase => exact absurd rfl hphase
  | shape s hphase _ => exact absurd rfl hphase
  | image leaf hphase _ => exact absurd rfl hphase
  | text leaf hphase _ _ _ => exact absurd rfl hphase
  | use ref hphase _ => exact absurd rfl hphase

/-- After the tables comes the document or the tree. -/
theorem of_initialized (h : Accepted gradients n call m) (hphase : n.phase = .initialized)
    (hscopes : n.scopes = []) :
    ((∃ d, call = .document d) ∨ call.OfTree) ∧ m.phase = .tree := by
  cases h with
  | init tables hfresh =>
    rw [hphase] at hfresh
    cases hfresh
  | document d _ => exact ⟨Or.inl ⟨d, rfl⟩, rfl⟩
  | endGroup exportId rest hopen => simp [hscopes] at hopen
  | maskContent rest hopen => simp [hscopes] at hopen
  | endMask rest hopen => simp [hscopes] at hopen
  | _ => exact ⟨Or.inr trivial, rfl⟩

/-- In the tree there are only calls of the tree. -/
theorem of_tree (h : Accepted gradients n call m) (hphase : n.phase = .tree) :
    call.OfTree ∧ m.phase = .tree := by
  cases h with
  | init tables hfresh =>
    rw [hphase] at hfresh
    cases hfresh
  | document d hinitialized =>
    rw [hphase] at hinitialized
    cases hinitialized
  | endGroup exportId rest _ => exact ⟨trivial, hphase⟩
  | maskContent rest _ => exact ⟨trivial, hphase⟩
  | endMask rest _ => exact ⟨trivial, hphase⟩
  | _ => exact ⟨trivial, rfl⟩

end Nesting.Accepted

namespace Backend

variable {σ ω : Type} {b : Backend σ ω} {p q : Position σ} {call : Call} {calls : List Call}

/-- The nesting check accepts a call that goes on under its own names, too. -/
theorem Advances.accepted (h : b.Advances p call q) :
    Nesting.Accepted p.ids.size p.session.nesting call q.session.nesting := by
  cases h with
  | step hmap haccept hperform =>
    refine haccept.of_mapGradients hmap fun i j hij => ?_
    exact (Array.getElem?_eq_some_iff.mp (lookup_eq_ok_iff.mp hij)).1

theorem Runs.of_tree (h : b.Runs p calls q) (hphase : p.session.nesting.phase = .tree) :
    ∀ call ∈ calls, call.OfTree := by
  induction h with
  | nil p =>
    intro call hcall
    cases hcall
  | cons hstep hrest ih =>
    obtain ⟨htree, hafter⟩ := hstep.accepted.of_tree hphase
    exact List.forall_mem_cons.mpr ⟨htree, ih hafter⟩

/-- A run that gives the tables: they come first, at most the document follows, and all the rest
is the tree. -/
theorem Runs.of_start {state : σ} (h : b.Runs (.start state) calls q)
    (hphase : q.session.nesting.phase ≠ .fresh) :
    ∃ (tables : Tables) (declared : Option Document) (tree : List Call),
      calls = .init tables :: (declared.toList.map Call.document ++ tree) ∧
        ∀ call ∈ tree, call.OfTree := by
  cases h with
  | nil => exact absurd rfl hphase
  | @cons _ p₁ _ _ rest hinit hrest =>
    obtain ⟨tables, rfl, hinitialized⟩ := hinit.accepted.of_start
    cases hrest with
    | nil =>
      refine ⟨tables, none, [], rfl, ?_⟩
      intro call hcall
      cases hcall
    | cons hsecond hlater =>
      obtain ⟨⟨d, rfl⟩ | htree, hafter⟩ := hsecond.accepted.of_initialized
        (congrArg Nesting.phase hinitialized) (congrArg Nesting.scopes hinitialized)
      · exact ⟨tables, some d, _, rfl, hlater.of_tree hafter⟩
      · exact ⟨tables, none, _, rfl,
          List.forall_mem_cons.mpr ⟨htree, hlater.of_tree hafter⟩⟩

end Backend

/-! What indices stand for. -/

/-- Related indices of one renaming are related in the other. -/
structure Renaming.Within (ρ σ : Renaming) : Prop where
  images : ∀ i j, ρ.images i j → σ.images i j
  strings : ∀ i j, ρ.strings i j → σ.strings i j
  floatLists : ∀ i j, ρ.floatLists i j → σ.floatLists i j
  gradients : ∀ i j, ρ.gradients i j → σ.gradients i j

namespace Renaming.Within

variable {ρ σ : Renaming}

private theorem optRel_mono {α : Type} {R S : α → α → Prop} (h : ∀ a b, R a b → S a b)
    {o o' : Option α} (hrel : Option.Rel R o o') : Option.Rel S o o' := by
  cases hrel with
  | none => exact .none
  | some hab => exact .some (h _ _ hab)

private theorem source (h : ρ.Within σ) {s t : PaintSource} (hst : s.Renames ρ t) :
    s.Renames σ t := by
  cases hst with
  | solid c => exact .solid c
  | gradient hij => exact .gradient (h.gradients _ _ hij)

private theorem paint (h : ρ.Within σ) {p q : Paint} (hpq : p.Renames ρ q) : p.Renames σ q := by
  refine ⟨optRel_mono (fun f g hfg => ?_) hpq.fill, optRel_mono (fun s t hst => ?_) hpq.stroke⟩
  · exact ⟨h.source hfg.source, hfg.rule⟩
  · exact ⟨h.source hst.source, hst.width, hst.cap, hst.join, hst.miterLimit,
      optRel_mono h.floatLists hst.dash, hst.dashOffset⟩

/-- Calls that differ by a renaming differ by one within which it is. -/
theorem call (h : ρ.Within σ) {call call' : Call} (hcall : call.Renames ρ call') :
    call.Renames σ call' := by
  cases hcall with
  | gradient hg =>
    exact .gradient ⟨hg.kind, h.floatLists _ _ hg.offsets, hg.colors, hg.spread, hg.transform⟩
  | beginGroup htransform halpha hexport =>
    exact .beginGroup htransform halpha (optRel_mono h.strings hexport)
  | endGroup => exact .endGroup
  | clip c => exact .clip c
  | beginMask => exact .beginMask
  | maskContent => exact .maskContent
  | endMask => exact .endMask
  | shape hgeometry hpaint htransform => exact .shape hgeometry (h.paint hpaint) htransform
  | image himage hdest htransform => exact .image (h.images _ _ himage) hdest htransform
  | text hleaf =>
    exact .text ⟨h.strings _ _ hleaf.text, optRel_mono h.strings hleaf.family, hleaf.size,
      hleaf.origin, hleaf.anchor, h.paint hleaf.paint, hleaf.transform⟩
  | use htarget htransform => exact .use (h.strings _ _ htarget) htransform

end Renaming.Within

namespace Resources

/-- What the indices of a stream stand for after its tables. -/
def ofTables (t : Tables) : Resources :=
  ⟨t.images.toArray, t.strings.toArray, t.floatLists.toArray, #[]⟩

/-- What indices stand for after one more call of the tree. -/
def after (r : Resources) : Call → Resources
  | .gradient g => { r with gradients := r.gradients.push g }
  | _ => r

/-- The definition of a gradient, with the offsets that its index stands for. -/
def define (r : Resources) (g : Gradient) : Except Error ResolvedGradient := do
  let offsets ← r.floatList g.offsets
  return ⟨g.kind, offsets, g.colors, g.spread, g.transform⟩

variable {r s : Resources}

theorem resolveSource_gradient_eq_ok {i : GradientId} {v : ResolvedSource} :
    r.resolveSource (.gradient i) = .ok v ↔
      ∃ g d, r.gradient i = .ok g ∧ r.define g = .ok d ∧ v = .gradient d := by
  constructor
  · intro h
    obtain ⟨g, hg, h⟩ := bind_eq_ok.mp h
    obtain ⟨offsets, hoffsets, h⟩ := bind_eq_ok.mp h
    cases h
    exact ⟨g, _, hg, bind_eq_ok.mpr ⟨offsets, hoffsets, rfl⟩, rfl⟩
  · rintro ⟨g, d, hg, hd, rfl⟩
    obtain ⟨offsets, hoffsets, hd⟩ := bind_eq_ok.mp hd
    cases hd
    exact bind_eq_ok.mpr ⟨g, hg, bind_eq_ok.mpr ⟨offsets, hoffsets, rfl⟩⟩

@[simp]
theorem define_after (call : Call) (g : Gradient) : (r.after call).define g = r.define g := by
  cases call <;> rfl

theorem after_of_other {call : Call} (h : call.isGradient = false) : r.after call = r := by
  cases call with
  | gradient g => cases h
  | _ => rfl

/-- Every gradient call registers one gradient. -/
theorem gradients_size_after (r : Resources) (calls : List Call) :
    (calls.foldl after r).gradients.size =
      r.gradients.size + calls.countP Call.isGradient := by
  induction calls generalizing r with
  | nil => rfl
  | cons call rest ih =>
    rw [List.foldl_cons, ih]
    cases call with
    | gradient g =>
      show (r.gradients.push g).size + _ = _
      rw [Array.size_push, List.countP_cons_of_pos (by rfl)]
      omega
    | _ => rfl

end Resources

/-- Indices of two streams that stand for the same values; those of gradients, for the same
definition. -/
def Renaming.denoting (r s : Resources) : Renaming where
  images := fun i j => ∃ v, r.image i = .ok v ∧ s.image j = .ok v
  strings := fun i j => ∃ v, r.string i = .ok v ∧ s.string j = .ok v
  floatLists := fun i j => ∃ v, r.floatList i = .ok v ∧ s.floatList j = .ok v
  gradients := fun i j => ∃ v, r.resolveSource (.gradient i) = .ok v ∧
    s.resolveSource (.gradient j) = .ok v

/-- Gradients that differ by names that stand for the same have the same definition. -/
theorem Gradient.Renames.define_eq {r s : Resources} {g k : Gradient}
    (h : g.Renames (.denoting r s) k) : ∃ d, r.define g = .ok d ∧ s.define k = .ok d := by
  obtain ⟨hkind, ⟨offsets, hraw, hother⟩, hcolors, hspread, htransform⟩ := h
  refine ⟨⟨g.kind, offsets, g.colors, g.spread, g.transform⟩,
    bind_eq_ok.mpr ⟨offsets, hraw, rfl⟩, bind_eq_ok.mpr ⟨offsets, hother, ?_⟩⟩
  rw [hkind, hcolors, hspread, htransform]
  rfl

/-! Condensed streams. -/

/-- What is said for one call of the tree: the same of the same values, or nothing, when the call
defines a gradient as one before it did. -/
inductive Call.Condenses (r s : Resources) : Call → List Call → Prop
  | same {call call' : Call} (h : call.Renames (.denoting r s) call') : Condenses r s call [call']
  | defined {g k : Gradient} {d : ResolvedGradient} (hk : k ∈ r.gradients)
      (hg : r.define g = .ok d) (hbefore : r.define k = .ok d) : Condenses r s (.gradient g) []

/-- What is said for the calls of a tree, one after the other. -/
inductive Condenses : Resources → List Call → Resources → List Call → Prop
  | nil (r s : Resources) : Condenses r [] s []
  | cons {r s : Resources} {call : Call} {said rest more : List Call}
      (hcall : call.Condenses r s said)
      (hrest : Condenses (r.after call) rest (said.foldl Resources.after s) more) :
    Condenses r (call :: rest) s (said ++ more)

namespace Condenses

variable {r s : Resources} {calls said : List Call}

theorem single {call : Call} (h : call.Condenses r s said) : Condenses r [call] s said := by
  rw [← List.append_nil said]
  exact .cons h (.nil _ _)

theorem append {rest more : List Call} (h : Condenses r calls s said)
    (hrest : Condenses (calls.foldl Resources.after r) rest (said.foldl Resources.after s) more) :
    Condenses r (calls ++ rest) s (said ++ more) := by
  induction h with
  | nil r s => exact hrest
  | cons hcall _ ih =>
    rw [List.append_assoc]
    refine .cons hcall (ih ?_)
    rw [List.foldl_append] at hrest
    exact hrest

end Condenses

end VectorImage
