import VectorImage.Call.Nesting
import VectorImage.Proofs.Outcome

/-!
What the nesting check admits, said once: `Accepted` has one case for each kind of call, with the
conditions on the state before and the state after, and `accept` admits exactly these steps. The
invariants of a run follow from it by cases.
-/

set_option autoImplicit false
set_option relaxedAutoImplicit false

namespace VectorImage

theorem checkIndex_eq_ok {kind : TableKind} {i : UInt32} {n : Nat} {u : Unit} :
    checkIndex kind i n = .ok u ↔ i.toNat < n := by
  unfold checkIndex
  split
  · next h => exact iff_of_true rfl h
  · next h => exact iff_of_false (fun he => nomatch he) h

theorem mem_of_lookup {α : Type} {l : List (StringId × α)} {id : StringId} {v : α}
    (h : l.lookup id = some v) : (id, v) ∈ l := by
  obtain ⟨before, after, rfl, -⟩ := List.lookup_eq_some_iff.mp h
  exact List.mem_append_right before List.mem_cons_self

/-- A call that describes the tree: it may come after the tables and the document. -/
def Call.OfTree : Call → Prop
  | .init _ => False
  | .document _ => False
  | _ => True

/-- A call that registers a gradient. -/
def Call.isGradient : Call → Bool
  | .gradient _ => true
  | _ => false

/-- The gradient that a call registers. -/
def Call.gradient? : Call → Option Gradient
  | .gradient g => some g
  | _ => none

/-- The gradients that a stream registers, in order. -/
def registered (calls : List Call) : List Gradient := calls.filterMap Call.gradient?

/-- A call that describes a part of the tree other than a gradient. -/
def Call.isPart : Call → Bool
  | .init _ => false
  | .document _ => false
  | .gradient _ => false
  | _ => true

theorem Call.ofTree_of_isPart {call : Call} (h : call.isPart = true) : call.OfTree := by
  cases call with
  | init t => cases h
  | document d => cases h
  | _ => trivial

theorem Call.isGradient_of_isPart {call : Call} (h : call.isPart = true) :
    call.isGradient = false := by
  cases call with
  | gradient g => cases h
  | _ => rfl

theorem Call.isGradient_eq_true {call : Call} :
    call.isGradient = true ↔ ∃ g, call = .gradient g := by
  cases call <;> simp [isGradient]

theorem Call.isGradient_eq_false {call : Call} :
    call.isGradient = false ↔ ∀ g, call ≠ .gradient g := by
  cases call <;> simp [isGradient]

theorem countP_isGradient_cons (call : Call) (rest : List Call) :
    (call :: rest).countP Call.isGradient =
      call.isGradient.toNat + rest.countP Call.isGradient := by
  rw [List.countP_cons, Nat.add_comm]
  cases call.isGradient <;> rfl

theorem mem_registered {calls : List Call} {g : Gradient} :
    g ∈ registered calls ↔ .gradient g ∈ calls := by
  constructor
  · intro h
    obtain ⟨call, hcall, hgradient⟩ := List.mem_filterMap.mp h
    cases call with
    | gradient g' =>
      cases hgradient
      exact hcall
    | _ => cases hgradient
  · exact fun h => List.mem_filterMap.mpr ⟨_, h, rfl⟩

theorem length_registered (calls : List Call) :
    (registered calls).length = calls.countP Call.isGradient := by
  rw [registered, List.length_filterMap_eq_countP]
  congr 1
  funext call
  cases call <;> rfl

/-- The name under which a call exports the group that it begins. -/
def Call.exportId? : Call → Option StringId
  | .beginGroup attrs => attrs.exportId
  | _ => none

/-- The gradients of a paint are below `gradients`, and its dash list is below `floatLists`. -/
structure Paint.Within (gradients floatLists : Nat) (p : Paint) : Prop where
  gradients : ∀ id ∈ p.gradientIds, id.toNat < gradients
  dash : ∀ id, p.stroke.bind Stroke.dash = some id → id.toNat < floatLists

namespace Nesting

private theorem forM_eq_ok {α : Type} {f : α → Except Error Unit} {l : List α} {u : Unit} :
    l.forM f = .ok u ↔ ∀ a ∈ l, f a = .ok () := by
  induction l with
  | nil =>
    refine iff_of_true rfl ?_
    intro a ha
    cases ha
  | cons a l ih =>
    change (f a >>= fun _ => l.forM f) = .ok u ↔ _
    rw [bind_eq_ok]
    constructor
    · rintro ⟨v, hv, hrest⟩ b hb
      rcases List.mem_cons.mp hb with rfl | hb
      · exact hv
      · exact ih.mp hrest b hb
    · intro h
      exact ⟨(), h a List.mem_cons_self, ih.mpr fun b hb => h b (List.mem_cons_of_mem a hb)⟩

theorem checkPaint_eq_ok {n : Nesting} {gradients : Nat} {p : Paint} {u : Unit} :
    n.checkPaint gradients p = .ok u ↔ p.Within gradients n.floatLists := by
  unfold checkPaint
  rw [bind_eq_ok]
  constructor
  · rintro ⟨v, hv, hdash⟩
    refine ⟨fun id hid => checkIndex_eq_ok.mp (forM_eq_ok.mp hv id hid), ?_⟩
    intro id hid
    rw [hid] at hdash
    exact checkIndex_eq_ok.mp hdash
  · rintro ⟨hgradients, hdash⟩
    refine ⟨(), forM_eq_ok.mpr fun id hid => checkIndex_eq_ok.mpr (hgradients id hid), ?_⟩
    split
    · next id hid => exact checkIndex_eq_ok.mpr (hdash id hid)
    · rfl

theorem checkString_eq_ok {n : Nesting} {s : Option StringId} {u : Unit} :
    n.checkString s = .ok u ↔ ∀ id, s = some id → id.toNat < n.strings := by
  cases s with
  | none =>
    refine iff_of_true rfl ?_
    intro id hid
    cases hid
  | some id =>
    refine checkIndex_eq_ok.trans ?_
    constructor
    · intro h id' hid
      cases hid
      exact h
    · intro h
      exact h id rfl

theorem enterTree_eq_ok {n m : Nesting} {call : TreeCall} :
    n.enterTree call = .ok m ↔ n.phase ≠ .fresh ∧ m = { n with phase := .tree } := by
  unfold enterTree
  split
  · next h =>
    refine iff_of_false (fun he => nomatch he) ?_
    rintro ⟨hne, -⟩
    exact hne h
  · next h =>
    constructor
    · intro he
      exact ⟨h, (Except.ok.inj he).symm⟩
    · rintro ⟨-, rfl⟩
      rfl

theorem enterTree_bind_eq_ok {n m : Nesting} {call : TreeCall} {f : Nesting → Except Error Nesting} :
    (n.enterTree call >>= f) = .ok m ↔ n.phase ≠ .fresh ∧ f { n with phase := .tree } = .ok m := by
  rw [bind_eq_ok]
  constructor
  · rintro ⟨n', hn, h⟩
    obtain ⟨hphase, rfl⟩ := enterTree_eq_ok.mp hn
    exact ⟨hphase, h⟩
  · exact fun ⟨hphase, h⟩ => ⟨_, enterTree_eq_ok.mpr ⟨hphase, rfl⟩, h⟩

/-- A name that a new group may take. -/
structure Free (n : Nesting) (id : StringId) : Prop where
  inRange : id.toNat < n.strings
  notExported : id ∉ n.exported
  notOpen : n.isOpen id = false

theorem checkExport_eq_ok {n : Nesting} {exportId : Option StringId} {u : Unit} :
    n.checkExport exportId = .ok u ↔ ∀ id, exportId = some id → n.Free id := by
  unfold checkExport
  rw [bind_eq_ok]
  cases exportId with
  | none =>
    refine iff_of_true ⟨(), rfl, rfl⟩ ?_
    intro id hid
    cases hid
  | some id =>
    constructor
    · rintro ⟨v, hv, hfree⟩ id' hid
      cases hid
      dsimp only at hfree
      split at hfree
      · cases hfree
      · next hnone =>
        simp only [Bool.or_eq_true, List.contains_eq_mem, decide_eq_true_eq, not_or,
          Bool.not_eq_true] at hnone
        exact ⟨checkString_eq_ok.mp hv id rfl, hnone.1, hnone.2⟩
    · intro h
      obtain ⟨hrange, hexported, hopen⟩ := h id rfl
      refine ⟨(), checkString_eq_ok.mpr fun _ he => Option.some.inj he ▸ hrange, ?_⟩
      dsimp only
      rw [if_neg]
      · rfl
      · simp only [Bool.or_eq_true, List.contains_eq_mem, decide_eq_true_eq, not_or,
          Bool.not_eq_true]
        exact ⟨hexported, hopen⟩

/-- A name that a reference may use. -/
structure Closed (n : Nesting) (id : StringId) : Prop where
  inRange : id.toNat < n.strings
  notOpen : n.isOpen id = false
  exported : id ∈ n.exported

theorem checkTarget_eq_ok {n : Nesting} {id : StringId} {u : Unit} :
    n.checkTarget id = .ok u ↔ n.Closed id := by
  unfold checkTarget
  rw [bind_eq_ok]
  cases hopen : n.isOpen id with
  | true =>
    refine iff_of_false ?_ ?_
    · rintro ⟨v, -, h⟩
      cases h
    · rintro ⟨-, hclosed, -⟩
      rw [hopen] at hclosed
      cases hclosed
  | false =>
    cases hexported : n.exported.contains id with
    | true =>
      rw [List.contains_eq_mem, decide_eq_true_eq] at hexported
      constructor
      · rintro ⟨v, hv, -⟩
        exact ⟨checkIndex_eq_ok.mp hv, hopen, hexported⟩
      · rintro ⟨hrange, -, -⟩
        exact ⟨(), checkIndex_eq_ok.mpr hrange, rfl⟩
    | false =>
      rw [List.contains_eq_mem, decide_eq_false_iff_not] at hexported
      refine iff_of_false ?_ ?_
      · rintro ⟨v, -, h⟩
        cases h
      · rintro ⟨-, -, hmem⟩
        exact hexported hmem

/-- The steps that the check admits while `gradients` gradients are registered. -/
inductive Accepted (gradients : Nat) : Nesting → Call → Nesting → Prop
  | init {n : Nesting} (tables : Tables) (hphase : n.phase = .fresh) :
    Accepted gradients n (.init tables)
      { n with
        phase := .initialized
        images := tables.images.length
        strings := tables.strings.length
        floatLists := tables.floatLists.length }
  | document {n : Nesting} (d : Document) (hphase : n.phase = .initialized) :
    Accepted gradients n (.document d) { n with phase := .tree }
  | gradient {n : Nesting} (g : Gradient) (hphase : n.phase ≠ .fresh)
      (hoffsets : g.offsets.toNat < n.floatLists) :
    Accepted gradients n (.gradient g) { n with phase := .tree }
  | beginGroup {n : Nesting} (attrs : GroupAttrs) (hphase : n.phase ≠ .fresh)
      (hfree : ∀ id, attrs.exportId = some id → n.Free id) :
    Accepted gradients n (.beginGroup attrs)
      { n with phase := .tree, scopes := .group attrs.exportId :: n.scopes }
  | endGroup {n : Nesting} (exportId : Option StringId) (rest : List Scope)
      (hscopes : n.scopes = .group exportId :: rest) :
    Accepted gradients n .endGroup
      { n with scopes := rest, exported := exportId.toList ++ n.exported }
  | clip {n : Nesting} (c : ClipPath) (hphase : n.phase ≠ .fresh) :
    Accepted gradients n (.clip c) { n with phase := .tree }
  | beginMask {n : Nesting} (hphase : n.phase ≠ .fresh) :
    Accepted gradients n .beginMask { n with phase := .tree, scopes := .mask :: n.scopes }
  | maskContent {n : Nesting} (rest : List Scope) (hscopes : n.scopes = .mask :: rest) :
    Accepted gradients n .maskContent { n with scopes := .maskContent :: rest }
  | endMask {n : Nesting} (rest : List Scope) (hscopes : n.scopes = .maskContent :: rest) :
    Accepted gradients n .endMask { n with scopes := rest }
  | shape {n : Nesting} (s : Shape) (hphase : n.phase ≠ .fresh)
      (hpaint : s.paint.Within gradients n.floatLists) :
    Accepted gradients n (.shape s) { n with phase := .tree }
  | image {n : Nesting} (leaf : ImageLeaf) (hphase : n.phase ≠ .fresh)
      (himage : leaf.image.toNat < n.images) :
    Accepted gradients n (.image leaf) { n with phase := .tree }
  | text {n : Nesting} (leaf : TextLeaf) (hphase : n.phase ≠ .fresh)
      (hpaint : leaf.paint.Within gradients n.floatLists) (htext : leaf.text.toNat < n.strings)
      (hfamily : ∀ id, leaf.family = some id → id.toNat < n.strings) :
    Accepted gradients n (.text leaf) { n with phase := .tree }
  | use {n : Nesting} (ref : UseRef) (hphase : n.phase ≠ .fresh)
      (htarget : n.Closed ref.target) :
    Accepted gradients n (.use ref) { n with phase := .tree }

/-- What a step of the check tells. -/
theorem accepted_of_accept {n m : Nesting} {gradients : Nat} {call : Call}
    (h : n.accept gradients call = .ok m) : Accepted gradients n call m := by
  cases call with
  | init tables =>
    rw [accept] at h
    split at h
    · next hphase =>
      cases h
      exact .init tables hphase
    · cases h
  | document d =>
    rw [accept] at h
    split at h
    · cases h
    · next hphase =>
      cases h
      exact .document d hphase
    · cases h
  | gradient g =>
    obtain ⟨hphase, h⟩ := enterTree_bind_eq_ok.mp h
    obtain ⟨_, hoffsets, h⟩ := bind_eq_ok.mp h
    cases h
    exact .gradient g hphase (checkIndex_eq_ok.mp hoffsets)
  | beginGroup attrs =>
    obtain ⟨hphase, h⟩ := enterTree_bind_eq_ok.mp h
    obtain ⟨_, hexport, h⟩ := bind_eq_ok.mp h
    cases h
    refine .beginGroup attrs hphase fun id hid => ?_
    obtain ⟨hrange, hexported, hopen⟩ := checkExport_eq_ok.mp hexport id hid
    exact ⟨hrange, hexported, hopen⟩
  | endGroup =>
    change n.endGroup = .ok m at h
    unfold endGroup at h
    split at h
    · next exportId rest hscopes =>
      cases h
      exact .endGroup exportId rest hscopes
    · cases h
    · cases h
  | clip c =>
    obtain ⟨hphase, rfl⟩ := enterTree_eq_ok.mp h
    exact .clip c hphase
  | beginMask =>
    obtain ⟨hphase, h⟩ := enterTree_bind_eq_ok.mp h
    cases h
    exact .beginMask hphase
  | maskContent =>
    change n.maskContent = .ok m at h
    unfold maskContent at h
    split at h
    · next rest hscopes =>
      cases h
      exact .maskContent rest hscopes
    · cases h
  | endMask =>
    change n.endMask = .ok m at h
    unfold endMask at h
    split at h
    · next rest hscopes =>
      cases h
      exact .endMask rest hscopes
    · cases h
    · cases h
  | shape s =>
    obtain ⟨hphase, h⟩ := enterTree_bind_eq_ok.mp h
    obtain ⟨_, hpaint, h⟩ := bind_eq_ok.mp h
    cases h
    exact .shape s hphase (checkPaint_eq_ok.mp hpaint)
  | image leaf =>
    obtain ⟨hphase, h⟩ := enterTree_bind_eq_ok.mp h
    obtain ⟨_, himage, h⟩ := bind_eq_ok.mp h
    cases h
    exact .image leaf hphase (checkIndex_eq_ok.mp himage)
  | text leaf =>
    obtain ⟨hphase, h⟩ := enterTree_bind_eq_ok.mp h
    obtain ⟨_, hpaint, h⟩ := bind_eq_ok.mp h
    obtain ⟨_, htext, h⟩ := bind_eq_ok.mp h
    obtain ⟨_, hfamily, h⟩ := bind_eq_ok.mp h
    cases h
    exact .text leaf hphase (checkPaint_eq_ok.mp hpaint) (checkIndex_eq_ok.mp htext)
      (checkString_eq_ok.mp hfamily)
  | use ref =>
    obtain ⟨hphase, h⟩ := enterTree_bind_eq_ok.mp h
    obtain ⟨_, htarget, h⟩ := bind_eq_ok.mp h
    cases h
    obtain ⟨hrange, hopen, hexported⟩ := checkTarget_eq_ok.mp htarget
    exact .use ref hphase ⟨hrange, hopen, hexported⟩

/-- Every step described is admitted. -/
theorem Accepted.accept {n m : Nesting} {gradients : Nat} {call : Call}
    (h : Accepted gradients n call m) : n.accept gradients call = .ok m := by
  cases h with
  | init tables hphase => exact if_pos hphase
  | document d hphase => simp only [Nesting.accept, hphase]
  | gradient g hphase hoffsets =>
    exact enterTree_bind_eq_ok.mpr ⟨hphase,
      bind_eq_ok.mpr ⟨(), checkIndex_eq_ok.mpr hoffsets, rfl⟩⟩
  | beginGroup attrs hphase hfree =>
    refine enterTree_bind_eq_ok.mpr ⟨hphase,
      bind_eq_ok.mpr ⟨(), checkExport_eq_ok.mpr fun id hid => ?_, rfl⟩⟩
    obtain ⟨hrange, hexported, hopen⟩ := hfree id hid
    exact ⟨hrange, hexported, hopen⟩
  | endGroup exportId rest hscopes => simp only [Nesting.accept, Nesting.endGroup, hscopes]
  | clip c hphase => exact enterTree_eq_ok.mpr ⟨hphase, rfl⟩
  | beginMask hphase => exact enterTree_bind_eq_ok.mpr ⟨hphase, rfl⟩
  | maskContent rest hscopes => simp only [Nesting.accept, Nesting.maskContent, hscopes]
  | endMask rest hscopes => simp only [Nesting.accept, Nesting.endMask, hscopes]
  | shape s hphase hpaint =>
    exact enterTree_bind_eq_ok.mpr ⟨hphase,
      bind_eq_ok.mpr ⟨(), checkPaint_eq_ok.mpr hpaint, rfl⟩⟩
  | image leaf hphase himage =>
    exact enterTree_bind_eq_ok.mpr ⟨hphase,
      bind_eq_ok.mpr ⟨(), checkIndex_eq_ok.mpr himage, rfl⟩⟩
  | text leaf hphase hpaint htext hfamily =>
    exact enterTree_bind_eq_ok.mpr ⟨hphase,
      bind_eq_ok.mpr ⟨(), checkPaint_eq_ok.mpr hpaint,
        bind_eq_ok.mpr ⟨(), checkIndex_eq_ok.mpr htext,
          bind_eq_ok.mpr ⟨(), checkString_eq_ok.mpr hfamily, rfl⟩⟩⟩⟩
  | use ref hphase htarget =>
    refine enterTree_bind_eq_ok.mpr ⟨hphase,
      bind_eq_ok.mpr ⟨(), checkTarget_eq_ok.mpr ?_, rfl⟩⟩
    obtain ⟨hrange, hopen, hexported⟩ := htarget
    exact ⟨hrange, hopen, hexported⟩

theorem accept_eq_ok {n m : Nesting} {gradients : Nat} {call : Call} :
    n.accept gradients call = .ok m ↔ Accepted gradients n call m :=
  ⟨accepted_of_accept, Accepted.accept⟩

/-- A stream may end when the tables are there and no scope is open. -/
theorem checkClosed_eq_ok {n : Nesting} {u : Unit} :
    n.checkClosed = .ok u ↔ n.phase ≠ .fresh ∧ n.scopes = [] := by
  unfold checkClosed
  split
  · next h =>
    refine iff_of_false (fun he => nomatch he) ?_
    rintro ⟨hne, -⟩
    exact hne h
  · next h =>
    split
    · next hscopes => exact iff_of_true rfl ⟨h, hscopes⟩
    · next hscopes =>
      refine iff_of_false (fun he => nomatch he) ?_
      rintro ⟨-, hnil⟩
      rw [hnil] at hscopes
      cases hscopes
    · next hscopes =>
      refine iff_of_false (fun he => nomatch he) ?_
      rintro ⟨-, hnil⟩
      rw [hnil] at hscopes
      cases hscopes

/-- The name of a group that is open. -/
def openName? : Scope → Option StringId
  | .group exportId => exportId
  | _ => none

/-- Names of the open groups, innermost first. -/
def openNames (n : Nesting) : List StringId := n.scopes.filterMap openName?

theorem isOpen_eq_false {n : Nesting} {id : StringId} :
    n.isOpen id = false ↔ id ∉ n.openNames := by
  rw [isOpen, List.contains_eq_mem, decide_eq_false_iff_not, openNames, List.mem_filterMap]
  refine not_congr ⟨fun h => ⟨_, h, rfl⟩, ?_⟩
  rintro ⟨scope, hmem, hname⟩
  cases scope with
  | group exportId =>
    cases hname
    exact hmem
  | mask => cases hname
  | maskContent => cases hname

/-- What holds of the nesting in every run: nothing is open or closed before the tables are
given, and no name is used twice. -/
structure Sound (n : Nesting) : Prop where
  fresh : n.phase = .fresh → n.scopes = [] ∧ n.exported = []
  distinct : (n.openNames ++ n.exported).Nodup
  inRange : ∀ id ∈ n.openNames ++ n.exported, id.toNat < n.strings

theorem sound_start : start.Sound := by
  refine ⟨fun _ => ⟨rfl, rfl⟩, List.nodup_nil, ?_⟩
  intro id hid
  cases hid

theorem sound_initialized (images strings floatLists : Nat) :
    (initialized images strings floatLists).Sound := by
  refine ⟨fun h => (nomatch h), List.nodup_nil, ?_⟩
  intro id hid
  cases hid

/-- A step that changes neither scopes nor names keeps a state sound. -/
theorem Sound.enter {n : Nesting} (h : n.Sound) :
    ({ n with phase := .tree } : Nesting).Sound :=
  ⟨fun he => (nomatch he), h.distinct, h.inRange⟩

theorem Sound.phase_ne {n : Nesting} (h : n.Sound) {scope : Scope} {rest : List Scope}
    (hscopes : n.scopes = scope :: rest) : n.phase ≠ .fresh := by
  intro hphase
  rw [(h.fresh hphase).1] at hscopes
  cases hscopes

/-- The names of the open and of the closed groups are those before, and that of a new group. -/
theorem Accepted.names_perm {n m : Nesting} {gradients : Nat} {call : Call}
    (h : Accepted gradients n call m) :
    (m.openNames ++ m.exported).Perm
      (call.exportId?.toList ++ (n.openNames ++ n.exported)) := by
  cases h with
  | beginGroup attrs hphase hfree =>
    obtain ⟨transform, alpha, exportId⟩ := attrs
    cases exportId <;> exact .refl _
  | endGroup exportId rest hscopes =>
    have hnames : n.openNames = exportId.toList ++ rest.filterMap openName? := by
      rw [openNames, hscopes, List.filterMap_cons]
      cases exportId <;> rfl
    rw [hnames, ← List.append_assoc]
    exact List.perm_append_comm.append_right n.exported
  | maskContent rest hscopes | endMask rest hscopes =>
    rw [show n.openNames = rest.filterMap openName? by rw [openNames, hscopes]; rfl]
    exact .refl _
  | _ => exact .refl _

/-- Once a call has been accepted, the tables are there. -/
theorem Accepted.phase_ne {n m : Nesting} {gradients : Nat} {call : Call} (hn : n.Sound)
    (h : Accepted gradients n call m) : m.phase ≠ .fresh := by
  cases h with
  | endGroup exportId rest hscopes => exact hn.phase_ne hscopes
  | maskContent rest hscopes => exact hn.phase_ne hscopes
  | endMask rest hscopes => exact hn.phase_ne hscopes
  | _ => exact nofun

/-- The name of a group that begins is free. -/
theorem Accepted.free {n m : Nesting} {gradients : Nat} {call : Call}
    (h : Accepted gradients n call m) {id : StringId} (hid : call.exportId? = some id) :
    n.Free id := by
  cases h with
  | beginGroup attrs hphase hfree => exact hfree id hid
  | _ => cases hid

/-- Only the tables, which come first, say how many strings there are. -/
theorem Accepted.strings_eq {n m : Nesting} {gradients : Nat} {call : Call}
    (h : Accepted gradients n call m) :
    call.exportId? = none ∧ n.phase = .fresh ∨ m.strings = n.strings := by
  cases h with
  | init tables hphase => exact .inl ⟨rfl, hphase⟩
  | _ => exact .inr rfl

theorem Sound.step {n m : Nesting} {gradients : Nat} {call : Call} (h : n.Sound)
    (hstep : Accepted gradients n call m) : m.Sound := by
  have hperm := hstep.names_perm
  refine ⟨fun hphase => absurd hphase (hstep.phase_ne h), hperm.nodup_iff.mpr ?_, fun id hid => ?_⟩
  · cases hexport : call.exportId? with
    | none => exact h.distinct
    | some id =>
      have hfree := hstep.free hexport
      show (id :: (n.openNames ++ n.exported)).Nodup
      refine List.nodup_cons.mpr ⟨fun hmem => ?_, h.distinct⟩
      rcases List.mem_append.mp hmem with hmem | hmem
      · exact isOpen_eq_false.mp hfree.notOpen hmem
      · exact hfree.notExported hmem
  · have hname := hperm.mem_iff.mp hid
    rcases hstep.strings_eq with ⟨hexport, hphase⟩ | hstrings
    · obtain ⟨hscopes, hexported⟩ := h.fresh hphase
      simp only [hexport, openNames, hscopes, hexported, Option.toList_none, List.filterMap_nil,
        List.append_nil] at hname
      cases hname
    · rw [hstrings]
      rcases List.mem_append.mp hname with hname | hname
      · exact (hstep.free (Option.mem_toList.mp hname)).inRange
      · exact h.inRange id hname

theorem Accepted.phase_of_init {n m : Nesting} {gradients : Nat} {tables : Tables}
    (h : Accepted gradients n (.init tables) m) : n.phase = .fresh := by
  cases h with
  | init _ hphase => exact hphase

/-- A call of the tree is accepted after the document as it is after the tables. -/
theorem Accepted.inTree {n m : Nesting} {gradients : Nat} {call : Call} (htree : call.OfTree)
    (h : Accepted gradients n call m) :
    Accepted gradients { n with phase := .tree } call { m with phase := .tree } := by
  cases h with
  | init tables hphase => cases htree
  | document d hphase => cases htree
  | gradient g hphase hoffsets => exact .gradient g nofun hoffsets
  | beginGroup attrs hphase hfree =>
    exact .beginGroup attrs nofun fun id hid =>
      ⟨(hfree id hid).inRange, (hfree id hid).notExported, (hfree id hid).notOpen⟩
  | endGroup exportId rest hscopes => exact .endGroup exportId rest hscopes
  | clip c hphase => exact .clip c nofun
  | beginMask hphase => exact .beginMask nofun
  | maskContent rest hscopes => exact .maskContent rest hscopes
  | endMask rest hscopes => exact .endMask rest hscopes
  | shape s hphase hpaint => exact .shape s nofun hpaint
  | image leaf hphase himage => exact .image leaf nofun himage
  | text leaf hphase hpaint htext hfamily => exact .text leaf nofun hpaint htext hfamily
  | use ref hphase htarget =>
    exact .use ref nofun ⟨htarget.inRange, htarget.notOpen, htarget.exported⟩

end Nesting

end VectorImage
