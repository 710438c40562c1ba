import Mathlib.Data.List.Nodup
import VectorImage.Proofs.Call.Passing
import VectorImage.Proofs.Drawing.Echo

/-!
Condensed streams before the nesting check. Where a stream passes, one that condenses it passes
too, as long as it gives no name to two groups; the two checks mirror each other, scope by scope
and name by name.
-/

set_option autoImplicit false
set_option relaxedAutoImplicit false

namespace VectorImage

/-- Names under which calls export the groups that they begin. -/
def exportIds (calls : List Call) : List StringId := calls.filterMap Call.exportId?

theorem exportIds_cons (call : Call) (rest : List Call) :
    exportIds (call :: rest) = call.exportId?.toList ++ exportIds rest := by
  unfold exportIds
  rw [List.filterMap_cons]
  cases call.exportId? <;> rfl

theorem exportIds_singleton (call : Call) : exportIds [call] = call.exportId?.toList := by
  rw [exportIds_cons]
  exact List.append_nil _

theorem exportIds_append (first rest : List Call) :
    exportIds (first ++ rest) = exportIds first ++ exportIds rest := List.filterMap_append

namespace Resources

theorem after_eq (r : Resources) (call : Call) :
    r.after call = { r with gradients := (r.after call).gradients } := by
  cases call <;> rfl

/-- Calls of the tree register gradients and nothing else. -/
theorem foldl_after_eq (r : Resources) (calls : List Call) :
    calls.foldl after r = { r with gradients := (calls.foldl after r).gradients } := by
  induction calls generalizing r with
  | nil => rfl
  | cons call rest ih => rw [List.foldl_cons, ih, after_eq r call]

/-- Where no string stands twice, an index is told by what it stands for. -/
theorem string_unique {r : Resources} (hdistinct : r.strings.toList.Nodup) {i j : StringId}
    {v : String} (hi : r.string i = .ok v) (hj : r.string j = .ok v) : i = j := by
  have hi := lookup_eq_ok_iff.mp hi
  have hj := lookup_eq_ok_iff.mp hj
  rw [← Array.getElem?_toList] at hi hj
  obtain ⟨hlt, -⟩ := List.getElem?_eq_some_iff.mp hi
  exact UInt32.toNat_inj.mp ((List.getElem?_inj hlt hdistinct).mp (hi.trans hj.symm))

end Resources

theorem Call.Renames.exportId? {ρ : Renaming} {call call' : Call} (h : call.Renames ρ call') :
    Option.Rel ρ.strings call.exportId? call'.exportId? := by
  cases h with
  | beginGroup _ _ hexport => exact hexport
  | _ => exact .none

namespace Nesting

/-- The names of all groups, open or closed, are those before and those that the calls export. -/
theorem Passes.names_perm {gradients : Nat} {n m : Nesting} {calls : List Call}
    (h : Passes gradients n calls m) :
    (m.openNames ++ m.exported).Perm (exportIds calls ++ (n.openNames ++ n.exported)) := by
  induction h with
  | nil gradients n => exact .refl _
  | @cons _ n l m call rest hcall hrest ih =>
    rw [exportIds_cons]
    refine ih.trans ((hcall.names_perm.append_left _).trans ?_)
    rw [← List.append_assoc]
    exact List.perm_append_comm.append_right _

/-- A stream that passes from the start of the tree exports every name once. -/
theorem Passes.nodup_exportIds {gradients images strings floatLists : Nat} {m : Nesting}
    {calls : List Call}
    (h : Passes gradients (.initialized images strings floatLists) calls m) :
    (exportIds calls).Nodup := by
  have hdistinct := (h.sound (sound_initialized images strings floatLists)).distinct
  have hperm : (m.openNames ++ m.exported).Perm (exportIds calls ++ []) := h.names_perm
  rw [List.append_nil] at hperm
  exact hperm.nodup_iff.mp hdistinct

/-- After the tables, names are exported in range. -/
theorem Passes.exportIds_lt {gradients : Nat} {n m : Nesting} {calls : List Call}
    (h : Passes gradients n calls m) (hphase : n.phase ≠ .fresh) :
    ∀ id ∈ exportIds calls, id.toNat < n.strings := by
  induction h with
  | nil gradients n =>
    intro id hid
    cases hid
  | @cons _ n l m call rest hcall hrest ih =>
    have hkeeps : l.strings = n.strings ∧ l.phase ≠ .fresh := by
      cases hcall with
      | init _ hfresh => exact absurd hfresh hphase
      | endGroup | maskContent | endMask => exact ⟨rfl, hphase⟩
      | _ => exact ⟨rfl, nofun⟩
    obtain ⟨hstrings, hl⟩ := hkeeps
    intro id hid
    rw [exportIds_cons, List.mem_append, Option.mem_toList] at hid
    rcases hid with hid | hid
    · cases hcall with
      | beginGroup attrs _ hfree => exact (hfree id hid).inRange
      | _ => cases hid
    · exact hstrings ▸ ih hl id hid

/-- Two checks that have come to corresponding places of a stream and of one that condenses it;
the second is among the tables `s`. -/
structure Mirrors (r s : Resources) (n n' : Nesting) : Prop where
  sound : n'.Sound
  phase : n'.phase ≠ .fresh
  scopes : List.Forall₂ (Scope.Renames (.denoting r s)) n.scopes n'.scopes
  exported : List.Forall₂ (Renaming.denoting r s).strings n.exported n'.exported
  images : n'.images = s.images.size
  strings : n'.strings = s.strings.size
  floatLists : n'.floatLists = s.floatLists.size

/-- An index that stands for something is in range. -/
private theorem lookup_lt {α : Type} {table : Array α} {kind : TableKind} {i : UInt32} {v : α}
    (h : lookup table kind i = .ok v) : i.toNat < table.size :=
  (Array.getElem?_eq_some_iff.mp (lookup_eq_ok_iff.mp h)).1

section

variable {r s : Resources} {n m n' : Nesting} {gradients : Nat} {call call' : Call}

/-- A paint that stands for another is in range. -/
private theorem within_of_denoting {p q : Paint} (h : p.Renames (.denoting r s) q) :
    q.Within s.gradients.size s.floatLists.size := by
  refine ⟨fun j hj => ?_, fun e he => ?_⟩
  · obtain ⟨i, -, v, -, hv⟩ := h.gradientIds_right hj
    obtain ⟨g, d, hg, -, -⟩ := Resources.resolveSource_gradient_eq_ok.mp hv
    exact lookup_lt hg
  · obtain ⟨d, -, v, -, hv⟩ := h.dash_right he
    exact lookup_lt hv

/-- A name that stands for another is in range. -/
private theorem string_lt {name name' : Option StringId}
    (h : Option.Rel (Renaming.denoting r s).strings name name') {id : StringId}
    (hid : name' = some id) : id.toNat < s.strings.size := by
  cases h with
  | some hname =>
    obtain ⟨v, -, hv⟩ := hname
    exact Option.some.inj hid ▸ lookup_lt hv
  | none => cases hid

private theorem Mirrors.enter (h : Mirrors r s n n') :
    Mirrors r s { n with phase := .tree } { n' with phase := .tree } :=
  ⟨h.sound.enter, nofun, h.scopes, h.exported, h.images, h.strings, h.floatLists⟩

/-- The innermost scopes correspond. -/
private theorem Mirrors.innermost (h : Mirrors r s n n') {scope : Scope} {rest : List Scope}
    (hscopes : n.scopes = scope :: rest) : ∃ scope' rest', n'.scopes = scope' :: rest' ∧
      scope.Renames (.denoting r s) scope' ∧
      List.Forall₂ (Scope.Renames (.denoting r s)) rest rest' := by
  have hall := h.scopes
  rw [hscopes] at hall
  obtain ⟨scope', rest', hscope, hrest, hscopes'⟩ := List.forall₂_cons_left_iff.mp hall
  exact ⟨scope', rest', hscopes', hscope, hrest⟩

/-- A call that is accepted is accepted when said of the same values, unless it exports a name
that is taken. -/
theorem Mirrors.accepted (h : Mirrors r s n n') (haccept : Accepted gradients n call m)
    (hcall : call.Renames (.denoting r s) call')
    (hdistinct : s.strings.toList.Nodup)
    (hfree : ∀ id, call'.exportId? = some id → id ∉ n'.openNames ++ n'.exported) :
    ∃ m', Accepted s.gradients.size n' call' m' ∧ Mirrors r s m m' := by
  have hkeeps {m' : Nesting} (haccept' : Accepted s.gradients.size n' call' m') : m'.Sound :=
    h.sound.step haccept'
  cases hcall with
  | gradient hrenames =>
    obtain ⟨v, -, hv⟩ := hrenames.offsets
    cases haccept
    exact ⟨_, .gradient _ h.phase (h.floatLists ▸ lookup_lt hv), h.enter⟩
  | @beginGroup attrs attrs' _ _ hexport =>
    have hfree' : ∀ id, attrs'.exportId = some id → n'.Free id := by
      intro id hid
      have htaken := hfree id hid
      rw [List.mem_append, not_or] at htaken
      exact ⟨h.strings ▸ string_lt hexport hid, htaken.2, isOpen_eq_false.mpr htaken.1⟩
    have haccept' : Accepted s.gradients.size n' _ _ := .beginGroup attrs' h.phase hfree'
    cases haccept
    exact ⟨_, haccept', hkeeps haccept', nofun, .cons (.group hexport) h.scopes, h.exported,
      h.images, h.strings, h.floatLists⟩
  | endGroup =>
    cases haccept with
    | endGroup exportId rest hscopes =>
      obtain ⟨_, rest', hscopes', hscope, hrest⟩ := h.innermost hscopes
      cases hscope with
      | @group _ exportId' hname =>
        have haccept' : Accepted s.gradients.size n' _ _ := .endGroup exportId' rest' hscopes'
        refine ⟨_, haccept', hkeeps haccept', h.phase, hrest, ?_, h.images, h.strings,
          h.floatLists⟩
        cases hname with
        | none => exact h.exported
        | some hname => exact .cons hname h.exported
  | clip c =>
    cases haccept
    exact ⟨_, .clip c h.phase, h.enter⟩
  | beginMask =>
    have haccept' : Accepted s.gradients.size n' _ _ := .beginMask h.phase
    cases haccept
    exact ⟨_, haccept', hkeeps haccept', nofun, .cons .mask h.scopes, h.exported, h.images,
      h.strings, h.floatLists⟩
  | maskContent =>
    cases haccept with
    | maskContent rest hscopes =>
      obtain ⟨_, rest', hscopes', hscope, hrest⟩ := h.innermost hscopes
      cases hscope
      have haccept' : Accepted s.gradients.size n' _ _ := .maskContent rest' hscopes'
      exact ⟨_, haccept', hkeeps haccept', h.phase, .cons .maskContent hrest, h.exported,
        h.images, h.strings, h.floatLists⟩
  | endMask =>
    cases haccept with
    | endMask rest hscopes =>
      obtain ⟨_, rest', hscopes', hscope, hrest⟩ := h.innermost hscopes
      cases hscope
      have haccept' : Accepted s.gradients.size n' _ _ := .endMask rest' hscopes'
      exact ⟨_, haccept', hkeeps haccept', h.phase, hrest, h.exported, h.images, h.strings,
        h.floatLists⟩
  | shape _ hpaint _ =>
    have hwithin := within_of_denoting hpaint
    rw [← h.floatLists] at hwithin
    cases haccept
    exact ⟨_, .shape _ h.phase hwithin, h.enter⟩
  | image himage _ _ =>
    obtain ⟨v, -, hv⟩ := himage
    cases haccept
    exact ⟨_, .image _ h.phase (h.images ▸ lookup_lt hv), h.enter⟩
  | @text leaf leaf' hrenames =>
    have hwithin := within_of_denoting hrenames.paint
    rw [← h.floatLists] at hwithin
    obtain ⟨v, -, hv⟩ := hrenames.text
    have hfamily : ∀ id, leaf'.family = some id → id.toNat < n'.strings :=
      fun id hid => h.strings ▸ string_lt hrenames.family hid
    cases haccept
    exact ⟨_, .text _ h.phase hwithin (h.strings ▸ lookup_lt hv) hfamily, h.enter⟩
  | @use u u' htarget _ =>
    cases haccept with
    | use _ _ hclosed =>
      -- the target is closed, so its name is closed on the other side, and open nowhere
      obtain ⟨j, hj, w, hraw, hw⟩ := exists_related h.exported hclosed.exported
      obtain ⟨v, hraw', hv⟩ := htarget
      cases hraw.symm.trans hraw'
      obtain rfl := Resources.string_unique hdistinct hw hv
      refine ⟨_, .use u' h.phase ⟨h.strings ▸ lookup_lt hv, isOpen_eq_false.mpr fun hopen => ?_,
        hj⟩, h.enter⟩
      exact (List.nodup_append.mp h.sound.distinct).2.2 _ hopen _ hj rfl

end

/-- Names stand for what they stood for when more gradients are registered. -/
private theorem Mirrors.after {r s : Resources} {n n' : Nesting} (h : Mirrors r s n n')
    (call : Call) (said : List Call) :
    Mirrors (r.after call) (said.foldl Resources.after s) n n' := by
  rw [Resources.after_eq, Resources.foldl_after_eq]
  refine ⟨h.sound, h.phase, h.scopes.imp fun a b hab => ?_, h.exported, h.images, h.strings,
    h.floatLists⟩
  cases hab with
  | group hname => exact .group hname
  | mask => exact .mask
  | maskContent => exact .maskContent

/-- A stream that condenses one that passes, and exports every name once, passes. -/
theorem Passes.condensed {gradients : Nat} {r s : Resources} {n m n' : Nesting}
    {calls said : List Call} (h : Passes gradients n calls m) (hcondenses : Condenses r calls s said)
    (hmirrors : Mirrors r s n n') (hdistinct : s.strings.toList.Nodup)
    (hnames : (exportIds said ++ (n'.openNames ++ n'.exported)).Nodup) :
    ∃ m', Passes s.gradients.size n' said m' ∧ m'.phase ≠ .fresh ∧
      (m.scopes = [] → m'.scopes = []) := by
  induction hcondenses generalizing gradients n n' with
  | nil r s =>
    cases h
    refine ⟨n', .nil _ _, hmirrors.phase, fun hscopes => ?_⟩
    have hall := hmirrors.scopes
    rw [hscopes] at hall
    exact List.forall₂_nil_left_iff.mp hall
  | @cons r s call said rest more hcall hrest ih =>
    cases h with
    | cons haccept hlater =>
      cases hcall with
      | defined =>
        cases haccept
        have hskip : Mirrors r s { n with phase := .tree } n' :=
          ⟨hmirrors.sound, hmirrors.phase, hmirrors.scopes, hmirrors.exported, hmirrors.images,
            hmirrors.strings, hmirrors.floatLists⟩
        exact ih hlater (hskip.after _ []) hdistinct hnames
      | @same _ call' hrenames =>
        rw [exportIds_append, exportIds_singleton] at hnames
        obtain ⟨l', haccept', hl⟩ := hmirrors.accepted haccept hrenames hdistinct (by
          intro id hid
          rw [hid, List.append_assoc] at hnames
          have hnot : id ∉ exportIds more ++ (n'.openNames ++ n'.exported) :=
            (List.nodup_cons.mp hnames).1
          exact fun hmem => hnot (List.mem_append_right _ hmem))
        have hsize : s.gradients.size + call'.isGradient.toNat =
            ([call'].foldl Resources.after s).gradients.size := by
          rw [Resources.gradients_size_after, List.countP_singleton]
          cases call'.isGradient <;> rfl
        obtain ⟨m', hpasses, hphase, hclosed⟩ := ih hlater (hl.after call [call'])
          (by rw [Resources.foldl_after_eq]; exact hdistinct) (by
            refine (List.Perm.nodup_iff ?_).mpr hnames
            refine (haccept'.names_perm.append_left _).trans ?_
            rw [← List.append_assoc]
            exact List.perm_append_comm.append_right _)
        rw [← hsize] at hpasses
        exact ⟨m', .cons haccept' hpasses, hphase, hclosed⟩

end Nesting

/-- Groups are exported under names that stand for the same. -/
theorem Condenses.names {r s : Resources} {calls said : List Call}
    (h : Condenses r calls s said) : List.Forall₂ (Renaming.denoting r s).strings
      (exportIds calls) (exportIds said) := by
  induction h with
  | nil r s => exact .nil
  | @cons r s call said rest more hcall hrest ih =>
    rw [Resources.after_eq, Resources.foldl_after_eq] at ih
    rw [exportIds_cons, exportIds_append]
    cases hcall with
    | defined => exact ih
    | @same _ call' hrenames =>
      rw [exportIds_singleton]
      have hexport := hrenames.exportId?
      generalize call.exportId? = name at hexport
      generalize call'.exportId? = name' at hexport
      cases hexport with
      | none => exact ih
      | some hname => exact .cons hname ih

/-- The strings that names stand for are told apart on both sides alike. -/
theorem Condenses.nodup_iff {r s : Resources} {calls said : List Call} (h : Condenses r calls s said)
    (hdistinct : s.strings.toList.Nodup) :
    ((exportIds calls).map fun id => r.strings[id.toNat]?).Nodup ↔
      (exportIds said).Nodup := by
  have hnames := h.names
  have hsame : List.Forall₂ Eq ((exportIds calls).map fun id => r.strings[id.toNat]?)
      ((exportIds said).map fun id => s.strings[id.toNat]?) := by
    refine List.forall₂_map_left_iff.mpr (List.forall₂_map_right_iff.mpr (hnames.imp ?_))
    rintro i j ⟨v, hi, hj⟩
    exact (lookup_eq_ok_iff.mp hi).trans (lookup_eq_ok_iff.mp hj).symm
  rw [List.forall₂_eq_eq_eq] at hsame
  rw [hsame]
  refine ⟨List.Nodup.of_map _, fun hnodup => hnodup.map_on fun i hi j _ heq => ?_⟩
  obtain ⟨_, -, v, -, hv⟩ := exists_related (List.Forall₂.flip hnames) hi
  exact Resources.string_unique hdistinct hv
    (lookup_eq_ok_iff.mpr (heq.symm.trans (lookup_eq_ok_iff.mp hv)))

/-- The strings under which a stream exports its groups. -/
def exportNames : List Call → List (Option String)
  | .init t :: rest => (exportIds rest).map fun id => t.strings[id.toNat]?
  | _ => []

/-- A stream that passes and whose strings are distinct exports its groups under different ones. -/
theorem Nesting.Passes.nodup_exportNames {m : Nesting} {tables : Tables} {rest : List Call}
    (h : Passes 0 .start (.init tables :: rest) m) (hdistinct : tables.strings.Nodup) :
    (exportNames (.init tables :: rest)).Nodup := by
  cases h with
  | cons hinit hrest =>
    obtain ⟨_, heq, rfl⟩ := hinit.of_start
    cases heq
    have hinRange := hrest.exportIds_lt nofun
    refine hrest.nodup_exportIds.map_on fun i hi j _ hij => ?_
    exact UInt32.toNat_inj.mp ((List.getElem?_inj (hinRange i hi) hdistinct).mp hij)

end VectorImage
