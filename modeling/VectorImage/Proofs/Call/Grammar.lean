import VectorImage.Proofs.Call.Mirroring

/-!
The language of the streams that a recorder takes. A grammar says how the calls of a tree nest;
what calls refer to is said of every call and the calls before it. The nesting check reads a
stream from the left, with a stack of the scopes that are open: what it has read is a part of a
tree that leaves these scopes open. A stream is recorded exactly when it derives from the grammar
and all that it refers to is there.
-/

set_option autoImplicit false
set_option relaxedAutoImplicit false

namespace VectorImage

/-! The protocol. -/

namespace Call

/-- A call that opens no scope and closes none. -/
def isSingle : Call → Bool
  | .gradient _ => true
  | .clip _ => true
  | .shape _ => true
  | .image _ => true
  | .text _ => true
  | .use _ => true
  | _ => false

def imageIds : Call → List ImageId
  | .image leaf => [leaf.image]
  | _ => []

/-- The strings that a call names: that of its group, those of its text run, or that of the group
it refers to. -/
def stringIds : Call → List StringId
  | .beginGroup attrs => attrs.exportId.toList
  | .text leaf => leaf.text :: leaf.family.toList
  | .use ref => [ref.target]
  | _ => []

/-- The offsets of a gradient, or the dashes of a stroke. -/
def floatListIds : Call → List FloatListId
  | .gradient g => [g.offsets]
  | call => (call.paint?.bind fun p => p.stroke.bind Stroke.dash).toList

/-- The gradients in a call's paint. -/
def gradientIds (call : Call) : List GradientId := (call.paint?.map Paint.gradientIds).getD []

/-- All that a call refers to is in the tables or among the gradients so far. -/
structure RefersWithin (tables : Tables) (gradients : Nat) (call : Call) : Prop where
  images : ∀ id ∈ call.imageIds, id.toNat < tables.images.length
  strings : ∀ id ∈ call.stringIds, id.toNat < tables.strings.length
  floatLists : ∀ id ∈ call.floatListIds, id.toNat < tables.floatLists.length
  gradients : ∀ id ∈ call.gradientIds, id.toNat < gradients

end Call

/-- The calls of a tree: single calls, groups, and masks of two halves, one after the other. -/
inductive Derives : List Call → Prop
  | nil : Derives []
  | single {call : Call} {rest : List Call} (hcall : call.isSingle = true) (hrest : Derives rest) :
    Derives (call :: rest)
  | group (attrs : GroupAttrs) {body rest : List Call} (hbody : Derives body)
      (hrest : Derives rest) : Derives (.beginGroup attrs :: (body ++ .endGroup :: rest))
  | mask {mask content rest : List Call} (hmask : Derives mask) (hcontent : Derives content)
      (hrest : Derives rest) :
    Derives (.beginMask :: (mask ++ .maskContent :: (content ++ .endMask :: rest)))

/-- A group of this name has been begun and closed among the calls. -/
def HasClosed (calls : List Call) (id : StringId) : Prop :=
  ∃ before attrs body after, calls = before ++ .beginGroup attrs :: (body ++ .endGroup :: after) ∧
    attrs.exportId = some id ∧ Derives body

/-- What the calls of a tree refer to is there: entries of the tables, gradients registered before,
and groups closed before. No two groups have one name. -/
structure Referenced (tables : Tables) (tree : List Call) : Prop where
  within : ∀ before call after, tree = before ++ call :: after →
    call.RefersWithin tables (before.countP Call.isGradient)
  distinct : (exportIds tree).Nodup
  closed : ∀ before ref after, tree = before ++ .use ref :: after → HasClosed before ref.target

/-- The tables, then the document if there is one, then a tree whose references hold. -/
def FollowsProtocol (calls : List Call) : Prop :=
  ∃ (tables : Tables) (declared : Option Document) (tree : List Call),
    calls = .init tables :: (declared.toList.map Call.document ++ tree) ∧
      Derives tree ∧ Referenced tables tree

/-! Derivations. -/

theorem Derives.append {first rest : List Call} (h : Derives first) (hrest : Derives rest) :
    Derives (first ++ rest) := by
  induction h with
  | nil => exact hrest
  | single hcall _ ih => exact .single hcall ih
  | group attrs hbody _ _ ih =>
    rw [List.cons_append, List.append_assoc, List.cons_append]
    exact .group attrs hbody ih
  | mask hmask hcontent _ _ _ ih =>
    rw [List.cons_append, List.append_assoc, List.cons_append, List.append_assoc, List.cons_append]
    exact .mask hmask hcontent ih

theorem Derives.ofTree {calls : List Call} (h : Derives calls) : ∀ call ∈ calls, call.OfTree := by
  induction h with
  | nil => exact List.forall_mem_nil _
  | @single call rest hcall _ ih =>
    refine List.forall_mem_cons.mpr ⟨?_, ih⟩
    cases call with
    | init | document => cases hcall
    | _ => trivial
  | group attrs _ _ ihbody ihrest =>
    simp only [List.forall_mem_cons, List.forall_mem_append]
    exact ⟨trivial, ihbody, trivial, ihrest⟩
  | mask _ _ _ ihmask ihcontent ihrest =>
    simp only [List.forall_mem_cons, List.forall_mem_append]
    exact ⟨trivial, ihmask, trivial, ihcontent, trivial, ihrest⟩

theorem HasClosed.append {calls : List Call} {id : StringId} (h : HasClosed calls id)
    (more : List Call) : HasClosed (calls ++ more) id := by
  obtain ⟨before, attrs, body, after, rfl, hname, hbody⟩ := h
  refine ⟨before, attrs, body, after ++ more, ?_, hname, hbody⟩
  simp only [List.append_assoc, List.cons_append]

/-- The calls of a part of a tree that leaves these scopes open, innermost first. -/
inductive Leaves : List Call → List Scope → Prop
  | done {calls : List Call} (h : Derives calls) : Leaves calls []
  | group {before body : List Call} {scopes : List Scope} (attrs : GroupAttrs)
      (hbefore : Leaves before scopes) (hbody : Derives body) :
    Leaves (before ++ .beginGroup attrs :: body) (.group attrs.exportId :: scopes)
  | mask {before body : List Call} {scopes : List Scope} (hbefore : Leaves before scopes)
      (hbody : Derives body) : Leaves (before ++ .beginMask :: body) (.mask :: scopes)
  | maskContent {before mask body : List Call} {scopes : List Scope}
      (hbefore : Leaves before scopes) (hmask : Derives mask) (hbody : Derives body) :
    Leaves (before ++ .beginMask :: (mask ++ .maskContent :: body)) (.maskContent :: scopes)

/-- What derives goes into the innermost scope. -/
theorem Leaves.append {calls more : List Call} {scopes : List Scope} (h : Leaves calls scopes)
    (hmore : Derives more) : Leaves (calls ++ more) scopes := by
  cases h with
  | done hcalls => exact .done (hcalls.append hmore)
  | group attrs hbefore hbody =>
    rw [List.append_assoc, List.cons_append]
    exact .group attrs hbefore (hbody.append hmore)
  | mask hbefore hbody =>
    rw [List.append_assoc, List.cons_append]
    exact .mask hbefore (hbody.append hmore)
  | maskContent hbefore hmask hbody =>
    rw [List.append_assoc, List.cons_append, List.append_assoc, List.cons_append]
    exact .maskContent hbefore hmask (hbody.append hmore)

namespace Nesting

variable {tables : Tables} {gradients : Nat} {n l m : Nesting} {call : Call}
  {before tree calls : List Call}

theorem Passes.append {first rest : List Call} (h : Passes gradients n first l)
    (hrest : Passes (gradients + first.countP Call.isGradient) l rest m) :
    Passes gradients n (first ++ rest) m := by
  induction h with
  | nil => exact hrest
  | @cons _ _ _ _ call first hcall _ ih =>
    refine .cons hcall (ih ?_)
    rwa [Nat.add_assoc, ← countP_isGradient_cons]

/-- The lengths are those of the tables, which are there. -/
structure Counts (tables : Tables) (n : Nesting) : Prop where
  phase : n.phase ≠ .fresh
  images : n.images = tables.images.length
  strings : n.strings = tables.strings.length
  floatLists : n.floatLists = tables.floatLists.length

theorem Counts.step (h : n.Counts tables) (htree : call.OfTree)
    (haccept : Accepted gradients n call m) : m.Counts tables := by
  obtain ⟨hphase, himages, hstrings, hlists⟩ := h
  cases haccept with
  | init | document => cases htree
  | endGroup | maskContent | endMask => exact ⟨hphase, himages, hstrings, hlists⟩
  | _ => exact ⟨nofun, himages, hstrings, hlists⟩

/-! What passes, derives, and what it refers to is there. -/

/-- What the check has read of a tree: it leaves the open scopes open, and the names that count as
exported are those of groups that it has closed. -/
structure Reads (tables : Tables) (before : List Call) (n : Nesting) : Prop where
  counts : n.Counts tables
  scopes : Leaves before n.scopes
  closed : ∀ id ∈ n.exported, HasClosed before id

private theorem Reads.single (h : Reads tables before n) (hcall : call.isSingle = true)
    (hcounts : m.Counts tables) (hscopes : m.scopes = n.scopes)
    (hexported : m.exported = n.exported) : Reads tables (before ++ [call]) m := by
  refine ⟨hcounts, ?_, fun id hid => (h.closed id (hexported ▸ hid)).append [call]⟩
  rw [hscopes]
  exact h.scopes.append (.single hcall .nil)

private theorem Reads.step (h : Reads tables before n) (htree : call.OfTree)
    (haccept : Accepted gradients n call m) : Reads tables (before ++ [call]) m := by
  have hcounts := h.counts.step htree haccept
  have hscopes := h.scopes
  have hclosed := fun id hid => (h.closed id hid).append [call]
  cases haccept with
  | init | document => cases htree
  | gradient | clip | shape | image | text | use => exact h.single rfl hcounts rfl rfl
  | beginGroup attrs => exact ⟨hcounts, .group attrs hscopes .nil, hclosed⟩
  | beginMask => exact ⟨hcounts, .mask hscopes .nil, hclosed⟩
  | endGroup exportId rest hopen =>
    rw [hopen] at hscopes
    cases hscopes with
    | @group earlier body _ attrs hbefore hbody =>
      have hends := hbefore.append (.group attrs hbody .nil)
      rw [List.append_assoc, List.cons_append]
      refine ⟨hcounts, hends, fun id hid => ?_⟩
      rcases List.mem_append.mp hid with hid | hid
      · exact ⟨earlier, attrs, body, [], rfl, Option.mem_toList.mp hid, hbody⟩
      · have hbefore := hclosed id hid
        rwa [List.append_assoc, List.cons_append] at hbefore
  | maskContent rest hopen =>
    rw [hopen] at hscopes
    cases hscopes with
    | mask hbefore hbody =>
      rw [List.append_assoc, List.cons_append] at hclosed ⊢
      exact ⟨hcounts, .maskContent hbefore hbody .nil, hclosed⟩
  | endMask rest hopen =>
    rw [hopen] at hscopes
    cases hscopes with
    | maskContent hbefore hmask hbody =>
      rw [List.append_assoc, List.cons_append, List.append_assoc, List.cons_append] at hclosed ⊢
      exact ⟨hcounts, hbefore.append (.mask hmask hbody .nil), hclosed⟩

theorem Reads.passes (h : Reads tables before n) (htree : ∀ call ∈ calls, call.OfTree)
    (hpasses : Passes gradients n calls m) : Reads tables (before ++ calls) m := by
  induction hpasses generalizing before with
  | nil => rwa [List.append_nil]
  | @cons _ _ _ _ call rest haccept _ ih =>
    obtain ⟨hcall, hrest⟩ := List.forall_mem_cons.mp htree
    have hread := ih (h.step hcall haccept) hrest
    rwa [List.append_assoc] at hread

/-- What an accepted call refers to is there. -/
theorem Accepted.refersWithin (haccept : Accepted gradients n call m) (h : n.Counts tables)
    (htree : call.OfTree) : call.RefersWithin tables gradients := by
  obtain ⟨-, himages, hstrings, hlists⟩ := h
  have hnone {α : Type} {P : α → Prop} : ∀ a ∈ ([] : List α), P a := fun a ha => nomatch ha
  cases haccept with
  | init | document => cases htree
  | gradient g _ hoffsets =>
    exact ⟨hnone, hnone, List.forall_mem_singleton.mpr (hlists ▸ hoffsets), hnone⟩
  | beginGroup attrs _ hfree =>
    exact ⟨hnone, fun id hid => hstrings ▸ (hfree id (Option.mem_toList.mp hid)).inRange,
      hnone, hnone⟩
  | shape s _ hpaint =>
    exact ⟨hnone, hnone, fun id hid => hlists ▸ hpaint.dash id (Option.mem_toList.mp hid),
      hpaint.gradients⟩
  | image leaf _ himage =>
    exact ⟨List.forall_mem_singleton.mpr (himages ▸ himage), hnone, hnone, hnone⟩
  | text leaf _ hpaint htext hfamily =>
    refine ⟨hnone, List.forall_mem_cons.mpr ⟨hstrings ▸ htext, fun id hid => ?_⟩,
      fun id hid => hlists ▸ hpaint.dash id (Option.mem_toList.mp hid), hpaint.gradients⟩
    exact hstrings ▸ hfamily id (Option.mem_toList.mp hid)
  | use ref _ htarget =>
    exact ⟨hnone, List.forall_mem_singleton.mpr (hstrings ▸ htarget.inRange), hnone, hnone⟩
  | _ => exact ⟨hnone, hnone, hnone, hnone⟩

/-- After the tables, and the document if there is one: no scope is open and no name is taken. -/
structure Opening (tables : Tables) (n : Nesting) : Prop where
  counts : n.Counts tables
  scopes : n.scopes = []
  exported : n.exported = []

private theorem opening_initialized (tables : Tables) :
    (initialized tables.images.length tables.strings.length tables.floatLists.length).Opening
      tables := ⟨⟨nofun, rfl, rfl, rfl⟩, rfl, rfl⟩

private theorem Opening.enter (h : n.Opening tables) :
    ({ n with phase := .tree } : Nesting).Opening tables :=
  ⟨⟨nofun, h.counts.images, h.counts.strings, h.counts.floatLists⟩, h.scopes, h.exported⟩

theorem Opening.reads (h : n.Opening tables) : Reads tables [] n := by
  refine ⟨h.counts, ?_, ?_⟩
  · rw [h.scopes]
    exact .done .nil
  · rw [h.exported]
    exact fun id hid => nomatch hid

theorem Opening.sound (h : n.Opening tables) : n.Sound := by
  refine ⟨fun hfresh => absurd hfresh h.counts.phase, ?_, ?_⟩
  · simp [openNames, h.scopes, h.exported]
  · simp [openNames, h.scopes, h.exported]

/-- The names of open and of closed groups are those that the calls have exported. -/
private theorem Opening.names_perm (h : n.Opening tables) (hpasses : Passes gradients n calls m) :
    (m.openNames ++ m.exported).Perm (exportIds calls) := by
  have hperm := hpasses.names_perm
  rwa [show n.openNames = [] by rw [openNames, h.scopes, List.filterMap_nil], h.exported,
    List.append_nil, List.append_nil] at hperm

/-- A tree that passes and closes all that it opens, derives. -/
theorem Opening.derives (h : n.Opening tables) (htree : ∀ call ∈ tree, call.OfTree)
    (hpasses : Passes gradients n tree m) (hscopes : m.scopes = []) : Derives tree := by
  have hread := (h.reads.passes htree hpasses).scopes
  rw [hscopes, List.nil_append] at hread
  cases hread with
  | done hderives => exact hderives

/-- What a tree that passes refers to is there. -/
theorem Opening.referenced (h : n.Opening tables) (htree : ∀ call ∈ tree, call.OfTree)
    (hpasses : Passes 0 n tree m) : Referenced tables tree := by
  have hcall {before after : List Call} {call : Call} (hsplit : tree = before ++ call :: after) :
      ∃ k l, Accepted (before.countP Call.isGradient) k call l ∧ Reads tables before k := by
    subst hsplit
    obtain ⟨k, hbefore, hrest⟩ := hpasses.split
    have hread := h.reads.passes (fun c hc => htree c (List.mem_append_left _ hc)) hbefore
    cases hrest with
    | cons haccept _ =>
      rw [Nat.zero_add] at haccept
      exact ⟨k, _, haccept, hread⟩
  refine ⟨fun before call after hsplit => ?_, ?_, fun before ref after hsplit => ?_⟩
  · obtain ⟨k, l, haccept, hread⟩ := hcall hsplit
    exact haccept.refersWithin hread.counts
      (htree call (hsplit ▸ List.mem_append_right before List.mem_cons_self))
  · exact (h.names_perm hpasses).nodup_iff.mp (hpasses.sound h.sound).distinct
  · obtain ⟨k, l, haccept, hread⟩ := hcall hsplit
    cases haccept with
    | use _ _ htarget => exact hread.closed _ htarget.exported

/-! What derives passes, if all that it refers to is there. -/

theorem Accepted.scopes_eq (h : Accepted gradients n call m) (hcall : call.isSingle = true) :
    m.scopes = n.scopes := by
  cases h with
  | gradient | clip | shape | image | text | use => rfl
  | _ => cases hcall

/-- A tree closes all that it opens. -/
theorem Passes.scopes_eq (hpasses : Passes gradients n calls m) (h : Derives calls) :
    m.scopes = n.scopes := by
  induction h generalizing gradients n m with
  | nil =>
    cases hpasses
    rfl
  | @single call rest hcall _ ih =>
    cases hpasses with
    | cons haccept hrest =>
      exact (ih hrest).trans (haccept.scopes_eq hcall)
  | group attrs hbody hrest ihbody ihrest =>
    cases hpasses with
    | cons hbegin hafter =>
      obtain ⟨l, hinner, houter⟩ := hafter.split
      have hinside := ihbody hinner
      cases houter with
      | cons hend hlater =>
        rw [ihrest hlater]
        cases hbegin
        cases hend with
        | endGroup exportId rest hscopes => exact (List.cons.inj (hscopes.symm.trans hinside)).2
  | mask hmask hcontent hrest ihmask ihcontent ihrest =>
    cases hpasses with
    | cons hbegin hafter =>
      obtain ⟨l, hfirst, hsecond⟩ := hafter.split
      have hinside := ihmask hfirst
      cases hsecond with
      | cons hturn hafter =>
        obtain ⟨k, hfirst, hsecond⟩ := hafter.split
        have hwithin := ihcontent hfirst
        cases hsecond with
        | cons hend hlater =>
          rw [ihrest hlater]
          cases hbegin
          cases hturn with
          | maskContent rest hscopes =>
            obtain ⟨-, rfl⟩ := List.cons.inj (hscopes.symm.trans hinside)
            cases hend with
            | endMask rest hscopes => exact (List.cons.inj (hscopes.symm.trans hwithin)).2

theorem Passes.exported_subset (h : Passes gradients n calls m) : n.exported ⊆ m.exported := by
  induction h with
  | nil => exact List.Subset.refl _
  | cons haccept _ ih =>
    refine List.Subset.trans ?_ ih
    cases haccept with
    | endGroup => exact List.subset_append_right _ _
    | _ => exact List.Subset.refl _

/-- A group that has been closed counts as exported. -/
theorem Passes.mem_exported (h : Passes gradients n calls m) {id : StringId}
    (hid : HasClosed calls id) : id ∈ m.exported := by
  obtain ⟨before, attrs, body, after, rfl, hname, hbody⟩ := hid
  obtain ⟨_, -, h⟩ := h.split
  cases h with
  | cons hbegin hafter =>
    obtain ⟨l, hinner, houter⟩ := hafter.split
    have hinside := hinner.scopes_eq hbody
    cases houter with
    | cons hend hlater =>
      refine hlater.exported_subset ?_
      cases hbegin
      cases hend with
      | endGroup exportId rest hscopes =>
        obtain ⟨hscope, -⟩ := List.cons.inj (hscopes.symm.trans hinside)
        cases hscope
        rw [hname]
        exact List.mem_append_left _ List.mem_cons_self

section Progress

variable {n₀ : Nesting} {after : List Call} (hopening : n₀.Opening tables)
  (hreferenced : Referenced tables tree) (hpasses : Passes 0 n₀ before n)
  (hbefore : ∀ call ∈ before, call.OfTree)
include hopening hreferenced hpasses hbefore

/-- A call that opens and closes no scope is accepted where it stands. -/
private theorem accepted_single (hsplit : tree = before ++ call :: after)
    (hcall : call.isSingle = true) :
    ∃ m, Accepted (before.countP Call.isGradient) n call m := by
  obtain ⟨hphase, himages, hstrings, hlists⟩ := (hopening.reads.passes hbefore hpasses).counts
  have hwithin := hreferenced.within before call after hsplit
  cases call with
  | gradient g =>
    exact ⟨_, .gradient g hphase (hlists ▸ hwithin.floatLists _ List.mem_cons_self)⟩
  | clip c => exact ⟨_, .clip c hphase⟩
  | shape s =>
    exact ⟨_, .shape s hphase ⟨hwithin.gradients, fun id hid =>
      hlists ▸ hwithin.floatLists id (Option.mem_toList.mpr hid)⟩⟩
  | image leaf =>
    exact ⟨_, .image leaf hphase (himages ▸ hwithin.images _ List.mem_cons_self)⟩
  | text leaf =>
    refine ⟨_, .text leaf hphase ⟨hwithin.gradients, fun id hid =>
      hlists ▸ hwithin.floatLists id (Option.mem_toList.mpr hid)⟩
      (hstrings ▸ hwithin.strings _ List.mem_cons_self) fun id hid => ?_⟩
    exact hstrings ▸
      hwithin.strings id (List.mem_cons_of_mem _ (Option.mem_toList.mpr hid))
  | use ref =>
    have hexported := hpasses.mem_exported (hreferenced.closed before ref after hsplit)
    refine ⟨_, .use ref hphase ⟨?_, isOpen_eq_false.mpr fun hopen => ?_, hexported⟩⟩
    · exact hstrings ▸ hwithin.strings _ List.mem_cons_self
    -- the name of a closed group is not that of an open one
    · exact (List.nodup_append.mp (hpasses.sound hopening.sound).distinct).2.2 _ hopen _
        hexported rfl
  | _ => cases hcall

/-- A group begins where it stands: its name is not taken. -/
private theorem accepted_group {attrs : GroupAttrs}
    (hsplit : tree = before ++ .beginGroup attrs :: after) :
    ∃ m, Accepted (before.countP Call.isGradient) n (.beginGroup attrs) m := by
  obtain ⟨hphase, -, hstrings, -⟩ := (hopening.reads.passes hbefore hpasses).counts
  refine ⟨_, .beginGroup attrs hphase fun id hid => ?_⟩
  have hfree : id ∉ n.openNames ++ n.exported := by
    rw [(hopening.names_perm hpasses).mem_iff]
    intro hmem
    have hdistinct := hreferenced.distinct
    rw [hsplit, exportIds_append, exportIds_cons] at hdistinct
    exact (List.nodup_append.mp hdistinct).2.2 id hmem id
      (List.mem_append_left _ (Option.mem_toList.mpr hid)) rfl
  rw [List.mem_append, not_or] at hfree
  refine ⟨?_, hfree.2, isOpen_eq_false.mpr hfree.1⟩
  rw [hstrings]
  exact (hreferenced.within before _ after hsplit).strings id (Option.mem_toList.mpr hid)

end Progress

/-- A part of a tree whose references hold passes where it stands. -/
private theorem passes_of_derives {n₀ : Nesting} (hopening : n₀.Opening tables)
    (hreferenced : Referenced tables tree) (htree : ∀ call ∈ tree, call.OfTree)
    (hcalls : Derives calls) {after : List Call} (hsplit : tree = before ++ (calls ++ after))
    (hpasses : Passes 0 n₀ before n) :
    ∃ m, Passes 0 n₀ (before ++ calls) m ∧ m.scopes = n.scopes := by
  have hbefore {first rest : List Call} (hsplit : tree = first ++ rest) :
      ∀ call ∈ first, call.OfTree :=
    fun c hc => htree c (hsplit ▸ List.mem_append_left rest hc)
  have hstep {first : List Call} {call : Call} {k l : Nesting} (hpasses : Passes 0 n₀ first k)
      (haccept : Accepted (first.countP Call.isGradient) k call l) :
      Passes 0 n₀ (first ++ [call]) l :=
    hpasses.append (.cons (by rwa [Nat.zero_add]) (.nil _ _))
  induction hcalls generalizing before n after with
  | nil => exact ⟨n, by rwa [List.append_nil], rfl⟩
  | @single call rest hcall _ ih =>
    obtain ⟨l, haccept⟩ :=
      accepted_single hopening hreferenced hpasses (hbefore hsplit) hsplit hcall
    have hlater : tree = before ++ [call] ++ (rest ++ after) := by simp [hsplit]
    obtain ⟨m, hrest, hscopes⟩ := ih hlater (hstep hpasses haccept)
    exact ⟨m, by simpa using hrest, hscopes.trans (haccept.scopes_eq hcall)⟩
  | @group attrs body rest _ _ ihbody ihrest =>
    obtain ⟨l, haccept⟩ := accepted_group hopening hreferenced hpasses (hbefore hsplit) hsplit
    have hbody : tree = before ++ [.beginGroup attrs] ++ (body ++ .endGroup :: (rest ++ after)) := by
      simp [hsplit]
    have hlater : tree =
        before ++ [.beginGroup attrs] ++ body ++ [.endGroup] ++ (rest ++ after) := by simp [hsplit]
    obtain ⟨k, hinner, hinside⟩ := ihbody hbody (hstep hpasses haccept)
    cases haccept
    obtain ⟨m, hrest, hscopes⟩ :=
      ihrest hlater (hstep hinner (.endGroup attrs.exportId n.scopes hinside))
    exact ⟨m, by simpa using hrest, hscopes⟩
  | @mask mask content rest _ _ _ ihmask ihcontent ihrest =>
    have hphase := (hopening.reads.passes (hbefore hsplit) hpasses).counts.phase
    have hmask : tree = before ++ [.beginMask] ++
        (mask ++ .maskContent :: (content ++ .endMask :: (rest ++ after))) := by simp [hsplit]
    have hcontent : tree = before ++ [.beginMask] ++ mask ++ [.maskContent] ++
        (content ++ .endMask :: (rest ++ after)) := by simp [hsplit]
    have hlater : tree = before ++ [.beginMask] ++ mask ++ [.maskContent] ++ content ++
        [.endMask] ++ (rest ++ after) := by simp [hsplit]
    obtain ⟨k, hfirst, hinside⟩ := ihmask hmask (hstep hpasses (.beginMask hphase))
    obtain ⟨l, hsecond, hwithin⟩ :=
      ihcontent hcontent (hstep hfirst (.maskContent n.scopes hinside))
    obtain ⟨m, hrest, hscopes⟩ := ihrest hlater (hstep hsecond (.endMask n.scopes hwithin))
    exact ⟨m, by simpa using hrest, hscopes⟩

/-! Whole streams. -/

/-- A stream that passes begins with the tables, then the document if there is one. -/
private theorem Passes.heading (h : Passes 0 .start calls m) (hphase : m.phase ≠ .fresh) :
    ∃ (tables : Tables) (declared : Option Document) (tree : List Call) (n : Nesting),
      calls = .init tables :: (declared.toList.map Call.document ++ tree) ∧ n.Opening tables ∧
        Passes 0 n tree m ∧ ∀ call ∈ tree, call.OfTree := by
  have htree {k m : Nesting} {gradients : Nat} {calls : List Call}
      (h : Passes gradients k calls m) (hphase : k.phase = .tree) :
      ∀ call ∈ calls, call.OfTree := by
    induction h with
    | nil => exact List.forall_mem_nil _
    | cons haccept _ ih =>
      obtain ⟨hcall, hafter⟩ := haccept.of_tree hphase
      exact List.forall_mem_cons.mpr ⟨hcall, ih hafter⟩
  cases h with
  | nil => exact absurd rfl hphase
  | cons hinit hrest =>
    obtain ⟨tables, rfl, rfl⟩ := hinit.of_start
    have hopening := opening_initialized tables
    cases hrest with
    | nil => exact ⟨tables, none, [], _, rfl, hopening, .nil _ _, List.forall_mem_nil _⟩
    | @cons _ _ l _ call rest hsecond hlater =>
      obtain ⟨⟨d, rfl⟩ | hcall, hafter⟩ := hsecond.of_initialized rfl rfl
      · cases hsecond
        exact ⟨tables, some d, rest, _, rfl, hopening.enter, hlater, htree hlater hafter⟩
      · exact ⟨tables, none, call :: rest, _, rfl, hopening, .cons hsecond hlater,
          List.forall_mem_cons.mpr ⟨hcall, htree hlater hafter⟩⟩

/-- The tables, and the document if there is one, are accepted at the start. -/
private theorem passes_heading (tables : Tables) (declared : Option Document) :
    ∃ n, Passes 0 .start (.init tables :: declared.toList.map Call.document) n ∧
      n.Opening tables := by
  have hopening := opening_initialized tables
  have hinit : Accepted 0 .start (.init tables) _ := .init tables rfl
  cases declared with
  | none => exact ⟨_, .cons hinit (.nil _ _), hopening⟩
  | some d => exact ⟨_, .cons hinit (.cons (.document d rfl) (.nil _ _)), hopening.enter⟩

/-- A stream passes and closes all that it opens exactly when it follows the protocol. -/
theorem passes_iff_followsProtocol :
    (∃ m, Passes 0 .start calls m ∧ m.checkClosed = .ok ()) ↔ FollowsProtocol calls := by
  constructor
  · rintro ⟨m, hpasses, hclosed⟩
    obtain ⟨hphase, hscopes⟩ := checkClosed_eq_ok.mp hclosed
    obtain ⟨tables, declared, tree, n, rfl, hopening, htree, hcalls⟩ := hpasses.heading hphase
    exact ⟨tables, declared, tree, rfl, hopening.derives hcalls htree hscopes,
      hopening.referenced hcalls htree⟩
  · rintro ⟨tables, declared, tree, rfl, hderives, hreferenced⟩
    obtain ⟨n, hheading, hopening⟩ := passes_heading tables declared
    have hwhole : tree = [] ++ (tree ++ []) := by simp
    obtain ⟨m, htree, hscopes⟩ :=
      passes_of_derives hopening hreferenced hderives.ofTree hderives hwhole (.nil 0 n)
    have hcount : (Call.init tables :: declared.toList.map Call.document).countP
        Call.isGradient = 0 := by cases declared <;> rfl
    refine ⟨m, hheading.append ?_, checkClosed_eq_ok.mpr ⟨?_, ?_⟩⟩
    · rwa [hcount]
    · exact (hopening.reads.passes hderives.ofTree htree).counts.phase
    · rw [hscopes, hopening.scopes]

end Nesting

/-- A stream of fewer than `2 ^ 32` gradients is recorded exactly when it follows the protocol, and
what is recorded is the stream. -/
theorem Recorder.records_iff_followsProtocol {calls : List Call}
    (hgradients : calls.countP Call.isGradient < 2 ^ 32) :
    ((∃ log, Recorder.record calls = .ok log) ↔ FollowsProtocol calls) ∧
      ∀ log, Recorder.record calls = .ok log → log = calls :=
  ⟨(Recorder.record_iff (Nat.le_of_lt hgradients)).trans Nesting.passes_iff_followsProtocol,
    fun _ h => Recorder.record_eq (Nat.le_of_lt hgradients) h⟩

/-- A group in a gradient, exported from the mask half that it lies in and used in the other. -/
def maskedBadge : List Call :=
  [.init ⟨[], ["badge"], [[.zero, .one]]⟩, .document .empty,
    .gradient ⟨.linear ⟨.zero, .zero⟩ ⟨.one, .zero⟩, 0, [⟨0, 0, 0, 255⟩, ⟨255, 255, 255, 255⟩], .pad,
      none⟩,
    .beginMask, .beginGroup ⟨none, 255, some 0⟩,
    .shape ⟨.rect ⟨⟨.zero, .zero, .one, .one⟩, .zero, .zero⟩, ⟨some ⟨.gradient 0, .nonZero⟩, none⟩,
      none⟩,
    .endGroup, .maskContent, .use ⟨0, none⟩, .endMask]

/-- The stream is recorded and follows the protocol; with its mask ended twice it does neither. -/
theorem records_maskedBadge :
    (maskedBadge.countP Call.isGradient < 2 ^ 32 ∧ Recorder.record maskedBadge = .ok maskedBadge ∧
      FollowsProtocol maskedBadge) ∧
      (maskedBadge ++ [Call.endMask]).countP Call.isGradient < 2 ^ 32 ∧
        ¬ FollowsProtocol (maskedBadge ++ [Call.endMask]) := by
  have hcount : maskedBadge.countP Call.isGradient < 2 ^ 32 := by decide
  have hcount' : (maskedBadge ++ [Call.endMask]).countP Call.isGradient < 2 ^ 32 := by decide
  have hrecords : Recorder.record maskedBadge = .ok maskedBadge := rfl
  have hrefused : Recorder.record (maskedBadge ++ [Call.endMask]) =
      .error (.format .endMaskUnopened) := rfl
  refine ⟨⟨hcount, hrecords, ?_⟩, hcount', fun hfollows => ?_⟩
  · exact (Recorder.records_iff_followsProtocol hcount).1.mp ⟨_, hrecords⟩
  · obtain ⟨log, hlog⟩ := (Recorder.records_iff_followsProtocol hcount').1.mpr hfollows
    cases hrefused.symm.trans hlog

end VectorImage
