import VectorImage.Proofs.Call.Recording
import VectorImage.Proofs.Call.Streams
import VectorImage.Proofs.Compact.Encoding

/-!
Encoding keeps the stream, not only its picture. The calls that an image replays condense those it
was encoded from, their numbers rounded: every call of the tree is there, in order, with the same
attributes and with indices that stand for the same values, but for gradients that had been
defined before.
-/

set_option autoImplicit false
set_option relaxedAutoImplicit false

namespace VectorImage

open VectorImage.Compact

/-- What the indices of an encoding stand for, among the tables that it ends with. -/
def Encoder.resources (e : Encoder) (final : TableSet) : Resources where
  images := final.images.entries
  strings := final.strings.entries
  floatLists := final.floatLists.entries
  gradients := e.gradients.entries

namespace Encoder

variable {e : Encoder} {final : TableSet} {p p' : Position Encoder} {r : Resources}

/-- An encoder in the tree of a stream whose indices, numbers rounded, stand for `r`: each place
and each answer stands for the same, and every definition comes from the stream. -/
structure Ledger (final : TableSet) (p : Position Encoder) (r : Resources) : Prop where
  names : (p.session.state.renamingFrom p.ids).Within
    (.denoting r (p.session.state.resources final))
  count : p.ids.size = r.gradients.size
  defined : ∀ k ∈ p.session.state.gradients.entries, ∃ g ∈ r.gradients, ∃ d,
    r.define g = .ok d ∧ (p.session.state.resources final).define k = .ok d
  room : p.session.state.gradients.size ≤ 2 ^ 32

namespace Ledger

theorem placed (h : Ledger final p r) : p.session.state.Placed final := by
  refine ⟨fun i j hij => ?_, fun i j hij => ?_, fun i j hij => ?_⟩
  · obtain ⟨v, -, hv⟩ := h.names.images i j hij
    exact ⟨v, hv⟩
  · obtain ⟨v, -, hv⟩ := h.names.strings i j hij
    exact ⟨v, hv⟩
  · obtain ⟨v, -, hv⟩ := h.names.floatLists i j hij
    exact ⟨v, hv⟩

/-- A gradient of the stream and what it is registered under have the same definition. -/
theorem define_eq (h : Ledger final p r) {g k : Gradient}
    (hrenames : g.Renames p.session.state.renaming k) :
    ∃ d, r.define g = .ok d ∧ (p.session.state.resources final).define k = .ok d :=
  Gradient.Renames.define_eq ⟨hrenames.kind, h.names.floatLists _ _ hrenames.offsets,
    hrenames.colors, hrenames.spread, hrenames.transform⟩

/-- Indices that are related still stand for the same when more gradients are defined. -/
private theorem names_after {ρ : Renaming} {s t : Resources} {g : Gradient}
    (h : ρ.Within (.denoting r s)) (hs : t = { s with gradients := t.gradients })
    (hextends : Extends s.gradients t.gradients) :
    ρ.Within (.denoting (r.after (.gradient g)) t) := by
  have hraw {i : GradientId} {v : Gradient} (hv : r.gradient i = .ok v) :
      (r.after (.gradient g)).gradient i = .ok v := (Extends.push _ g).lookup_eq_ok hv
  have hdefine (k : Gradient) : t.define k = s.define k := by
    rw [hs]
    rfl
  rw [hs]
  refine ⟨h.images, h.strings, h.floatLists, fun i j hij => ?_⟩
  obtain ⟨v, hv, hv'⟩ := h.gradients i j hij
  obtain ⟨k, d, hk, hd, rfl⟩ := Resources.resolveSource_gradient_eq_ok.mp hv
  obtain ⟨k', d', hk', hd', heq⟩ := Resources.resolveSource_gradient_eq_ok.mp hv'
  cases heq
  refine ⟨_, Resources.resolveSource_gradient_eq_ok.mpr ⟨k, d, hraw hk, ?_, rfl⟩,
    Resources.resolveSource_gradient_eq_ok.mpr ⟨k', d, hextends.lookup_eq_ok hk', ?_, rfl⟩⟩
  · rw [Resources.define_after, hd]
  · exact hd'

/-- One more gradient of the stream, whether it has been registered before or not. -/
private theorem gradient (h : Ledger final p r) {g k : Gradient} {id : GradientId}
    {e' : Encoder} {m : Nesting} (hrenaming : e'.renaming = p.session.state.renaming)
    (hrenames : g.Renames p.session.state.renaming k)
    (hextends : Extends p.session.state.gradients.entries e'.gradients.entries)
    (hentry : e'.gradients.entries[id.toNat]? = some k)
    (hnew : ∀ k' ∈ e'.gradients.entries, k' ∈ p.session.state.gradients.entries ∨ k' = k)
    (hroom : e'.gradients.size ≤ 2 ^ 32) :
    Ledger final ⟨p.ids.push id, ⟨m, e'⟩⟩ (r.after (.gradient g)) := by
  obtain ⟨d, hd, hd'⟩ := h.define_eq hrenames
  have hnames := names_after (g := g) (t := e'.resources final) h.names rfl hextends
  refine ⟨⟨?_, ?_, ?_, ?_⟩, ?_, ?_, hroom⟩
  · rw [renamingFrom, hrenaming]
    exact hnames.images
  · rw [renamingFrom, hrenaming]
    exact hnames.strings
  · rw [renamingFrom, hrenaming]
    exact hnames.floatLists
  · intro i j hij
    have hid := lookup_eq_ok_iff.mp hij
    rw [Array.getElem?_push] at hid
    split at hid
    · next hi =>
      cases hid
      refine ⟨.gradient d, Resources.resolveSource_gradient_eq_ok.mpr ⟨g, d, ?_, ?_, rfl⟩,
        Resources.resolveSource_gradient_eq_ok.mpr ⟨k, d, lookup_eq_ok_iff.mpr hentry, hd', rfl⟩⟩
      · refine lookup_eq_ok_iff.mpr ?_
        show (r.gradients.push g)[i.toNat]? = some g
        rw [hi, h.count, Array.getElem?_push_size]
      · rw [Resources.define_after, hd]
    · exact hnames.gradients i j (lookup_eq_ok_iff.mpr hid)
  · show (p.ids.push id).size = (r.gradients.push g).size
    rw [Array.size_push, Array.size_push, h.count]
  · intro k' hk'
    rcases hnew k' hk' with hold | rfl
    · obtain ⟨g', hg', d', hdefine, hdefine'⟩ := h.defined k' hold
      refine ⟨g', Array.mem_push_of_mem g hg', d', ?_, hdefine'⟩
      rw [Resources.define_after, hdefine]
    · refine ⟨g, Array.mem_push_self, d, ?_, hd'⟩
      rw [Resources.define_after, hd]

/-- A call that interns and writes, but registers nothing. -/
private theorem same (h : Ledger final p r) {e' : Encoder}
    (hinterned : p.session.state.Interned e') (m : Nesting) (ops : Array UInt8) :
    Ledger final ⟨p.ids, ⟨m, { e' with ops := ops }⟩⟩ r := by
  have hresources : e'.resources final = p.session.state.resources final := by
    rw [hinterned.same]
    rfl
  have hgradients : e'.gradients = p.session.state.gradients := by rw [hinterned.same]
  refine ⟨?_, h.count, ?_, ?_⟩
  · show (renamingFrom e' p.ids).Within (.denoting r (e'.resources final))
    rw [renamingFrom, hinterned.renaming, hresources]
    exact h.names
  · show ∀ k ∈ e'.gradients.entries, ∃ g ∈ r.gradients, ∃ d,
      r.define g = .ok d ∧ (e'.resources final).define k = .ok d
    rw [hgradients, hresources]
    exact h.defined
  · show e'.gradients.size ≤ 2 ^ 32
    rw [hgradients]
    exact h.room

end Ledger

/-- What an encoder writes for calls of the tree reads back as calls that condense them, their
numbers rounded. -/
structure Says (final : TableSet) (width : FloatWidth) (r : Resources) (p : Position Encoder)
    (calls : List Call) (p' : Position Encoder) (said : List Call) : Prop where
  reads : ∃ bytes, p'.session.state.ops.toList = p.session.state.ops.toList ++ bytes ∧
    ReadsCalls final bytes said
  condenses : Condenses r (calls.map (Call.round width)) (p.session.state.resources final) said
  resources : p'.session.state.resources final =
    said.foldl Resources.after (p.session.state.resources final)
  document : p'.session.state.document = p.session.state.document
  ledger : Ledger final p' ((calls.map (Call.round width)).foldl Resources.after r)
  width : p'.session.state.width = width

theorem Says.append {width : FloatWidth} {q : Position Encoder} {calls said rest more : List Call}
    (h : Says final width r p calls q said)
    (hrest : Says final width ((calls.map (Call.round width)).foldl Resources.after r) q rest p'
      more) : Says final width r p (calls ++ rest) p' (said ++ more) := by
  obtain ⟨bytes, hops, hreads⟩ := h.reads
  obtain ⟨bytes', hops', hreads'⟩ := hrest.reads
  have hcondenses := hrest.condenses
  have hledger := hrest.ledger
  rw [h.resources] at hcondenses
  rw [← List.foldl_append, ← List.map_append] at hledger
  refine ⟨⟨bytes ++ bytes', ?_, hreads.append hreads'⟩, ?_, ?_,
    hrest.document.trans h.document, hledger, hrest.width⟩
  · rw [hops', hops, List.append_assoc]
  · rw [List.map_append]
    exact h.condenses.append hcondenses
  · rw [hrest.resources, h.resources, List.foldl_append]

/-- A gradient that is registered already is not said again. -/
private theorem says_registered (h : Ledger final p r) {g : Gradient} {e' : Encoder}
    {offsets : UInt32} {i : Nat} {m : Nesting} (hinterned : p.session.state.Interned e')
    (hoffsets : lookup p.session.state.floatLists .floatList g.offsets = .ok offsets)
    (hfound : p.session.state.gradients.find? (p.session.state.canonical g offsets) = some i) :
    Says final p.session.state.width r p [.gradient g]
      ⟨p.ids.push (UInt32.ofNat i), ⟨m, e'⟩⟩ [] := by
  have hrenames := renames_canonical hoffsets
  have hgradients : e'.gradients = p.session.state.gradients := by rw [hinterned.same]
  have hentry := CanonicalTable.find?_entry hfound
  obtain ⟨hlt, -⟩ := Array.getElem?_eq_some_iff.mp hentry
  obtain ⟨d, hd, hd'⟩ := h.define_eq hrenames
  obtain ⟨k, hk, d', hk', hd''⟩ := h.defined _ (Array.mem_of_getElem? hentry)
  cases hd'.symm.trans hd''
  refine ⟨⟨[], ?_, .nil⟩, .single (.defined hk hd hk'), ?_, ?_, ?_, hinterned.width⟩
  · rw [hinterned.same, List.append_nil]
  · rw [hinterned.same]
    rfl
  · rw [hinterned.same]
  · refine h.gradient hinterned.renaming hrenames ?_ ?_ ?_ ?_
    · rw [hgradients]
      exact .refl _
    · rw [hgradients, toNat_ofNat_of_lt (Nat.lt_of_lt_of_le hlt h.room)]
      exact hentry
    · rw [hgradients]
      exact fun k' hk' => Or.inl hk'
    · rw [hgradients]
      exact h.room

/-- A gradient that is new is said under its new indices. -/
private theorem says_gradient (h : Ledger final p r) {g : Gradient} {e₁ : Encoder}
    {offsets : UInt32} {bytes : Bytes} {m : Nesting}
    (hinterned : p.session.state.Interned e₁)
    (hoffsets : lookup p.session.state.floatLists .floatList g.offsets = .ok offsets)
    (hlt : p.session.state.gradients.size < 2 ^ 32)
    (hwrites : p.session.state.Writes final (.gradient g) bytes) :
    Says final p.session.state.width r p [.gradient g]
      ⟨p.ids.push (UInt32.ofNat p.session.state.gradients.size), ⟨m, { e₁ with
        gradients := p.session.state.gradients.push (p.session.state.canonical g offsets)
        ops := p.session.state.ops ++ bytes }⟩⟩
      [.gradient (p.session.state.canonical g offsets)] := by
  have hrenames := renames_canonical hoffsets
  have hread := hwrites.readsGradient h.placed hoffsets
  have hpush := CanonicalTable.entries_push p.session.state.gradients
    (p.session.state.canonical g offsets)
  have hsaid : (g.round p.session.state.width).Renames
      (.denoting r (p.session.state.resources final))
      (p.session.state.canonical g offsets) :=
    ⟨hrenames.kind, h.names.floatLists _ _ hrenames.offsets, hrenames.colors,
      hrenames.spread, hrenames.transform⟩
  refine ⟨⟨bytes, Array.toList_appendList, .single hread⟩,
    .single (.same (.gradient hsaid)), ?_, ?_, ?_, hinterned.width⟩
  · rw [Encoder.resources, hpush]
    rfl
  · show e₁.document = _
    rw [hinterned.same]
  · refine h.gradient hinterned.renaming hrenames (CanonicalTable.extends_push _ _) ?_ ?_ ?_
    · rw [toNat_ofNat_of_lt hlt, hpush]
      exact Array.getElem?_push_size
    · intro k' hk'
      rw [hpush] at hk'
      exact Array.mem_push.mp hk'
    · rw [CanonicalTable.size_push]
      exact hlt

/-- Another call of the tree is said under its new indices. -/
private theorem says_write (h : Ledger final p r) {call renamed : Call} {e₁ : Encoder}
    {bytes : Bytes} {m : Nesting}
    (hmap : call.mapGradients (lookup p.ids .gradient) = .ok renamed)
    (hne : ∀ g, renamed ≠ .gradient g) (hinterned : p.session.state.Interned e₁)
    (hwrites : p.session.state.Writes final renamed bytes) :
    ∃ said, Says final p.session.state.width r p [call]
      ⟨p.ids, ⟨m, { e₁ with ops := p.session.state.ops ++ bytes }⟩⟩ said := by
  obtain ⟨call', hread, hrenames⟩ := hwrites.readsCall h.placed
  have hother := Call.isGradient_eq_false.mpr hne
  have hcall : (call.round p.session.state.width).isGradient = false := by
    rw [Call.isGradient_round, ← Call.isGradient_mapGradients hmap, hother]
  have hsaid : call'.isGradient = false := by
    rw [← hrenames.isGradient, Call.isGradient_round, hother]
  have hresources : e₁.resources final = p.session.state.resources final := by
    rw [hinterned.same]
    rfl
  refine ⟨[call'], ⟨bytes, Array.toList_appendList, .single hread⟩,
    .single (.same (h.names.call (hrenames.after hmap rfl))), ?_, ?_, ?_, hinterned.width⟩
  · rw [List.foldl_cons, List.foldl_nil, Resources.after_of_other hsaid]
    exact hresources
  · show e₁.document = _
    rw [hinterned.same]
  · rw [List.map_cons, List.map_nil, List.foldl_cons, List.foldl_nil,
      Resources.after_of_other hcall]
    exact h.same hinterned m _

/-- A call of the tree. -/
private theorem says_step (h : Ledger final p r) {call : Call} (htree : call.OfTree)
    (hstep : Goes final p call p') : ∃ said, Says final p.session.state.width r p [call] p' said := by
  cases hstep with
  | @step renamed m e' reply hmap haccept hputs =>
    cases hputs with
    | init =>
      obtain rfl := Call.eq_of_mapGradients_ne hmap (fun _ h => nomatch h) (fun _ h => nomatch h)
      cases htree
    | document d =>
      obtain rfl := Call.eq_of_mapGradients_ne hmap (fun _ h => nomatch h) (fun _ h => nomatch h)
      cases htree
    | registered hinterned hoffsets hfound =>
      obtain rfl := Call.eq_of_mapGradients_ne hmap (fun _ h => nomatch h) (fun _ h => nomatch h)
      exact ⟨_, says_registered h hinterned hoffsets hfound⟩
    | gradient hinterned hoffsets _ hlt hwrites =>
      obtain rfl := Call.eq_of_mapGradients_ne hmap (fun _ h => nomatch h) (fun _ h => nomatch h)
      exact ⟨_, says_gradient h hinterned hoffsets hlt hwrites⟩
    | write hne hinterned hwrites => exact says_write h hmap hne hinterned hwrites

/-- The calls of a tree. -/
theorem says_trail {calls : List Call} (h : Trail final p calls p')
    (htree : ∀ call ∈ calls, call.OfTree) (hledger : Ledger final p r) :
    ∃ said, Says final p.session.state.width r p calls p' said := by
  induction h generalizing r with
  | nil p =>
    exact ⟨[], ⟨[], (List.append_nil _).symm, .nil⟩, .nil _ _, rfl, rfl, hledger, rfl⟩
  | @cons p q p' call rest hstep hrest ih =>
    obtain ⟨hcall, hlater⟩ := List.forall_mem_cons.mp htree
    obtain ⟨said, hsaid⟩ := says_step hledger hcall hstep
    obtain ⟨more, hmore⟩ := ih hlater hsaid.ledger
    rw [hsaid.width] at hmore
    exact ⟨said ++ more, hsaid.append hmore⟩

/-- The tables, given to an encoder that has its own. -/
theorem ledger_init {width : FloatWidth} {interner : Interner} {tables : Tables}
    (hstep : Goes final (.start (.start width interner)) (.init tables) p') :
    Ledger final p' (.ofTables (tables.round width)) ∧
      p'.session.state = { Encoder.start width interner with
        interner := p'.session.state.interner
        images := p'.session.state.images
        strings := p'.session.state.strings
        floatLists := p'.session.state.floatLists } := by
  cases hstep with
  | @step renamed m e' reply hmap haccept hputs =>
    cases hmap
    cases hputs with
    | write hne hinterned hwrites =>
      obtain ⟨_, hcodes, -⟩ := hwrites
      cases hcodes
    | init hsame hplaced =>
      have hgradients : e'.gradients = .empty := by
        rw [hsame]
        rfl
      have hlists := hplaced.floatLists
      rw [show e'.width = width by rw [hsame]; rfl] at hlists
      refine ⟨⟨⟨?_, ?_, ?_, ?_⟩, rfl, ?_, ?_⟩, hsame⟩
      · intro i j hij
        obtain ⟨v, hv, hentry⟩ := lookup_place hplaced.images hij
        exact ⟨v, lookup_eq_ok_iff.mpr hv, hentry⟩
      · intro i j hij
        obtain ⟨v, hv, hentry⟩ := lookup_place hplaced.strings hij
        exact ⟨v, lookup_eq_ok_iff.mpr hv, hentry⟩
      · intro i j hij
        obtain ⟨v, hv, hentry⟩ := lookup_place hlists hij
        exact ⟨v, lookup_eq_ok_iff.mpr hv, hentry⟩
      · intro i j hij
        have hnone := lookup_eq_ok_iff.mp hij
        cases hnone
      · intro k hk
        have hnone : k ∈ (#[] : Array Gradient) := by
          rw [hgradients] at hk
          exact hk
        simp at hnone
      · show e'.gradients.size ≤ 2 ^ 32
        rw [hgradients]
        exact Nat.zero_le _

/-- The document, if there is one. -/
theorem ledger_document {declared : Option Document} (h : Ledger final p r)
    (htrail : Trail final p (declared.toList.map Call.document) p') :
    Ledger final p' r ∧ p'.session.state = { p.session.state with
      document := declared.getD p.session.state.document } := by
  cases declared with
  | none =>
    cases htrail
    exact ⟨h, rfl⟩
  | some d =>
    cases htrail with
    | cons hstep hnil =>
      cases hnil
      cases hstep with
      | step hmap haccept hputs =>
        cases hmap
        cases hputs with
        | write hne hinterned hwrites =>
          obtain ⟨_, hcodes, -⟩ := hwrites
          cases hcodes
        | document => exact ⟨⟨h.names, h.count, h.defined, h.room⟩, rfl⟩

/-- The tables of an encoder that has registered no gradient, in those it will end with. -/
private theorem resources_of_tables (h : e.gradients = .empty) :
    e.resources final = .ofTables final.tables := by
  rw [Encoder.resources, h]
  simp [Resources.ofTables, TableSet.tables, CanonicalTable.empty]

/-- What an encoder writes for a stream reads back as calls that condense its tree, its numbers
rounded; in between stands the ledger that its tree ends with. -/
theorem condenses_of_trail {width : FloatWidth} {interner : Interner} {tables : Tables}
    {declared : Option Document} {tree : List Call}
    (h : Trail final (.start (.start width interner))
      (.init tables :: (declared.toList.map Call.document ++ tree)) p)
    (htree : ∀ call ∈ tree, call.OfTree) :
    ∃ said, p.session.state.document = declared.getD .empty ∧
      ReadsCalls final p.session.state.ops.toList said ∧
      Condenses (.ofTables (tables.round width)) (tree.map (Call.round width))
        (.ofTables final.tables) said ∧
      said.countP Call.isGradient ≤ 2 ^ 32 := by
  -- the tables, the document and the tree, one after the other
  cases h with
  | @cons _ p₁ _ _ _ hinit hrest =>
    obtain ⟨p₂, hsecond, hthird⟩ := hrest.split
    obtain ⟨hledger₁, hstate₁⟩ := ledger_init hinit
    obtain ⟨hledger₂, hstate₂⟩ := ledger_document hledger₁ hsecond
    obtain ⟨said, hsaid⟩ := says_trail hthird htree hledger₂
    have hstart : p₂.session.state = { Encoder.start width interner with
        interner := p₁.session.state.interner
        images := p₁.session.state.images
        strings := p₁.session.state.strings
        floatLists := p₁.session.state.floatLists
        document := declared.getD .empty } := by
      rw [hstate₂, hstate₁]
      rfl
    have hresources : p₂.session.state.resources final = .ofTables final.tables :=
      resources_of_tables (by rw [hstart]; rfl)
    have hcondenses := hsaid.condenses
    rw [show p₂.session.state.width = width by rw [hstart]; rfl, hresources] at hcondenses
    obtain ⟨bytes, hbytes, hreads⟩ := hsaid.reads
    rw [show p₂.session.state.ops.toList = [] by rw [hstart]; rfl, List.nil_append] at hbytes
    have hroom := hsaid.ledger.room
    rw [show p.session.state.gradients.size =
      (p.session.state.resources final).gradients.size from rfl, hsaid.resources,
      Resources.gradients_size_after, hresources] at hroom
    refine ⟨said, ?_, hbytes ▸ hreads, hcondenses, ?_⟩
    · rw [hsaid.document, hstart]
    · omega

/-- What a run of an encoder writes for a stream reads back as calls that condense its tree. -/
theorem condenses_of_runs {width : FloatWidth} {interner : Interner} {calls : List Call}
    (h : Encoder.backend.Runs (.start (.start width interner)) calls p)
    (hphase : p.session.nesting.phase ≠ .fresh) (hfinal : p.session.state.Reaches final) :
    ∃ (tables : Tables) (declared : Option Document) (tree said : List Call),
      calls = .init tables :: (declared.toList.map Call.document ++ tree) ∧
        (∀ call ∈ tree, call.OfTree) ∧
        p.session.state.document = declared.getD .empty ∧
        ReadsCalls final p.session.state.ops.toList said ∧
        Condenses (.ofTables (tables.round width)) (tree.map (Call.round width))
          (.ofTables final.tables) said ∧
        said.countP Call.isGradient ≤ 2 ^ 32 := by
  obtain ⟨tables, declared, tree, rfl, htree⟩ := h.of_start hphase
  obtain ⟨said, hsaid⟩ := condenses_of_trail (trail_of_runs h placed_start hfinal) htree
  exact ⟨tables, declared, tree, said, rfl, htree, hsaid⟩

end Encoder

end VectorImage
