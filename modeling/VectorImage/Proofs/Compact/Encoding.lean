import VectorImage.Proofs.Compact.Tracing
import VectorImage.Proofs.Compact.Trail
import VectorImage.Proofs.Drawing.Echo

/-!
A run of an encoder beside two sketches: one of the stream itself, its numbers rounded, and one of
the calls that the encoder's bytes read back as. Step by step the sketches echo each other.
-/

set_option autoImplicit false
set_option relaxedAutoImplicit false

namespace VectorImage

namespace Compact

variable {t : TableSet}

/-- Bytes that read as calls, one after the other. -/
inductive ReadsCalls (t : TableSet) : Bytes → List Call → Prop
  | nil : ReadsCalls t [] []
  | cons {bytes rest : Bytes} {call : Call} {calls : List Call} (hcall : ReadsCall t bytes call)
      (hrest : ReadsCalls t rest calls) : ReadsCalls t (bytes ++ rest) (call :: calls)

theorem ReadsCalls.single {bytes : Bytes} {call : Call} (h : ReadsCall t bytes call) :
    ReadsCalls t bytes [call] := by
  have hcons := ReadsCalls.cons h .nil
  rwa [List.append_nil] at hcons

theorem ReadsCalls.append {first rest : Bytes} {calls calls' : List Call}
    (h : ReadsCalls t first calls) (hrest : ReadsCalls t rest calls') :
    ReadsCalls t (first ++ rest) (calls ++ calls') := by
  induction h with
  | nil => exact hrest
  | cons hcall _ ih =>
    rw [List.append_assoc]
    exact .cons hcall ih

theorem ReadsCalls.decodes {bytes : Bytes} {calls : List Call} (h : ReadsCalls t bytes calls)
    (offset : Nat) : ∃ es, Decodes t ⟨offset, bytes⟩ es ∧ es.map Entry.call = calls := by
  induction h generalizing offset with
  | nil => exact ⟨[], .nil rfl, rfl⟩
  | @cons bytes rest call calls hcall _ ih =>
    obtain ⟨es, hdecodes, hcalls⟩ := ih (offset + bytes.length)
    exact ⟨⟨offset, call⟩ :: es, .cons (hcall offset rest) hdecodes, congrArg (call :: ·) hcalls⟩

end Compact

open VectorImage.Compact in
/-- The instructions of an image read back in one way. -/
theorem CompactImage.entries_of_reads {c : CompactImage} {ops : Bytes} {said : List Call}
    (hops : c.ops = ops) (hreads : ReadsCalls c.tables.value ops said) :
    c.contents.entries.map Entry.call = said := by
  obtain ⟨es, hdecodes, rfl⟩ := hreads.decodes 0
  rw [← hops] at hdecodes
  rw [(read_of_scan c.valid).decodes.unique hdecodes]

namespace Encoder

open VectorImage.Compact

variable {e e' : Encoder} {final : TableSet}

/-- An image has the tables of the encoder that finished it. -/
theorem reaches_of_complete {c : CompactImage} (h : e.complete = .ok c)
    (hindexable : c.tables.value.Indexable) : e.Reaches c.tables.value := by
  obtain ⟨-, -, htables, -⟩ := CompactImage.ofParts_eq_ok h
  rw [htables] at hindexable ⊢
  exact ⟨.refl _, hindexable⟩

/-- How a stream's indices correspond to those that its encoding has: entries of the tables by
their places, gradients by the answers of the encoder. -/
def renamingFrom (e : Encoder) (ids : Array GradientId) : Renaming :=
  e.renaming.withGradients (lookup ids .gradient)

/-- An encoder and the two sketches beside it, of the rounded stream and of the calls that its
bytes read back as, among the tables that it ends with. -/
structure Encoded (final : TableSet) (p : Position Encoder) (q q' : Position Sketch) : Prop where
  raw : Sketch.Current q
  compact : Sketch.Current q'
  nesting : q.session.nesting = p.session.nesting
  count : q.ids.size = p.ids.size
  document : q.session.state.document = p.session.state.document
  resources : q'.session.state.resources =
    ⟨final.images.entries, final.strings.entries, final.floatLists.entries,
      p.session.state.gradients.entries⟩
  room : p.session.state.gradients.size ≤ 2 ^ 32
  echoes : Sketch.Echoes (p.session.state.renamingFrom p.ids) q.session.state q'.session.state

variable {p p' : Position Encoder} {q q' : Position Sketch}

private theorem Encoded.gradients_eq (h : Encoded final p q q') :
    q'.session.state.resources.gradients = p.session.state.gradients.entries :=
  congrArg Resources.gradients h.resources

/-- The sketch of the rounded stream takes the call that the encoder takes. -/
private theorem Encoded.advances (h : Encoded final p q q') (call : Call) {renamed : Call}
    {m : Nesting}
    (hmap : call.mapGradients (lookup p.ids .gradient) = .ok renamed) {gradients : Nat}
    (haccept : Nesting.Accepted gradients p.session.nesting renamed m)
    (hroom : ∀ g, call = .gradient g → p.ids.size < 2 ^ 32) (width : FloatWidth) :
    ∃ t reply, q.session.state.perform (call.round width) = .ok (t, reply) ∧
      Sketch.backend.Advances q (call.round width) ⟨reply.known q.ids, ⟨m, t⟩⟩ ∧
      Sketch.Current ⟨reply.known q.ids, ⟨m, t⟩⟩ := by
  have hraw : Nesting.Accepted q.ids.size q.session.nesting (call.round width) m := by
    rw [h.nesting, h.count]
    refine Nesting.Accepted.round (haccept.of_mapGradients hmap fun i j hij => ?_)
    obtain ⟨hlt, -⟩ := Array.getElem?_eq_some_iff.mp (lookup_eq_ok_iff.mp hij)
    exact hlt
  obtain ⟨t, reply, hperform, hstep⟩ := h.raw.advances hraw fun g hg => by
    have hgradient : call.isGradient = true := by
      rw [← call.isGradient_round width, hg]
      rfl
    obtain ⟨g', hg'⟩ := Call.isGradient_eq_true.mp hgradient
    exact h.count ▸ hroom g' hg'
  obtain ⟨-, -, -, -, hcurrent⟩ := h.raw.of_advances hstep
  exact ⟨t, reply, hperform, hstep, hcurrent⟩

/-- A call that is written and registers no gradient. -/
private theorem Encoded.write (h : Encoded final p q q') {call renamed call' : Call} {m : Nesting}
    (hmap : call.mapGradients (lookup p.ids .gradient) = .ok renamed) {gradients : Nat}
    (haccept : Nesting.Accepted gradients p.session.nesting renamed m)
    (hne : ∀ g, renamed ≠ .gradient g) (hinterned : p.session.state.Interned e')
    (ops : Array UInt8) {width : FloatWidth}
    (hrenames : (renamed.round width).Renames p.session.state.renaming call') {r' : Position Sketch}
    (hruns : Sketch.backend.Runs q' [call'] r') :
    ∃ r, Sketch.backend.Advances q (call.round width) r ∧
      Encoded final ⟨p.ids, ⟨m, { e' with ops := ops }⟩⟩ r r' := by
  have hfalse := Call.isGradient_eq_false.mpr hne
  rw [Call.isGradient_mapGradients hmap] at hfalse
  have hrounded : (call.round width).isGradient = false := by
    rw [Call.isGradient_round, hfalse]
  have hechoing := hrenames.after hmap rfl
  obtain ⟨t, reply, hperform, hstep, hcurrent⟩ := h.advances call hmap haccept
    (fun g hg => absurd hg (Call.isGradient_eq_false.mp hfalse g)) width
  cases hruns with
  | cons hstep' hnil =>
    cases hnil
    obtain ⟨reply', -, hperform', -, hcurrent'⟩ := h.compact.of_advances hstep'
    have hreply : reply = .done := by
      rcases Sketch.perform_gradients hperform with ⟨g, hg, -⟩ | ⟨-, hdone, -⟩
      · exact absurd hg (Call.isGradient_eq_false.mp hrounded g)
      · exact hdone
    have hkept : r'.session.state.resources.gradients = q'.session.state.resources.gradients := by
      rcases Sketch.perform_gradients hperform' with ⟨g, hg, -⟩ | ⟨-, -, hsame⟩
      · rw [hechoing.isGradient, hg] at hrounded
        cases hrounded
      · exact hsame
    obtain ⟨hdocument, -⟩ := Sketch.perform_resources hechoing.ofTree.1 hperform
    obtain ⟨-, hresources'⟩ := Sketch.perform_resources hechoing.ofTree.2 hperform'
    have hdistinct : (q'.session.state.exports.map Prod.fst).Nodup := by
      rw [h.compact.follows.exported]
      exact (List.nodup_append.mp h.compact.sound.distinct).2.1
    have hechoes := h.echoes.perform hdistinct (fun i j k hij hik =>
      Except.ok.inj (hij.symm.trans hik)) (Call.isGradient_eq_false.mp hrounded) hechoing
      hperform hperform'
    subst hreply
    refine ⟨_, hstep, hcurrent, hcurrent', rfl, h.count, ?_, ?_, ?_, ?_⟩
    · rw [hinterned.same]
      exact hdocument.trans h.document
    · rw [hresources', hkept, h.resources, hinterned.same]
    · rw [hinterned.same]
      exact h.room
    · rw [hinterned.same]
      exact hechoes

/-- One more gradient on either side, the answer of the encoder leading from one to the other. -/
private theorem matches_push {e : Encoder} {ids : Array GradientId} {r r' : Resources}
    (h : (e.renamingFrom ids).Matches r r') (hcount : ids.size = r.gradients.size)
    {gradients : Array Gradient} (hextends : Extends r'.gradients gradients) {id : GradientId}
    {g k : Gradient} (hentry : gradients[id.toNat]? = some k) (hrenames : g.Renames e.renaming k) :
    (e.renamingFrom (ids.push id)).Matches { r with gradients := r.gradients.push g }
      { r' with gradients := gradients } := by
  refine ⟨h.images, h.strings, h.floatLists, fun i j g' hij hg' => ?_⟩
  have hij := lookup_eq_ok_iff.mp hij
  have hg' := lookup_eq_ok_iff.mp hg'
  rw [Array.getElem?_push] at hij hg'
  rw [← hcount] at hg'
  split at hij
  · next hi =>
    rw [if_pos hi] at hg'
    cases hij
    cases hg'
    exact ⟨k, lookup_eq_ok_iff.mpr hentry, hrenames.kind, hrenames.offsets, hrenames.colors,
      hrenames.spread, hrenames.transform⟩
  · next hi =>
    rw [if_neg hi] at hg'
    obtain ⟨k', hk', hrenames'⟩ := h.gradients i j g' (lookup_eq_ok_iff.mpr hij)
      (lookup_eq_ok_iff.mpr hg')
    exact ⟨k', hextends.lookup_eq_ok hk', hrenames'.kind, hrenames'.offsets, hrenames'.colors,
      hrenames'.spread, hrenames'.transform⟩

/-- A gradient, whether it has been registered before or not. -/
private theorem Encoded.gradient {u : Encoder} (h : Encoded final p q q') {g : Gradient} {m : Nesting}
    {gradients : Nat} (haccept : Nesting.Accepted gradients p.session.nesting (.gradient g) m)
    (hroom : p.ids.size < 2 ^ 32) {width : FloatWidth}
    (hrenaming : u.renaming = p.session.state.renaming)
    (hdocument : u.document = p.session.state.document)
    (hextends : Extends p.session.state.gradients.entries u.gradients.entries)
    (hsize : u.gradients.size ≤ 2 ^ 32) {id : GradientId} {k : Gradient}
    (hentry : u.gradients.entries[id.toNat]? = some k)
    (hrenames : (g.round width).Renames p.session.state.renaming k) {r' : Position Sketch}
    (hcurrent' : Sketch.Current r')
    (hr' : r'.session.state = { q'.session.state with
      resources := { q'.session.state.resources with gradients := u.gradients.entries } }) :
    ∃ r, Sketch.backend.Advances q (Call.round width (.gradient g)) r ∧
      Encoded final ⟨p.ids.push id, ⟨m, u⟩⟩ r r' := by
  obtain ⟨t, reply, hperform, hstep, hcurrent⟩ := h.advances (.gradient g) rfl haccept
    (fun _ _ => hroom) width
  obtain ⟨i, -, hperform⟩ := bind_eq_ok.mp hperform
  cases hperform
  have hcount : p.ids.size = q.session.state.resources.gradients.size := by
    rw [← h.count, h.raw.count]
  rw [← h.gradients_eq] at hextends
  have hmatching := matches_push h.echoes.matching hcount hextends hentry hrenames
  have hsame : u.renamingFrom (p.ids.push id) = p.session.state.renamingFrom (p.ids.push id) :=
    congrArg (fun ρ => ρ.withGradients (lookup (p.ids.push id) .gradient)) hrenaming
  refine ⟨_, hstep, hcurrent, hcurrent', rfl, ?_, h.document.trans hdocument.symm, ?_, hsize, ?_⟩
  · show (q.ids.push i).size = (p.ids.push id).size
    rw [Array.size_push, Array.size_push, h.count]
  · rw [hr', h.resources]
  · have hstrings : (p.session.state.renamingFrom (p.ids.push id)).strings =
        (p.session.state.renamingFrom p.ids).strings := rfl
    show Sketch.Echoes (u.renamingFrom (p.ids.push id)) _ _
    rw [hsame, hr']
    exact h.echoes.retable hstrings hmatching

/-- Entries of the given tables and the entries at their places. -/
private theorem lookup_placed {α : Type} {places : Array UInt32} {kind : TableKind} {vs : List α}
    {entry : UInt32 → Except Error α}
    (h : List.Forall₂ (fun i v => entry i = .ok v) places.toList vs) (i j : UInt32) (v : α)
    (hij : lookup places kind i = .ok j) (hv : lookup vs.toArray kind i = .ok v) :
    entry j = .ok v := by
  obtain ⟨w, hw, hentry⟩ := lookup_place h hij
  cases hw.symm.trans (lookup_eq_ok_iff.mp hv)
  exact hentry

/-- The given tables. -/
private theorem Encoded.init (h : Encoded final p q q') {tables : Tables} {m : Nesting}
    {gradients : Nat} (haccept : Nesting.Accepted gradients p.session.nesting (.init tables) m)
    (hsame : e' = { p.session.state with
      interner := e'.interner
      images := e'.images
      strings := e'.strings
      floatLists := e'.floatLists })
    (hplaces : e'.Places final tables) :
    ∃ r, Sketch.backend.Advances q (Call.round p.session.state.width (.init tables)) r ∧
      Encoded final ⟨p.ids, ⟨m, e'⟩⟩ r q' := by
  obtain ⟨t, reply, hperform, hstep, hcurrent⟩ := h.advances (.init tables) rfl haccept
    (fun _ hg => nomatch hg) p.session.state.width
  cases hperform
  have hwidth : e'.width = p.session.state.width := by rw [hsame]
  have hphase : q.session.nesting.phase = .fresh := by
    rw [h.nesting]
    cases haccept
    assumption
  obtain ⟨hscopes, hexported⟩ := h.raw.sound.fresh hphase
  obtain ⟨-, hgradients⟩ := h.raw.follows.fresh hphase
  have hframes : q.session.state.frames = [] :=
    List.map_eq_nil_iff.mp (h.raw.follows.scopes.trans hscopes)
  have hexports : q.session.state.exports = [] :=
    List.map_eq_nil_iff.mp (h.raw.follows.exported.trans hexported)
  refine ⟨_, hstep, hcurrent, h.compact, rfl, h.count, ?_, ?_, ?_, ?_, h.echoes.root, ?_, ?_⟩
  · rw [hsame]
    exact h.document
  · rw [hsame]
    exact h.resources
  · rw [hsame]
    exact h.room
  · rw [h.resources]
    have hlists := hplaces.floatLists
    rw [hwidth] at hlists
    refine ⟨lookup_placed hplaces.images, lookup_placed hplaces.strings, lookup_placed hlists, ?_⟩
    intro i j g hij hg
    have hg := lookup_eq_ok_iff.mp hg
    dsimp only at hg
    rw [hgradients] at hg
    cases hg
  · have hechoes := h.echoes.frames
    rw [hframes] at hechoes
    show List.Forall₂ _ q.session.state.frames _
    rw [hframes, List.forall₂_nil_left_iff.mp hechoes]
    exact .nil
  · have hechoes := h.echoes.exports
    rw [hexports] at hechoes
    show List.Forall₂ _ q.session.state.exports _
    rw [hexports, List.forall₂_nil_left_iff.mp hechoes]
    exact .nil

private theorem Encoded.ofDocument (h : Encoded final p q q') {d : Document} {m : Nesting}
    {gradients : Nat} (haccept : Nesting.Accepted gradients p.session.nesting (.document d) m)
    (width : FloatWidth) :
    ∃ r, Sketch.backend.Advances q (Call.round width (.document d)) r ∧
      Encoded final ⟨p.ids, ⟨m, { p.session.state with document := d }⟩⟩ r q' := by
  obtain ⟨t, reply, hperform, hstep, hcurrent⟩ := h.advances (.document d) rfl haccept
    (fun _ hg => nomatch hg) width
  cases hperform
  exact ⟨_, hstep, hcurrent, h.compact, rfl, h.count, rfl, h.resources, h.room,
    h.echoes.matching, h.echoes.root, h.echoes.frames, h.echoes.exports⟩

/-- What an encoder writes for calls reads as the calls `emitted`, and sketches that stand beside
it stay beside it when the one takes the calls, rounded, and the other those emitted. -/
structure Encodes (final : TableSet) (p : Position Encoder) (calls : List Call)
    (p' : Position Encoder) (emitted : List Call) : Prop where
  reads : ∃ bytes, p'.session.state.ops.toList = p.session.state.ops.toList ++ bytes ∧
    ReadsCalls final bytes emitted
  placed : p'.session.state.Placed final
  width : p'.session.state.width = p.session.state.width
  gradients : p'.session.state.gradients.size =
    p.session.state.gradients.size + emitted.countP Call.isGradient
  room : p.session.state.gradients.size ≤ 2 ^ 32 → p'.session.state.gradients.size ≤ 2 ^ 32
  count : p'.ids.size = p.ids.size + calls.countP Call.isGradient
  carries : ∀ {q q' r'}, Encoded final p q q' →
    p.ids.size + calls.countP Call.isGradient ≤ 2 ^ 32 → Sketch.backend.Runs q' emitted r' →
      ∃ r, Sketch.backend.Runs q (calls.map (Call.round p.session.state.width)) r ∧
        Encoded final p' r r'

theorem renames_canonical {g : Gradient} {offsets : UInt32}
    (hoffsets : lookup e.floatLists .floatList g.offsets = .ok offsets) :
    (g.round e.width).Renames e.renaming (e.canonical g offsets) := ⟨rfl, hoffsets, rfl, rfl, rfl⟩

/-- A gradient that is registered already is not emitted. -/
private theorem encodes_registered (hplaced : p.session.state.Placed final) {g : Gradient}
    {e' : Encoder} {offsets : UInt32} {i : Nat} {m : Nesting}
    (haccept : Nesting.Accepted p.session.state.gradients.size p.session.nesting (.gradient g) m)
    (hinterned : p.session.state.Interned e')
    (hoffsets : lookup p.session.state.floatLists .floatList g.offsets = .ok offsets)
    (hfound : p.session.state.gradients.find? (p.session.state.canonical g offsets) = some i) :
    Encodes final p [.gradient g] ⟨p.ids.push (UInt32.ofNat i), ⟨m, e'⟩⟩ [] := by
  have hgradients : e'.gradients = p.session.state.gradients := by rw [hinterned.same]
  refine ⟨⟨[], ?_, .nil⟩, hplaced.of_renaming hinterned.renaming, hinterned.width, ?_, ?_,
    Array.size_push _, ?_⟩
  · rw [hinterned.same, List.append_nil]
  · rw [hgradients]
    rfl
  · rw [hgradients]
    exact id
  · intro q q' r' hq hroom hruns
    cases hruns
    have hentry := CanonicalTable.find?_entry hfound
    obtain ⟨hlt, -⟩ := Array.getElem?_eq_some_iff.mp hentry
    rw [← toNat_ofNat_of_lt (Nat.lt_of_lt_of_le hlt hq.room), ← hgradients] at hentry
    have hdocument : e'.document = p.session.state.document := by rw [hinterned.same]
    have hextends : Extends p.session.state.gradients.entries e'.gradients.entries := by
      rw [hgradients]
      exact .refl _
    have hsize : e'.gradients.size ≤ 2 ^ 32 := by
      rw [hgradients]
      exact hq.room
    have hsame : q'.session.state = { q'.session.state with
        resources :=
          { q'.session.state.resources with gradients := e'.gradients.entries } } := by
      rw [hgradients, ← hq.gradients_eq]
    obtain ⟨r, hr, hencoded⟩ := hq.gradient haccept hroom hinterned.renaming hdocument hextends
      hsize hentry (renames_canonical hoffsets) hq.compact hsame
    exact ⟨r, .single hr, hencoded⟩

/-- A gradient that is new is emitted as it is registered. -/
private theorem encodes_gradient (hplaced : p.session.state.Placed final) {g : Gradient}
    {e₁ : Encoder} {offsets : UInt32} {bytes : Bytes} {m : Nesting}
    (haccept : Nesting.Accepted p.session.state.gradients.size p.session.nesting (.gradient g) m)
    (hinterned : p.session.state.Interned e₁)
    (hoffsets : lookup p.session.state.floatLists .floatList g.offsets = .ok offsets)
    (hlt : p.session.state.gradients.size < 2 ^ 32)
    (hwrites : p.session.state.Writes final (.gradient g) bytes) :
    Encodes final p [.gradient g]
      ⟨p.ids.push (UInt32.ofNat p.session.state.gradients.size), ⟨m, { e₁ with
        gradients := p.session.state.gradients.push (p.session.state.canonical g offsets)
        ops := p.session.state.ops ++ bytes }⟩⟩
      [.gradient (p.session.state.canonical g offsets)] := by
  have hread := hwrites.readsGradient hplaced hoffsets
  have hk := renames_canonical hoffsets
  generalize p.session.state.canonical g offsets = k at hread hk ⊢
  have hpush := CanonicalTable.entries_push p.session.state.gradients k
  have hsize := CanonicalTable.size_push p.session.state.gradients k
  refine ⟨⟨bytes, Array.toList_appendList, .single hread⟩,
    hplaced.of_renaming hinterned.renaming, hinterned.width, hsize, ?_, Array.size_push _, ?_⟩
  · intro _
    show (p.session.state.gradients.push k).size ≤ 2 ^ 32
    omega
  · intro q q' r' hq hroom hruns
    cases hruns with
    | cons hstep' hnil =>
      cases hnil
      obtain ⟨reply', -, hperform', -, hcurrent'⟩ := hq.compact.of_advances hstep'
      obtain ⟨_, -, hperform'⟩ := bind_eq_ok.mp hperform'
      obtain ⟨hstate, -⟩ := Prod.ext_iff.mp (Except.ok.inj hperform')
      have hdocument : e₁.document = p.session.state.document := by rw [hinterned.same]
      have hentry : (p.session.state.gradients.push k).entries[
          (UInt32.ofNat p.session.state.gradients.size).toNat]? = some k := by
        rw [toNat_ofNat_of_lt hlt, hpush]
        exact Array.getElem?_push_size
      rw [hq.gradients_eq, ← hpush] at hstate
      obtain ⟨r, hr, hencoded⟩ := hq.gradient
        (u := { e₁ with
          gradients := p.session.state.gradients.push k
          ops := p.session.state.ops ++ bytes })
        haccept hroom hinterned.renaming hdocument (CanonicalTable.extends_push _ k)
        (hsize ▸ hlt) hentry hk hcurrent' hstate.symm
      exact ⟨r, .single hr, hencoded⟩

/-- Another call of the tree is emitted under its new indices. -/
private theorem encodes_write (hplaced : p.session.state.Placed final) {call renamed : Call}
    {e₁ : Encoder} {bytes : Bytes} {m : Nesting}
    (hmap : call.mapGradients (lookup p.ids .gradient) = .ok renamed)
    (haccept : Nesting.Accepted p.session.state.gradients.size p.session.nesting renamed m)
    (hne : ∀ g, renamed ≠ .gradient g) (hinterned : p.session.state.Interned e₁)
    (hwrites : p.session.state.Writes final renamed bytes) :
    ∃ emitted, Encodes final p [call]
      ⟨p.ids, ⟨m, { e₁ with ops := p.session.state.ops ++ bytes }⟩⟩ emitted := by
  obtain ⟨call', hread, hrenames⟩ := hwrites.readsCall hplaced
  have hfalse := Call.isGradient_eq_false.mpr hne
  have hcall : call.isGradient = false := by rw [← Call.isGradient_mapGradients hmap, hfalse]
  have hemitted : call'.isGradient = false := by
    rw [← hrenames.isGradient, Call.isGradient_round, hfalse]
  have hgradients : e₁.gradients = p.session.state.gradients := by rw [hinterned.same]
  refine ⟨[call'], ⟨bytes, Array.toList_appendList, .single hread⟩,
    hplaced.of_renaming hinterned.renaming, hinterned.width, ?_, ?_, ?_, ?_⟩
  · show e₁.gradients.size = _
    rw [hgradients, List.countP_singleton, hemitted]
    rfl
  · show _ → e₁.gradients.size ≤ 2 ^ 32
    rw [hgradients]
    exact id
  · rw [List.countP_singleton, hcall]
    rfl
  · intro q q' r' hq _ hruns
    obtain ⟨r, hr, hencoded⟩ := hq.write hmap haccept hne hinterned _ hrenames hruns
    exact ⟨r, .single hr, hencoded⟩

/-- A step of an encoder. -/
private theorem encodes_step {call : Call} (hstep : Goes final p call p')
    (hplaced : p.session.state.Placed final) : ∃ emitted, Encodes final p [call] p' emitted := by
  cases hstep with
  | @step renamed m e' reply hmap haccept hputs =>
    cases hputs with
    | @init tables _ hsame hplaces =>
      obtain rfl := Call.eq_of_mapGradients_ne hmap (fun _ h => nomatch h) (fun _ h => nomatch h)
      have hgradients : e'.gradients = p.session.state.gradients := by rw [hsame]
      refine ⟨[], ⟨[], ?_, .nil⟩, hplaces.placed, ?_, ?_, ?_, rfl, ?_⟩
      · rw [hsame, List.append_nil]
      · rw [hsame]
      · rw [hgradients]
        rfl
      · rw [hgradients]
        exact id
      · intro q q' r' hq _ hruns
        cases hruns
        obtain ⟨r, hr, hencoded⟩ := hq.init haccept hsame hplaces
        exact ⟨r, .single hr, hencoded⟩
    | document d =>
      obtain rfl := Call.eq_of_mapGradients_ne hmap (fun _ h => nomatch h) (fun _ h => nomatch h)
      refine ⟨[], ⟨[], (List.append_nil _).symm, .nil⟩, ⟨hplaced.images, hplaced.strings,
        hplaced.floatLists⟩, rfl, rfl, id, rfl, ?_⟩
      intro q q' r' hq _ hruns
      cases hruns
      obtain ⟨r, hr, hencoded⟩ := hq.ofDocument haccept p.session.state.width
      exact ⟨r, .single hr, hencoded⟩
    | registered hinterned hoffsets hfound =>
      obtain rfl := Call.eq_of_mapGradients_ne hmap (fun _ h => nomatch h) (fun _ h => nomatch h)
      exact ⟨_, encodes_registered hplaced haccept hinterned hoffsets hfound⟩
    | gradient hinterned hoffsets _ hlt hwrites =>
      obtain rfl := Call.eq_of_mapGradients_ne hmap (fun _ h => nomatch h) (fun _ h => nomatch h)
      exact ⟨_, encodes_gradient hplaced haccept hinterned hoffsets hlt hwrites⟩
    | write hne hinterned hwrites =>
      exact encodes_write hplaced hmap haccept hne hinterned hwrites

private theorem Encodes.append {p'' : Position Encoder} {call : Call} {rest emitted more : List Call}
    (h : Encodes final p [call] p' emitted) (h' : Encodes final p' rest p'' more) :
    Encodes final p (call :: rest) p'' (emitted ++ more) := by
  obtain ⟨bytes, hops, hreads⟩ := h.reads
  obtain ⟨bytes', hops', hreads'⟩ := h'.reads
  have hcount : (call :: rest).countP Call.isGradient =
      [call].countP Call.isGradient + rest.countP Call.isGradient := by
    rw [← List.countP_append]
    rfl
  refine ⟨⟨bytes ++ bytes', ?_, hreads.append hreads'⟩, h'.placed, h'.width.trans h.width, ?_,
    fun hroom => h'.room (h.room hroom), ?_, ?_⟩
  · rw [hops', hops, List.append_assoc]
  · rw [h'.gradients, h.gradients, List.countP_append, Nat.add_assoc]
  · rw [h'.count, h.count, hcount, Nat.add_assoc]
  · intro q q' r' hq hroom hruns
    have hfirst := h.count
    obtain ⟨s', hemitted, hmore⟩ := hruns.split
    obtain ⟨s, hs, hencoded⟩ := h.carries hq (by omega) hemitted
    obtain ⟨r, hr, hencoded'⟩ := h'.carries hencoded (by omega) hmore
    rw [h.width] at hr
    exact ⟨r, hs.append hr, hencoded'⟩

/-- The trail of an encoder. -/
theorem encodes_trail {calls : List Call} (h : Trail final p calls p')
    (hplaced : p.session.state.Placed final) : ∃ emitted, Encodes final p calls p' emitted := by
  induction h with
  | nil p =>
    refine ⟨[], ⟨[], (List.append_nil _).symm, .nil⟩, hplaced, rfl, rfl, id, rfl, ?_⟩
    intro q q' r' hq _ hruns
    cases hruns
    exact ⟨q, .nil q, hq⟩
  | cons hstep _ ih =>
    obtain ⟨emitted, hfirst⟩ := encodes_step hstep hplaced
    obtain ⟨more, hmore⟩ := ih hfirst.placed
    exact ⟨emitted ++ more, hfirst.append hmore⟩

end Encoder

end VectorImage
