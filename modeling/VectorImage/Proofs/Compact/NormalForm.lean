import VectorImage.Proofs.Compact.Refilling
import VectorImage.Proofs.Compact.Storing
import VectorImage.Proofs.Compact.Stream

/-!
The encoding of a stream is a normal form: what it replays is encoded to the same bytes. After the
tables, which the replay gives as they are, each call that is read back retraces the call that it was
written for.
-/

set_option autoImplicit false
set_option relaxedAutoImplicit false

namespace VectorImage

open VectorImage.Compact

namespace Encoder

variable {e e' : Encoder} {final : TableSet} {width : FloatWidth} {stamp : Nat}

/-! Runs. -/

/-- A run of an encoder and one that retraces it, with the sketch of what the second is given. -/
structure Abreast (final : TableSet) (p : Position Encoder) (s : Position Sketch)
    (q : Position Encoder) : Prop where
  retraces : Retraces final p.session.state q.session.state
  current : Sketch.Current s
  nesting : q.session.nesting = s.session.nesting
  ids : q.ids = s.ids
  count : q.session.state.gradients.size = s.ids.size

variable {p p' q : Position Encoder} {s s' : Position Sketch}

/-- What the sketch accepts is performed under its own names. -/
private theorem Abreast.advances (h : Abreast final p s q) {call : Call} {f' : Encoder}
    {reply : Reply} (hstep : Sketch.backend.Advances s call s')
    (hemits : q.session.state.Emits call f' reply) :
    Encoder.backend.Advances q call ⟨reply.known q.ids, ⟨s'.session.nesting, f'⟩⟩ := by
  obtain ⟨-, haccept, -⟩ := h.current.of_advances hstep
  obtain ⟨renamed, hmap⟩ := haccept.mapGradients_progress (f := lookup q.ids .gradient) fun i hi => by
    obtain ⟨j, -, hj⟩ := Resources.lookup_progress .gradient (h.ids ▸ hi)
    exact ⟨j, hj⟩
  have hsame := Call.eq_of_mapGradients
    (fun i j hij => h.current.numbered i j (h.ids ▸ hij)) hmap
  subst hsame
  rw [← h.nesting, ← h.count] at haccept
  exact .step hmap haccept (perform_of_emits hemits)

/-- What a run of an encoder reads back as, and that it is retraced when it is given to another. -/
structure Retold (final : TableSet) (p p' : Position Encoder) (said : List Call) : Prop where
  reads : ∃ bytes, p'.session.state.ops.toList = p.session.state.ops.toList ++ bytes ∧
    ReadsCalls final bytes said
  placed : p'.session.state.Placed final
  carries : ∀ {s q s'}, Abreast final p s q → Sketch.backend.Runs s said s' →
    ∃ q', Encoder.backend.Runs q said q' ∧ Abreast final p' s' q'

theorem Retold.append {p'' : Position Encoder} {said more : List Call} (h : Retold final p p' said)
    (hrest : Retold final p' p'' more) : Retold final p p'' (said ++ more) := by
  obtain ⟨bytes, hops, hreads⟩ := h.reads
  obtain ⟨bytes', hops', hreads'⟩ := hrest.reads
  refine ⟨⟨bytes ++ bytes', ?_, hreads.append hreads'⟩, hrest.placed, fun hq hruns => ?_⟩
  · rw [hops', hops, List.append_assoc]
  · obtain ⟨m, hfirst, hlater⟩ := hruns.split
    obtain ⟨q₁, hruns₁, hq₁⟩ := h.carries hq hfirst
    obtain ⟨q₂, hruns₂, hq₂⟩ := hrest.carries hq₁ hlater
    exact ⟨q₂, hruns₁.append hruns₂, hq₂⟩

/-- How an encoder answers a call when it registers every gradient that it is given. -/
inductive Numbers (f f' : Encoder) : Call → Reply → Prop
  | gradient (g : Gradient) (hsize : f'.gradients.size = f.gradients.size + 1) :
    Numbers f f' (.gradient g) (.gradient (UInt32.ofNat f.gradients.size))
  | other {call : Call} (hne : ∀ g, call ≠ .gradient g)
      (hsize : f'.gradients.size = f.gradients.size) : Numbers f f' call .done

/-- A call that every encoder which has retraced `p` can take to retrace `p'`. -/
private theorem retold_of_emits {call : Call} {bytes : Bytes}
    (hops : p'.session.state.ops.toList = p.session.state.ops.toList ++ bytes)
    (hread : ReadsCall final bytes call) (hplaced : p'.session.state.Placed final)
    (hemits : ∀ {f}, Retraces final p.session.state f → ∃ f' reply, f.Emits call f' reply ∧
      Numbers f f' call reply ∧ Retraces final p'.session.state f') :
    Retold final p p' [call] := by
  refine ⟨⟨bytes, hops, .single hread⟩, hplaced, fun {s q s'} hq hruns => ?_⟩
  cases hruns with
  | cons hstep hnil =>
    cases hnil
    obtain ⟨f', reply, hemits, hnumbers, hretraces⟩ := hemits hq.retraces
    obtain ⟨reply', -, hsketch, hids, hcurrent⟩ := hq.current.of_advances hstep
    -- the sketch gives the same answer
    have hanswer : reply' = reply ∧ f'.gradients.size = (reply.known s.ids).size := by
      rcases Sketch.perform_gradients hsketch with ⟨_, rfl, -, rfl, -⟩ | ⟨hother, rfl, -⟩
      · cases hnumbers with
        | gradient _ hsize =>
          rw [← hq.current.count, hq.count]
          exact ⟨rfl, (hsize.trans (congrArg (· + 1) hq.count)).trans (Array.size_push _).symm⟩
        | other hne => exact absurd rfl (hne _)
      · cases hnumbers with
        | gradient g => exact absurd rfl (hother g)
        | other _ hsize => exact ⟨rfl, hsize.trans hq.count⟩
    obtain ⟨rfl, hcount⟩ := hanswer
    refine ⟨_, .single (hq.advances hstep hemits), hretraces, hcurrent, rfl, ?_, ?_⟩
    · rw [hids, ← hq.ids]
    · rw [hids]
      exact hcount

/-- A gradient that is registered already is not said again. Its transform is in the tables since
then, so nothing changes that the other encoder would have to follow. -/
private theorem retold_registered (hplaced : p.session.state.Placed final) {g : Gradient}
    {instruction : Instruction} {offsets : UInt32} {i : Nat} {m : Nesting} {ids : Array GradientId}
    (hprepares : p.session.state.Prepares (.gradient g) instruction e')
    (hfound : p.session.state.gradients.find? (p.session.state.canonical g offsets) = some i) :
    Retold final p ⟨ids, ⟨m, e'⟩⟩ [] := by
  have hinterned := hprepares.interned
  refine ⟨⟨[], ?_, .nil⟩, hplaced.of_renaming hinterned.renaming, fun {s q s'} hq hruns => ?_⟩
  · rw [hinterned.same, List.append_nil]
  · cases hruns
    have hretraces : Retraces final e' q.session.state :=
      hq.retraces.registered hprepares (CanonicalTable.mem_of_find? hfound)
    exact ⟨q, .nil q, hretraces, hq.current, hq.nesting, hq.ids, hq.count⟩

variable {g : Gradient} {offsets : UInt32} {instruction : Instruction} {bytes : Bytes} {m : Nesting}
  {e₁ : Encoder}

/-- What the instruction of a prepared call stands for among the final tables. -/
private theorem writes_of_prepares (hplaced : e.Placed final) {call : Call}
    (hprepares : e.Prepares call instruction e₁) (hreach : e₁.Reaches final)
    (hwrite : instruction.write = .ok bytes) : e.Writes final call bytes :=
  ⟨instruction, hprepares.codes hreach, (hprepares.codes hreach).fits hreach.indexable hplaced,
    hwrite⟩

/-- A gradient that is new is said under its new indices, and is new to the other encoder. -/
private theorem retold_gradient (hplaced : p.session.state.Placed final)
    (hprepares : p.session.state.Prepares (.gradient g) instruction e₁)
    (hoffsets : lookup p.session.state.floatLists .floatList g.offsets = .ok offsets)
    (hnew : p.session.state.gradients.find? (p.session.state.canonical g offsets) = none)
    (hroom : p.session.state.gradients.size < 2 ^ 32) (hwrite : instruction.write = .ok bytes)
    (hreach : e₁.Reaches final) {ids : Array GradientId} :
    Retold final p
      ⟨ids, ⟨m, { e₁ with
        gradients := p.session.state.gradients.push (p.session.state.canonical g offsets)
        ops := p.session.state.ops ++ bytes }⟩⟩
      [.gradient (p.session.state.canonical g offsets)] := by
  have hread := (writes_of_prepares hplaced hprepares hreach hwrite).readsGradient hplaced hoffsets
  obtain ⟨v, hv⟩ := hplaced.floatLists _ _ hoffsets
  refine retold_of_emits Array.toList_appendList hread
    (hplaced.of_renaming hprepares.interned.renaming) fun {f} hf => ?_
  obtain ⟨f', hprepares', hretraces⟩ := hf.prepares hplaced hprepares hreach
    (.gradient (renames_canonical hoffsets))
  have hsame := hf.canonical_canonical g offsets
  have hgradients : f.gradients = p.session.state.gradients := by rw [hf.same]
  have hops : f.ops = p.session.state.ops := by rw [hf.same]
  rw [← hgradients] at hroom
  rw [← hgradients, ← hsame] at hnew
  have hown : lookup f.floatLists .floatList (p.session.state.canonical g offsets).offsets =
      .ok offsets := hf.floatLists hv
  refine ⟨_, _, .gradient hprepares' hown hnew hroom hwrite, .gradient _ ?_, ?_⟩
  · exact CanonicalTable.size_push ..
  · rw [hsame, hgradients, hops]
    exact (hretraces.registers (hf.held_push hprepares hreach)).writes _

/-- Any other call is said under its new indices. -/
private theorem retold_write (hplaced : p.session.state.Placed final) {call : Call}
    (hne : ∀ g, call ≠ .gradient g) (hprepares : p.session.state.Prepares call instruction e₁)
    (hwrite : instruction.write = .ok bytes) (hreach : e₁.Reaches final) :
    ∃ said, Retold final p ⟨p.ids, ⟨m, { e₁ with ops := p.session.state.ops ++ bytes }⟩⟩ said := by
  obtain ⟨call', hread, hrenames⟩ :=
    (writes_of_prepares hplaced hprepares hreach hwrite).readsCall hplaced
  have hother : call'.isGradient = false := by
    rw [← hrenames.isGradient, Call.isGradient_round, Call.isGradient_eq_false.mpr hne]
  have hne' := Call.isGradient_eq_false.mp hother
  refine ⟨[call'], retold_of_emits Array.toList_appendList hread
    (hplaced.of_renaming hprepares.interned.renaming) fun {f} hf => ?_⟩
  obtain ⟨f', hprepares', hretraces⟩ := hf.prepares hplaced hprepares hreach hrenames
  have hops : f.ops = p.session.state.ops := by rw [hf.same]
  refine ⟨_, _, .write hne' hprepares' hwrite, .other hne' ?_, ?_⟩
  · show f'.gradients.size = f.gradients.size
    rw [hprepares'.interned.same]
  · rw [hops]
    exact hretraces.writes _

/-- A call of the tree. -/
private theorem retold_step (hplaced : p.session.state.Placed final) {call : Call}
    (htree : call.OfTree) (h : Encoder.backend.Advances p call p')
    (hreach : p'.session.state.Reaches final) : ∃ said, Retold final p p' said := by
  cases h with
  | @step renamed m e' reply hmap haccept hperform =>
    have htree' := (Call.mapGradients_renames htree hmap).ofTree.2
    have hreached {u : Encoder} (hu : u.interner = e'.interner) : u.Reaches final := by
      refine ⟨?_, hreach.indexable⟩
      rw [tables, hu]
      exact hreach.extended
    cases perform_emits hperform with
    | init | document => cases htree'
    | registered hprepares _ hfound => exact ⟨_, retold_registered hplaced hprepares hfound⟩
    | gradient hprepares hoffsets hnew hroom hwrite =>
      exact ⟨_, retold_gradient hplaced hprepares hoffsets hnew hroom hwrite (hreached rfl)⟩
    | write hne hprepares hwrite => exact retold_write hplaced hne hprepares hwrite (hreached rfl)

/-- The calls of a tree. -/
theorem retold {calls : List Call} (hplaced : p.session.state.Placed final)
    (htree : ∀ call ∈ calls, call.OfTree) (h : Encoder.backend.Runs p calls p')
    (hreach : p'.session.state.Reaches final) : ∃ said, Retold final p p' said := by
  induction h with
  | nil p => exact ⟨[], ⟨[], (List.append_nil _).symm, .nil⟩, hplaced, fun hq hruns => by
      cases hruns
      exact ⟨_, .nil _, hq⟩⟩
  | cons hstep hrest ih =>
    obtain ⟨hcall, hlater⟩ := List.forall_mem_cons.mp htree
    obtain ⟨said, hsaid⟩ := retold_step hplaced hcall hstep
      ⟨(extended_of_runs hrest).trans hreach.extended, hreach.indexable⟩
    obtain ⟨more, hmore⟩ := ih hsaid.placed hlater hreach
    exact ⟨said ++ more, hsaid.append hmore⟩

/-! Streams. -/

/-- What an encoder is after the tables and the document, if there is one. -/
private theorem state_of_opening {interner : Interner} {tables : Tables}
    {declared : Option Document}
    (h : Encoder.backend.Runs (.start (.start width interner))
      (.init tables :: declared.toList.map Call.document) p) :
    ∃ e, init tables (.start width interner) = .ok ((), e) ∧
      p.session.state = { e with document := declared.getD e.document } := by
  cases h with
  | cons hfirst hrest =>
    cases hfirst with
    | @step _ _ e _ hmap _ hperform =>
      cases hmap
      cases perform_emits hperform with
      | write hne hprepares => cases hprepares
      | init hinit =>
        refine ⟨e, hinit, ?_⟩
        cases declared with
        | none =>
          cases hrest
          rfl
        | some d =>
          cases hrest with
          | cons hsecond hnil =>
            cases hnil
            cases hsecond with
            | step hmap' _ hperform' =>
              cases hmap'
              have hemits : e.Emits (.document d) _ _ := perform_emits hperform'
              cases hemits with
              | write hne hprepares => cases hprepares
              | document => rfl

/-- The tables and the document of a stream, and those of the stream that its encoding replays. -/
private theorem opening (hfinal : final.Finished width) {tables : Tables}
    {declared : Option Document}
    (h : Encoder.backend.Runs (.start (.fresh stamp width))
      (.init tables :: declared.toList.map Call.document) p)
    (hsketch : Sketch.backend.Runs (.start .empty)
      [.init final.tables, .document (declared.getD .empty)] s) (stamp' : Nat) :
    ∃ q, Encoder.backend.Runs (.start (.fresh stamp' width))
      [.init final.tables, .document (declared.getD .empty)] q ∧ Abreast final p s q := by
  have hcurrent : Sketch.Current s := hsketch.preserves
    (fun hq hstep => (hq.of_advances hstep).choose_spec.2.2.2) Sketch.current_start
  obtain ⟨e, hinit, hstate⟩ := state_of_opening h
  obtain ⟨f, hf, hretraces⟩ := retraces_init hfinal hinit stamp'
  obtain ⟨hsame, -, -⟩ := init_spec hinit
  obtain rfl := hsketch.unique
    (.cons (.step rfl (.init _ rfl) rfl) (.cons (.step rfl (.document _ rfl) rfl) (.nil _)))
  refine ⟨_, .cons (.step rfl (.init _ rfl) (perform_of_emits (.init hf)))
    (.cons (.step rfl (.document _ rfl) rfl) (.nil _)), ?_, hcurrent, rfl, rfl, ?_⟩
  · rw [hstate, show e.document = .empty by rw [hsame]; rfl]
    exact hretraces.documented _
  · show f.gradients.size = 0
    rw [hretraces.same, hsame]
    rfl

/-- What a stream is encoded to reads back as calls that are encoded, after the tables and the
document, by an encoder that ends abreast of the first. -/
private theorem runs_again (hfinal : final.Finished width) {tables : Tables}
    {declared : Option Document} {tree : List Call}
    (h : Encoder.backend.Runs (.start (.fresh stamp width))
      (.init tables :: (declared.toList.map Call.document ++ tree)) p)
    (htree : ∀ call ∈ tree, call.OfTree) (hreach : p.session.state.Reaches final) :
    ∃ said, ReadsCalls final p.session.state.ops.toList said ∧
      ∀ {s}, Sketch.backend.Runs (.start .empty)
        (.init final.tables :: .document (declared.getD .empty) :: said) s → ∀ stamp', ∃ q,
          Encoder.backend.Runs (.start (.fresh stamp' width))
            (.init final.tables :: .document (declared.getD .empty) :: said) q ∧
            Abreast final p s q := by
  rw [← List.cons_append] at h
  obtain ⟨p₁, hopening, hrest⟩ := h.split
  have hreach₁ : p₁.session.state.Reaches final :=
    ⟨(extended_of_runs hrest).trans hreach.extended, hreach.indexable⟩
  obtain ⟨e, hinit, hstate⟩ := state_of_opening hopening
  obtain ⟨hsame, -, hplaces⟩ := init_spec hinit
  have hplaced : p₁.session.state.Placed final := by
    rw [hstate] at hreach₁ ⊢
    obtain ⟨himages, hstrings, hlists⟩ := (hplaces ⟨hreach₁.extended, hreach₁.indexable⟩).placed
    exact ⟨himages, hstrings, hlists⟩
  obtain ⟨said, ⟨bytes, hbytes, hreads⟩, -, hcarries⟩ := retold hplaced htree hrest hreach
  have hnone : p₁.session.state.ops.toList = [] := by
    rw [hstate, hsame]
    rfl
  rw [hnone, List.nil_append] at hbytes
  refine ⟨said, hbytes ▸ hreads, fun {s} hsketch stamp' => ?_⟩
  have hparts : Sketch.backend.Runs (.start .empty)
      ([.init final.tables, .document (declared.getD .empty)] ++ said) s := hsketch
  obtain ⟨s₁, hfirst, hlater⟩ := hparts.split
  obtain ⟨q₁, hruns₁, habreast⟩ := opening hfinal hopening hfirst stamp'
  obtain ⟨q, hruns, hq⟩ := hcarries habreast hlater
  exact ⟨q, hruns₁.append hruns, hq⟩

/-- The tables that an encoder with tables of its own leaves. -/
private theorem finished_of_runs {calls : List Call}
    (h : Encoder.backend.Runs (.start (.fresh stamp width)) calls p)
    (hindexable : p.session.state.tables.Indexable) : p.session.state.tables.Finished width := by
  obtain ⟨-, htidy, hstored⟩ := h.preserves
    (P := fun q => q.session.state.width = width ∧ (∃ n, q.session.state.tables.Tidy n) ∧
      q.session.state.tables.Stored width) (fun ⟨hwidth, ⟨n, htidy⟩, hstored⟩ hstep => by
        cases hstep with
        | step hmap haccept hperform =>
          have hemits := perform_emits hperform
          have hgrown := hemits.grown
          rw [hwidth] at hgrown
          exact ⟨hemits.width.trans hwidth, hgrown.tidy htidy, hgrown.stored hstored⟩)
    ⟨rfl, ⟨0, TableSet.tidy_empty⟩, TableSet.stored_empty width⟩
  exact ⟨htidy, hstored, hindexable⟩

end Encoder

namespace CompactImage

/-- In an image that can be written, every index of the tables has a successor. -/
theorem indexable_of_toBytes {c : CompactImage} {bytes : Bytes} (h : c.toBytes = .ok bytes) :
    c.tables.value.Indexable := by
  have htables := (toBytes_succeeds.mp ⟨bytes, h⟩).tables
  exact ⟨htables.images, htables.strings, htables.floatLists, htables.transforms, htables.paths⟩

/-- An encoding is a normal form: whatever stream it was encoded from, the stream that it replays is
encoded again, at the same width, to the same tables in the same order, the same instructions and
the same bytes. The bound is that of optional indices, which are stored one higher; every image that
can be written keeps to it. -/
theorem normal_form {stamp : Nat} {width : FloatWidth} {calls : List Call} {c : CompactImage}
    (h : ofCalls stamp width calls = .ok c) (hindexable : c.tables.value.Indexable)
    (stamp' : Nat) :
    ∃ d, ofCalls stamp' width c.calls = .ok d ∧ d.document = c.document ∧
      d.tables.value = c.tables.value ∧ d.ops = c.ops ∧ d.toBytes = c.toBytes := by
  obtain ⟨p, hruns, hclosed, hcomplete⟩ := Backend.replay_eq_ok.mp h
  obtain ⟨hheader, hdocument, htables, hops⟩ := ofParts_eq_ok hcomplete
  have htables' : p.session.state.tables = c.tables.value := congrArg Shared.value htables.symm
  have hreach := Encoder.reaches_of_complete hcomplete hindexable
  have hfinal : c.tables.value.Finished width := by
    rw [← htables'] at hindexable ⊢
    exact Encoder.finished_of_runs hruns hindexable
  obtain ⟨tables, declared, tree, said, rfl, htree, hdeclared, hreads, -, hroom⟩ :=
    Encoder.condenses_of_runs hruns (Nesting.checkClosed_eq_ok.mp hclosed).1 hreach
  rw [← entries_of_reads hops hreads, ← (read_of_scan c.valid).gradients_size] at hroom
  obtain ⟨_, hsketch, -⟩ := sketch hroom
  obtain ⟨s, hsketch, hsketched, -⟩ := Backend.replay_eq_ok.mp hsketch
  obtain ⟨said', hreads', hagain⟩ := Encoder.runs_again hfinal hruns htree hreach
  have hcalls : c.calls =
      .init c.tables.value.tables :: .document (declared.getD .empty) :: said' := by
    rw [CompactImage.calls, entries_of_reads hops hreads', hdocument, hdeclared]
  rw [hcalls] at hsketch ⊢
  obtain ⟨q, hruns', hq⟩ := hagain hsketch stamp'
  have hstate : q.session.state.tables = c.tables.value := by
    rw [hq.retraces.tables, htables']
  have hparts : q.session.state.complete = ofParts c.header c.document
      ⟨q.session.state.interner.shared.inst, c.tables.value⟩ c.ops := by
    rw [← hstate, hheader, hdocument, hops, Encoder.complete, hq.retraces.same]
  have hagain := ofParts_of_scan c.header c.document
    ⟨q.session.state.interner.shared.inst, c.tables.value⟩ c.valid
  refine ⟨_, Backend.replay_eq_ok.mpr ⟨q, hruns', ?_, hparts.trans hagain⟩,
    rfl, rfl, rfl, rfl⟩
  rw [hq.nesting]
  exact hsketched

/-- The image of the two gradients whose offsets are equal lists is encoded again. -/
theorem normal_form_twinGradients : ∃ c d,
    ofCalls 0 .binary32 (.init ⟨[], [], [[.zero, .one], [.zero, .one]]⟩ :: twinGradients) = .ok c ∧
      ofCalls 1 .binary32 c.calls = .ok d ∧ d.ops = c.ops ∧ d.toBytes = c.toBytes := by
  obtain ⟨c, hc, hindexable⟩ := ofCalls_twinGradients
  obtain ⟨d, hd, -, -, hops, hbytes⟩ := normal_form hc hindexable 1
  exact ⟨c, d, hc, hd, hops, hbytes⟩

end CompactImage

end VectorImage
