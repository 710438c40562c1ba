import VectorImage.Graph.Image
import VectorImage.Proofs.Compact.Encoding
import VectorImage.Proofs.Graph.Portrayal

/-!
Both backends draw the same picture: what an encoder makes of a stream paints what the shared tree
of the rounded stream paints.
-/

set_option autoImplicit false
set_option relaxedAutoImplicit false

namespace VectorImage

namespace CompactImage

open VectorImage.Compact

private theorem lookup_nil {α : Type} {kind : TableKind} {i : UInt32} {v : α} :
    lookup (#[] : Array α) kind i ≠ .ok v := by
  intro h
  have hentry := lookup_eq_ok_iff.mp h
  cases hentry

private theorem placed_start {width : FloatWidth} {interner : Interner} {final : TableSet} :
    (Encoder.start width interner).Placed final :=
  ⟨fun _ _ h => absurd h lookup_nil, fun _ _ h => absurd h lookup_nil,
    fun _ _ h => absurd h lookup_nil⟩

/-- Beside an encoder that starts, the sketches that start. -/
private theorem encoded_start {c : CompactImage} (width : FloatWidth) (interner : Interner)
    {q : Position Sketch} (hcurrent : Sketch.Current q)
    (hstate : q.session.state = { Sketch.empty with
      document := c.document
      resources := { c.resources with gradients := #[] } }) :
    Encoder.Encoded c.tables.value (.start (.start width interner)) (.start .empty) q := by
  refine ⟨Sketch.current_start, hcurrent, rfl, rfl, rfl, ?_, Nat.zero_le _, ?_⟩
  · rw [hstate]
    rfl
  · rw [hstate]
    exact ⟨⟨fun _ _ _ h => absurd h lookup_nil, fun _ _ _ h => absurd h lookup_nil,
      fun _ _ _ h => absurd h lookup_nil, fun _ _ _ h => absurd h lookup_nil⟩, rfl, .nil, .nil⟩

/-- The sketch of an image's own calls after the tables and the document. -/
private theorem runs_entries {c : CompactImage} {r : Position Sketch}
    (h : Sketch.backend.Runs (.start .empty) c.calls r) :
    ∃ q, Sketch.Current q ∧
      q.session.state = { Sketch.empty with
        document := c.document
        resources := { c.resources with gradients := #[] } } ∧
      Sketch.backend.Runs q (c.contents.entries.map Entry.call) r := Sketch.current_of_opening h

/-- What an encoder finishes draws what the stream that left the trail draws, its numbers rounded,
and has the gradients that were registered and the document. -/
theorem sketch_of_trail {width : FloatWidth} {interner : Interner} {calls : List Call}
    {p : Position Encoder} {c : CompactImage}
    (h : Encoder.Trail c.tables.value (.start (.start width interner)) calls p)
    (hclosed : p.session.nesting.checkClosed = .ok ())
    (hcomplete : p.session.state.complete = .ok c)
    (hgradients : calls.countP Call.isGradient ≤ 2 ^ 32) :
    ∃ s, Sketch.backend.replay .empty (calls.map (Call.round width)) = .ok s ∧
      c.primitives = .ok s.primitives ∧
        c.contents.gradients = p.session.state.gradients.entries ∧ s.document = c.document := by
  obtain ⟨-, hdocument, -, hops⟩ := ofParts_eq_ok hcomplete
  have hread := read_of_scan c.valid
  obtain ⟨emitted, hencodes⟩ := Encoder.encodes_trail h placed_start
  obtain ⟨bytes, hbytes, hreads⟩ := hencodes.reads
  have hentries := entries_of_reads (hops.trans hbytes) hreads
  have hroom : c.contents.gradients.size ≤ 2 ^ 32 := by
    rw [hread.gradients_size, hentries, ← Nat.zero_add (emitted.countP _)]
    exact hencodes.gradients ▸ hencodes.room (Nat.zero_le _)
  obtain ⟨s, hsketch, hspells, -, hresources⟩ := sketch hroom
  obtain ⟨r', hcalls, -, hs⟩ := Backend.replay_eq_ok.mp hsketch
  obtain rfl := Except.ok.inj hs
  obtain ⟨q', hcurrent, hstate, hcalls⟩ := runs_entries hcalls
  rw [hentries] at hcalls
  obtain ⟨r, hraw, hr⟩ := hencodes.carries (encoded_start width interner hcurrent hstate)
    ((Nat.zero_add _).symm ▸ hgradients) hcalls
  refine ⟨r.session.state, Backend.replay_eq_ok.mpr ⟨r, hraw, hr.nesting ▸ hclosed, rfl⟩, ?_, ?_,
    ?_⟩
  · rw [Sketch.primitives, hr.echoes.root]
    exact primitives_of_spells hspells
  · exact congrArg Resources.gradients (hresources.symm.trans hr.resources)
  · rw [hr.document, hdocument]

/-- Both backends draw the same picture: when a stream is encoded, the same stream with its
numbers rounded to the width of the image gives a shared tree, and tree and image paint the same
primitives and have the same document. The two bounds are those of the ids: an optional index is
stored one higher, so the last index of a table has to have a successor, and the tree numbers all
gradients, also those that the encoder finds to be registered. -/
theorem paints_as_graph {width : FloatWidth} {interner : Interner} {calls : List Call}
    {c : CompactImage} (h : Encoder.backend.replay (.start width interner) calls = .ok c)
    (hindexable : c.tables.value.Indexable) (hgradients : calls.countP Call.isGradient ≤ 2 ^ 32)
    (stamp : Nat) (shareNodes : Bool) :
    ∃ g primitives,
      GraphImage.ofCalls stamp shareNodes .empty (calls.map (Call.round width)) = .ok g ∧
        c.primitives = .ok primitives ∧ g.primitives = .ok primitives ∧
          g.document = c.document := by
  obtain ⟨p, hruns, hclosed, hcomplete⟩ := Backend.replay_eq_ok.mp h
  have hfinal := Encoder.reaches_of_complete hcomplete hindexable
  obtain ⟨s, hsketch, hcompact, -, hdocument⟩ := sketch_of_trail
    (Encoder.trail_of_runs hruns placed_start hfinal) hclosed hcomplete hgradients
  obtain ⟨g, hg, hgraph, hdocument'⟩ := GraphImage.ofCalls_of_sketch hsketch .empty
    (List.not_mem_nil : stamp ∉ []) shareNodes
  exact ⟨g, _, hg, hcompact, hgraph, hdocument'.trans hdocument⟩

/-- A square of a tenth, which is no number of 32 bits. -/
def tenthSquare : Shape :=
  ⟨.rect ⟨⟨.zero, .zero, ⟨0x3fb999999999999a⟩, ⟨0x3fb999999999999a⟩⟩, .zero, .zero⟩,
    ⟨some ⟨.solid ⟨0, 0, 0, 255⟩, .nonZero⟩, none⟩, none⟩

/-- The first value of a table. -/
private theorem intern_first {α : Type} [Keyed α] [KeyDigest] {pick : TableSet → CanonicalTable α}
    {put : TableSet → CanonicalTable α → TableSet} (v : α) {n : Interner}
    (h : pick n.shared.value = .empty) : Interner.intern pick put v n =
      .ok (0, ⟨n.stamp, ⟨⟨n.stamp, []⟩, put n.shared.value (CanonicalTable.empty.push v)⟩⟩) := by
  have hfind : (CanonicalTable.empty : CanonicalTable α).find? v = none := by
    simp [CanonicalTable.find?, CanonicalTable.empty]
  unfold Interner.intern
  rw [h, hfind]
  rfl


private theorem perform_tenthSquare : ∃ e,
    (Encoder.fresh 0 .binary32).perform (.shape tenthSquare) = .ok (e, .done) ∧
      e.tables.Indexable ∧ e.complete.toBool = true := by
  have hfloats : Encoder.floats [.zero, .zero, ⟨0x3fb999999999999a⟩, ⟨0x3fb999999999999a⟩,
      .zero, .zero] (Encoder.fresh 0 .binary32) = .ok (0, _) :=
    state_bind_eq_ok.mpr ⟨_, _, rfl, bind_eq_ok.mpr ⟨_, intern_first _ rfl, rfl⟩⟩
  have hshape : Encoder.shape tenthSquare (Encoder.fresh 0 .binary32) = .ok ((), _) :=
    state_bind_eq_ok.mpr ⟨_, _, state_map_eq_ok.mpr ⟨_, hfloats, rfl⟩, rfl⟩
  refine ⟨_, map_eq_ok.mpr ⟨(.done, _), state_bind_eq_ok.mpr ⟨(), _, hshape, rfl⟩, rfl⟩, ?_, ?_⟩
  · exact ⟨by decide, by decide, by decide, by decide, by decide⟩
  · decide +kernel

theorem paints_as_graph_tenthSquare : ∃ c g primitives,
    Encoder.backend.replay (.start .binary32 (.fresh 0))
        [.init ⟨[], [], []⟩, .shape tenthSquare] = .ok c ∧
      GraphImage.ofCalls 1 true .empty
        ([.init ⟨[], [], []⟩, .shape tenthSquare].map (Call.round .binary32)) = .ok g ∧
        c.primitives = .ok primitives ∧ g.primitives = .ok primitives := by
  obtain ⟨e, hperform, hindexable, hcomplete⟩ := perform_tenthSquare
  cases hc : e.complete with
  | error err =>
    rw [hc] at hcomplete
    cases hcomplete
  | ok c =>
    have hshape : Nesting.Accepted 0 (.initialized 0 0 0) (.shape tenthSquare)
        { Nesting.initialized 0 0 0 with phase := .tree } := Nesting.accept_eq_ok.mp rfl
    have hreplay : Encoder.backend.replay (.start .binary32 (.fresh 0))
        [.init ⟨[], [], []⟩, .shape tenthSquare] = .ok c :=
      Backend.replay_eq_ok.mpr ⟨_, .cons (.step rfl (.init _ rfl) rfl)
        (.single (.step rfl hshape hperform)), rfl, hc⟩
    obtain ⟨-, -, htables, -⟩ := ofParts_eq_ok hc
    have htablesIndexable : c.tables.value.Indexable := by
      rw [htables]
      exact hindexable
    obtain ⟨g, primitives, hg, hcompact, hgraph, -⟩ :=
      paints_as_graph hreplay htablesIndexable (by decide) 1 true
    exact ⟨c, g, primitives, hreplay, hg, hcompact, hgraph⟩

end CompactImage

end VectorImage
