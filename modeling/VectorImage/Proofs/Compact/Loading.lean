import VectorImage.Image
import VectorImage.Proofs.Call.Recording
import VectorImage.Proofs.Compact.LazyWalk
import VectorImage.Proofs.Compact.Tracing
import VectorImage.Proofs.Graph.Portrayal

/-!
Validation on load is enough. The bytes of a loaded image can be walked again, decoding as it
goes and jumping at each use to a group that lies whole before it; the stream can be replayed, and
the shared tree built from it draws the same primitives.
-/

set_option autoImplicit false
set_option relaxedAutoImplicit false

namespace VectorImage

namespace Compact

variable {t : TableSet} {r : Resources} {contents : Contents} {es : List Entry}

/-- An instruction takes a byte at least. -/
theorem Decodes.length_le {i : Input UInt8} (h : Decodes t i es) : es.length ≤ i.rest.length := by
  induction h with
  | nil hread => exact Nat.zero_le _
  | @cons i j call rest hread hrest ih =>
    rcases readCall_cases hread with ⟨hnone, -⟩ | ⟨_, -, hlt⟩
    · cases hnone
    · exact Nat.lt_of_le_of_lt ih (((readCall t).reaches hread).length_lt hlt)

theorem Contents.Read.gradients_size_le {ops : Bytes} (h : contents.Read t ops) :
    contents.gradients.size ≤ ops.length := by
  have hcount := h.gradients_size
  have hlength := h.decodes.length_le
  have hle := List.countP_le_length (p := Call.isGradient) (l := contents.entries.map Entry.call)
  rw [List.length_map] at hle
  simp only [Input.ofList] at hlength
  omega

/-- The payload of a section has a length of 32 bits. -/
theorem readSection_length {which : Section} {i j : Input UInt8} {payload : Bytes}
    (h : (readSection which).run i = .ok (payload, j)) : payload.length < 2 ^ 32 := by
  obtain ⟨length, k, -, h⟩ := Parser.run_bind_eq_ok.mp h
  simp only [Parser.mapError, readBytes, Parser.takeExactly] at h
  cases hsplit : Parser.splitExactly length.toNat k.rest with
  | none =>
    rw [hsplit] at h
    cases h
  | some parts =>
    obtain ⟨taken, left⟩ := parts
    rw [hsplit] at h
    cases h
    rw [(Parser.splitExactly_eq_some hsplit).2]
    exact length.toNat_lt

/-- The group named `id` lies whole before an entry of a stream, and the name leads to it. -/
structure ClosedBefore (r : Resources) (contents : Contents) (e : Entry) (id : StringId) : Prop where
  group : ∃ (before after inner : List Entry) (start stop : Nat) (attrs : GroupAttrs),
    contents.entries = before ++ (groupEntries start attrs inner stop ++ after) ∧ e ∈ after ∧
      attrs.exportId = some id ∧ contents.exports.lookup id = some start ∧
      ∃ steps, Spells r contents inner steps

private theorem Spells.use_before {steps : List PaintStep} (h : Spells r contents es steps)
    {e : Entry} (he : e ∈ es) {u : UseRef} (hu : e.call = .use u) :
    ∃ start stop attrs inner after inner', attrs.exportId = some u.target ∧
      contents.exports.lookup u.target = some start ∧
      (contents.entries.dropWhile fun e => e.offset < start) =
        groupEntries start attrs inner stop ++ after ∧
      (∀ f ∈ groupEntries start attrs inner stop, f.offset < e.offset) ∧
      Spells r contents inner inner' := by
  induction h with
  | nil => cases he
  | call hdraws hrest ih =>
    rcases List.mem_cons.mp he with rfl | he
    · rw [hu] at hdraws
      cases hdraws
    · exact ih he
  | group hinner hrest ihinner ihrest =>
    rw [List.mem_append] at he
    rcases he with he | he
    · simp only [groupEntries, List.mem_cons, List.mem_append, List.not_mem_nil, or_false] at he
      rcases he with rfl | he | rfl
      · cases hu
      · exact ihinner he
      · cases hu
    · exact ihrest he
  | use hname hexport hgroup hbefore hinner hrest _ ih =>
    rcases List.mem_cons.mp he with rfl | he
    · cases hu
      exact ⟨_, _, _, _, _, _, hname, hexport, hgroup, hbefore, hinner⟩
    · exact ih he

theorem closedBefore_of_spells {steps : List PaintStep}
    (h : Spells r contents contents.entries steps) {e : Entry} (he : e ∈ contents.entries)
    {u : UseRef} (hu : e.call = .use u) : ClosedBefore r contents e u.target := by
  obtain ⟨start, stop, attrs, inner, after, inner', hname, hexport, hgroup, hbefore, hinner⟩ :=
    h.use_before he hu
  have hsplit := List.takeWhile_append_dropWhile (p := fun e : Entry => decide (e.offset < start))
    (l := contents.entries)
  rw [hgroup] at hsplit
  refine ⟨_, after, inner, start, stop, attrs, hsplit.symm, ?_, hname, hexport, inner', hinner⟩
  have hopen : start < e.offset := hbefore ⟨start, .beginGroup attrs⟩ (by simp [groupEntries])
  rw [← hsplit, List.mem_append, List.mem_append] at he
  rcases he with he | he | he
  · have hlt := List.all_eq_true.mp List.all_takeWhile e he
    rw [decide_eq_true_eq] at hlt
    omega
  · exact absurd (hbefore e he) (Nat.lt_irrefl _)
  · exact he

end Compact

namespace CompactImage

open VectorImage.Compact

theorem ops_length_of_ofBytes {stamp : Nat} {bytes : Bytes} {c : CompactImage}
    (h : ofBytes stamp bytes = .ok c) : c.ops.length < 2 ^ 32 := by
  obtain ⟨⟨header, tables, document, ops⟩, hparse, h⟩ := bind_eq_ok.mp h
  have hops : c.ops = ops := (ofParts_eq_ok h).2.2.2
  obtain ⟨j, hrun⟩ := Parser.parse_eq_ok.mp hparse
  obtain ⟨_, _, -, hrun⟩ := Parser.run_bind_eq_ok.mp hrun
  obtain ⟨_, _, -, hrun⟩ := Parser.run_bind_eq_ok.mp hrun
  obtain ⟨_, _, -, hrun⟩ := Parser.run_bind_eq_ok.mp hrun
  obtain ⟨_, _, -, hrun⟩ := Parser.run_bind_eq_ok.mp hrun
  obtain ⟨_, _, -, hrun⟩ := Parser.run_bind_eq_ok.mp hrun
  obtain ⟨ops', _, hsection, hrun⟩ := Parser.run_bind_eq_ok.mp hrun
  obtain ⟨_, _, -, hrun⟩ := Parser.run_bind_eq_ok.mp hrun
  obtain ⟨hresult, -⟩ := Parser.run_pure_eq_ok.mp hrun
  cases hresult
  rw [hops]
  exact readSection_length hsection

/-- Every byte string that loads can be drawn: walking its bytes ends, in one way, at what the
image paints; each use names a group that lies whole before it; the stream is recorded as it is;
and its shared tree can be built, with nodes shared or not, and paints the same primitives. -/
theorem drawable_of_ofBytes {stamp : Nat} {bytes : Bytes} {c : CompactImage}
    (h : ofBytes stamp bytes = .ok c) :
    ∃ p : Painter,
      (∀ q, LazyWalk c.tables.value c.resources c.contents.exports c.ops false 0 (.ofList c.ops)
        .start q ↔ q = p) ∧
      c.primitives = .ok p.finish ∧
      (∀ e ∈ c.contents.entries, ∀ u, e.call = .use u →
        ClosedBefore c.resources c.contents e u.target) ∧
      Recorder.record c.calls = .ok c.calls ∧
      ∀ (stamp : Nat) (shareNodes : Bool), ∃ g, c.toGraph stamp shareNodes = .ok g ∧
        g.primitives = .ok p.finish := by
  have hread := read_of_scan c.valid
  have hsize : c.contents.gradients.size ≤ 2 ^ 32 :=
    Nat.le_of_lt (Nat.lt_of_le_of_lt hread.gradients_size_le (ops_length_of_ofBytes h))
  obtain ⟨s, hsketch, hspells, -⟩ := sketch hsize
  have hwalk := lazyWalk_of_spells hread hspells
  refine ⟨Painter.start.follow s.root, fun q => ⟨fun hq => hq.unique hwalk, ?_⟩,
    primitives_of_spells hspells, fun e he u hu => closedBefore_of_spells hspells he hu,
    Recorder.record_of_sketch hsketch, fun stamp shareNodes => ?_⟩
  · rintro rfl
    exact hwalk
  · obtain ⟨g, hg, hprimitives, -⟩ := GraphImage.ofCalls_of_sketch hsketch .empty
      (List.not_mem_nil : stamp ∉ []) shareNodes
    exact ⟨g, hg, hprimitives⟩

/-- A stream of a named group and a use of it, stored. -/
def storedUse : Bytes :=
  [0x56, 0x47, 0x43, 0x49, 1, 0, 0, 0, 0, 0, 0] ++ [7, 0, 0, 0, 0, 1, 1, 0x67, 0, 0, 0] ++
    [1, 0, 0, 0, 0] ++ [7, 0, 0, 0, 1, 4, 0, 2, 0x16, 0, 0]

theorem drawable_storedUse : ∃ c p, ofBytes 0 storedUse = .ok c ∧
    (∀ q, LazyWalk c.tables.value c.resources c.contents.exports c.ops false 0 (.ofList c.ops)
      .start q ↔ q = p) ∧ c.primitives = .ok p.finish := by
  have hok : (ofBytes 0 storedUse).toBool = true := by decide +kernel
  cases h : ofBytes 0 storedUse with
  | error e =>
    rw [h] at hok
    cases hok
  | ok c =>
    obtain ⟨p, hwalk, hprimitives, -⟩ := drawable_of_ofBytes h
    exact ⟨c, p, rfl, hwalk, hprimitives⟩

end CompactImage

end VectorImage
