import VectorImage.Proofs.Compact.Condensing
import VectorImage.Proofs.Compact.Validation

/-!
Encoding keeps the stream, not only its picture. The calls that an image replays condense those it
was encoded from, their numbers rounded.
-/

set_option autoImplicit false
set_option relaxedAutoImplicit false

namespace VectorImage

namespace CompactImage

open VectorImage.Compact

/-- An image that a stream is encoded to replays the tables, the document of the stream (or an
empty one) and then calls that condense the tree of the stream, its numbers rounded: every call
is there under indices that stand for the same values, but for gradients that had been defined
before; and a recorder takes them all. The bound is that of optional indices, which are stored one
higher. -/
theorem condenses_of_replay {width : FloatWidth} {interner : Interner} {calls : List Call}
    {c : CompactImage} (h : Encoder.backend.replay (.start width interner) calls = .ok c)
    (hindexable : c.tables.value.Indexable) :
    Recorder.record c.calls = .ok c.calls ∧
      ∃ (tables : Tables) (declared : Option Document) (tree said : List Call),
        calls = .init tables :: (declared.toList.map Call.document ++ tree) ∧
          (∀ call ∈ tree, call.OfTree) ∧
          c.calls = .init c.tables.value.tables :: .document (declared.getD .empty) :: said ∧
          Condenses (.ofTables (tables.round width)) (tree.map (Call.round width))
            (.ofTables c.tables.value.tables) said := by
  obtain ⟨p, hruns, hclosed, hcomplete⟩ := Backend.replay_eq_ok.mp h
  obtain ⟨-, hdocument, -, hops⟩ := ofParts_eq_ok hcomplete
  have hfinal := Encoder.reaches_of_complete hcomplete hindexable
  obtain ⟨tables, declared, tree, said, rfl, htree, hdeclared, hreads, hcondenses, hroom⟩ :=
    Encoder.condenses_of_runs hruns (Nesting.checkClosed_eq_ok.mp hclosed).1 hfinal
  have hentries := entries_of_reads hops hreads
  rw [← hentries, ← (read_of_scan c.valid).gradients_size] at hroom
  obtain ⟨s, hsketch, -, -⟩ := sketch hroom
  refine ⟨Recorder.record_of_sketch hsketch, tables, declared, tree, said, rfl, htree, ?_,
    hcondenses⟩
  rw [calls, hentries, hdocument, hdeclared]

/-- Two gradients from black to white whose offsets are equal lists, and a square that is filled
with the second. -/
def twinGradients : List Call :=
  [.gradient ⟨.linear ⟨.zero, .zero⟩ ⟨.one, .zero⟩, 0, [⟨0, 0, 0, 255⟩, ⟨255, 255, 255, 255⟩], .pad,
      none⟩,
    .gradient ⟨.linear ⟨.zero, .zero⟩ ⟨.one, .zero⟩, 1, [⟨0, 0, 0, 255⟩, ⟨255, 255, 255, 255⟩], .pad,
      none⟩,
    .shape ⟨.rect ⟨⟨.zero, .zero, .one, .one⟩, .zero, .zero⟩, ⟨some ⟨.gradient 1, .nonZero⟩, none⟩,
      none⟩]

/-- The two gradients are encoded, as their stream is of moderate size. -/
theorem ofCalls_twinGradients : ∃ c,
    ofCalls 0 .binary32 (.init ⟨[], [], [[.zero, .one], [.zero, .one]]⟩ :: twinGradients) = .ok c ∧
      c.tables.value.Indexable := by
  have hmoderate : Moderate (.init ⟨[], [], [[.zero, .one], [.zero, .one]]⟩ :: twinGradients) := by
    refine ⟨by decide, ?_⟩
    simp [twinGradients, Call.Moderate]
  have htaken : (Sketch.backend.replay .empty
      (.init ⟨[], [], [[.zero, .one], [.zero, .one]]⟩ :: twinGradients)).toBool = true := by
    decide +kernel
  obtain ⟨s, hsketch⟩ := toBool_eq_true.mp htaken
  obtain ⟨c, hc⟩ := (ofCalls_iff hmoderate 0 .binary32).mpr
    ⟨Backend.passes_of_replay hsketch Sketch.answers, by decide⟩
  exact ⟨c, hc, indexable_of_ofCalls hmoderate hc⟩

/-- The image of the two gradients replays, and what it replays condenses them. -/
theorem condenses_twinGradients : ∃ c said,
    ofCalls 0 .binary32 (.init ⟨[], [], [[.zero, .one], [.zero, .one]]⟩ :: twinGradients) = .ok c ∧
      Recorder.record c.calls = .ok c.calls ∧
      c.calls = .init c.tables.value.tables :: .document .empty :: said ∧
      Condenses (.ofTables (Tables.round .binary32 ⟨[], [], [[.zero, .one], [.zero, .one]]⟩))
        (twinGradients.map (Call.round .binary32)) (.ofTables c.tables.value.tables) said := by
  obtain ⟨c, hc, hindexable⟩ := ofCalls_twinGradients
  obtain ⟨hrecord, tables, declared, tree, said, hcalls, -, hsaid, hcondenses⟩ :=
    condenses_of_replay hc hindexable
  cases declared with
  | some d => cases hcalls
  | none =>
    cases hcalls
    exact ⟨c, said, hc, hrecord, hsaid, hcondenses⟩

end CompactImage

end VectorImage
