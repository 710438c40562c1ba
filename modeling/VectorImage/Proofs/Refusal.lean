import VectorImage.Proofs.Call.Recording
import VectorImage.Proofs.Compact.Refusal
import VectorImage.Proofs.Graph.Refusal

/-!
Refused calls leave no trace. Whatever calls a recorder, a graph builder or an encoder is given, and
whatever it answers to them, it comes to the same as another of its kind that is given only the
calls that the first one took.
-/

set_option autoImplicit false
set_option relaxedAutoImplicit false

namespace VectorImage

/-- A recorder forgets the calls that are refused. -/
theorem Recorder.forgets {calls : List Call} (hroom : calls.length ≤ 2 ^ 32) :
    backend.Forgets Eq .empty .empty calls := by
  have hstep : backend.InStep fun rest _ r r' =>
      r = r' ∧ r.gradients + rest.length ≤ 2 ^ 32 := by
    refine ⟨fun h => congrArg Recorder.gradients h.1, fun h => ⟨h.1, ?_⟩, ?_⟩
    · exact Nat.le_trans (Nat.add_le_add_left (Nat.le_succ _) _) h.2
    · rintro call rest n m r _ ⟨rfl, hlater⟩ -
      rw [List.length_cons] at hlater
      by_cases hgradient : ∃ g, call = .gradient g
      · obtain ⟨g, rfl⟩ := hgradient
        have hperform := perform_gradient (r := r) (by omega) g
        refine ⟨_, _, _, hperform, hperform, rfl, ?_⟩
        dsimp only
        omega
      · have hperform := perform_other r fun g hg => hgradient ⟨g, hg⟩
        refine ⟨_, _, _, hperform, hperform, rfl, ?_⟩
        dsimp only
        omega
  refine hstep.forgets (fun h _ => ?_) ⟨rfl, ?_⟩
  · rw [h.1]
    exact .ok rfl
  · show 0 + calls.length ≤ 2 ^ 32
    omega

/-- A sequence of calls of moderate size, given to a fresh recorder, to a graph builder that starts
from what earlier builds left to share, or to an encoder of either width with empty tables or with
tables of fewer than `2 ^ 30` entries: what is refused leaves no trace. The calls that were taken are
taken again, with the same answers, by a fresh one that is given no others, and both finish with the
same calls, the same tree, the same bytes, or the same error. -/
theorem forgets_refused {calls : List Call} (hmoderate : Moderate calls) :
    Recorder.backend.Forgets Eq .empty .empty calls ∧
      (∀ (stamps : List Nat) (seed : NodeCache) (stamp stamp' : Nat) (shareNodes : Bool),
        seed.Grown stamps → stamp ∉ stamps → stamp' ∉ stamps →
          GraphBuilder.backend.Forgets GraphImage.Alike (.start stamp shareNodes seed)
            (.start stamp' shareNodes seed) calls) ∧
      (∀ (stamp stamp' : Nat) (width : FloatWidth),
        Encoder.backend.Forgets CompactImage.Alike (.fresh stamp width) (.fresh stamp' width)
          calls) ∧
      ∀ (stamp stamp' : Nat) (width : FloatWidth) (tables : Shared TableSet),
        (∀ kind, tables.value.count kind < 2 ^ 30) →
          Encoder.backend.Forgets CompactImage.Alike (.seeded stamp width tables)
            (.seeded stamp' width tables) calls := by
  have hroom : calls.length ≤ 2 ^ 32 := by
    have hlength := hmoderate.length
    omega
  refine ⟨Recorder.forgets hroom, fun stamps seed stamp stamp' shareNodes hseed hstamp hstamp' => ?_,
    fun stamp stamp' width => ?_, fun stamp stamp' width tables hseed => ?_⟩
  · exact GraphBuilder.forgets hseed hseed hstamp hstamp' shareNodes shareNodes hroom
  · refine Encoder.forgets hmoderate width (fun kind => ?_) rfl
    show TableSet.empty.count kind < 2 ^ 30
    rw [TableSet.count_empty]
    decide
  · exact Encoder.forgets hmoderate width hseed rfl

/-- Refused are the document before the tables, an image that is not there, the document after it,
a use of a group inside the group, an end of a group too many, and a use of a name that no group
has. -/
def stumbling : List Call :=
  [.document .empty, .init ⟨[], ["badge"], [[.zero, .one]]⟩,
    .image ⟨0, ⟨.zero, .zero, .one, .one⟩, none⟩, .document .empty,
    .gradient ⟨.linear ⟨.zero, .zero⟩ ⟨.one, .zero⟩, 0,
      [⟨0, 0, 0, 255⟩, ⟨255, 255, 255, 255⟩], .pad, none⟩,
    .beginGroup ⟨none, 255, some 0⟩, .use ⟨0, none⟩, .endGroup, .endGroup, .use ⟨0, none⟩,
    .use ⟨1, none⟩]

/-- The calls of the sequence that are taken, and what they come to. -/
theorem forgets_refused_stumbling :
    (Moderate stumbling ∧
      taken stumbling (Recorder.backend.issueAll (.start .empty) stumbling).2 =
        [.init ⟨[], ["badge"], [[.zero, .one]]⟩,
          .gradient ⟨.linear ⟨.zero, .zero⟩ ⟨.one, .zero⟩, 0,
            [⟨0, 0, 0, 255⟩, ⟨255, 255, 255, 255⟩], .pad, none⟩,
          .beginGroup ⟨none, 255, some 0⟩, .endGroup, .use ⟨0, none⟩]) ∧
      Recorder.backend.Forgets Eq .empty .empty stumbling ∧
      GraphBuilder.backend.Forgets GraphImage.Alike (.start 1 true .empty) (.start 2 true .empty)
        stumbling ∧
      Encoder.backend.Forgets CompactImage.Alike (.fresh 1 .binary32) (.fresh 2 .binary32)
        stumbling ∧
      Encoder.backend.Forgets CompactImage.Alike (.seeded 1 .binary64 ⟨⟨0, []⟩, .empty⟩)
        (.seeded 2 .binary64 ⟨⟨0, []⟩, .empty⟩) stumbling := by
  have hmoderate : Moderate stumbling := by
    refine ⟨by decide, ?_⟩
    simp [stumbling, Call.Moderate]
  obtain ⟨hrecorder, hgraph, hfresh, hseeded⟩ := forgets_refused hmoderate
  refine ⟨⟨hmoderate, rfl⟩, hrecorder, ?_, hfresh 1 2 .binary32, ?_⟩
  · exact hgraph [] .empty 1 2 true .empty List.not_mem_nil List.not_mem_nil
  · refine hseeded 1 2 .binary64 _ fun kind => ?_
    rw [TableSet.count_empty]
    decide

end VectorImage
