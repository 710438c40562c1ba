import VectorImage.Proofs.Compact.Validation
import VectorImage.Proofs.Graph.Portrayal

/-!
Which streams the three builders take. A recorder and a graph take the same ones. An encoder takes
those among them that export their groups under different strings: it checks the stream again when
equal strings have become one entry of the tables.
-/

set_option autoImplicit false
set_option relaxedAutoImplicit false

namespace VectorImage

theorem GraphBuilder.answers : GraphBuilder.backend.Answers := by
  intro b b' call reply h ids
  obtain ⟨⟨_, b''⟩, hcall, hpair⟩ := map_eq_ok.mp h
  cases hpair
  cases call with
  | gradient g =>
    obtain ⟨_, _, -, hpure⟩ := state_bind_eq_ok.mp hcall
    obtain ⟨rfl, -⟩ := state_pure_eq_ok.mp hpure
    exact Array.size_push _
  | _ =>
    obtain ⟨_, _, -, hpure⟩ := state_bind_eq_ok.mp hcall
    obtain ⟨rfl, -⟩ := state_pure_eq_ok.mp hpure
    rfl

/-- A graph takes a stream of no more gradients than there are ids exactly when it passes. -/
theorem GraphImage.ofCalls_iff {calls : List Call} (hroom : calls.countP Call.isGradient ≤ 2 ^ 32)
    {stamps : List Nat} {seed : NodeCache} (hseed : seed.Grown stamps) {stamp : Nat}
    (hstamp : stamp ∉ stamps) (shareNodes : Bool) :
    (∃ g, GraphImage.ofCalls stamp shareNodes seed calls = .ok g) ↔
      ∃ m, Nesting.Passes 0 .start calls m ∧ m.checkClosed = .ok () := by
  constructor
  · rintro ⟨g, h⟩
    exact Backend.passes_of_replay h GraphBuilder.answers
  · rintro ⟨m, hpasses, hclosed⟩
    obtain ⟨s, hs⟩ := Sketch.replay_of_passes hpasses hclosed hroom
    obtain ⟨g, hg, -⟩ := GraphImage.ofCalls_of_sketch hs hseed hstamp shareNodes
    exact ⟨g, hg⟩

/-- A stream of moderate size builds a graph, whatever earlier builds left to share and whether
leaves are shared, exactly when it is recorded; and it is encoded, in either width, exactly when it
is recorded and no two of its exported groups have equal names. -/
theorem builds_iff_records {calls : List Call} (hmoderate : Moderate calls) :
    (∀ (stamps : List Nat) (seed : NodeCache) (stamp : Nat) (shareNodes : Bool),
      seed.Grown stamps → stamp ∉ stamps →
        ((∃ g, GraphImage.ofCalls stamp shareNodes seed calls = .ok g) ↔
          ∃ log, Recorder.record calls = .ok log)) ∧
      ∀ (stamp : Nat) (width : FloatWidth),
        (∃ c, CompactImage.ofCalls stamp width calls = .ok c) ↔
          (∃ log, Recorder.record calls = .ok log) ∧ (exportNames calls).Nodup := by
  rw [Recorder.record_iff hmoderate.countP_le]
  exact ⟨fun stamps seed stamp shareNodes hseed hstamp =>
      GraphImage.ofCalls_iff hmoderate.countP_le hseed hstamp shareNodes,
    CompactImage.ofCalls_iff hmoderate⟩

/-- Two exported groups, the strings of their names given. -/
def twoBadges (first second : String) : List Call :=
  [.init ⟨[], [first, second], []⟩, .beginGroup ⟨none, 255, some 0⟩, .endGroup,
    .beginGroup ⟨none, 255, some 1⟩, .endGroup]

private theorem moderate_twoBadges (first second : String) : Moderate (twoBadges first second) := by
  refine ⟨by simp [twoBadges], ?_⟩
  simp [twoBadges, Call.Moderate]

private theorem records_twoBadges (first second : String) :
    ∃ log, Recorder.record (twoBadges first second) = .ok log := by
  refine ⟨twoBadges first second, ?_⟩
  rfl

theorem builds_twoBadges :
    (∃ g, GraphImage.ofCalls 0 true .empty (twoBadges "a" "b") = .ok g) ∧
      ∃ c, CompactImage.ofCalls 0 .binary32 (twoBadges "a" "b") = .ok c := by
  obtain ⟨hgraph, hcompact⟩ := builds_iff_records (moderate_twoBadges "a" "b")
  exact ⟨(hgraph [] .empty 0 true .empty List.not_mem_nil).mpr (records_twoBadges "a" "b"),
    (hcompact 0 .binary32).mpr ⟨records_twoBadges "a" "b", by decide⟩⟩

/-- Two groups whose names are equal strings of different indices: recorded and built, but not
encoded. -/
theorem exists_twin_badges : ∃ calls, Moderate calls ∧
    (∃ log, Recorder.record calls = .ok log) ∧
    (∃ g, GraphImage.ofCalls 0 true .empty calls = .ok g) ∧
    ∀ (stamp : Nat) (width : FloatWidth), ¬ ∃ c, CompactImage.ofCalls stamp width calls = .ok c := by
  have hmoderate := moderate_twoBadges "a" "a"
  have hrecords := records_twoBadges "a" "a"
  have hpasses := (Recorder.record_iff hmoderate.countP_le).mp hrecords
  refine ⟨_, hmoderate, hrecords, ?_, fun stamp width hencodes => ?_⟩
  · exact (GraphImage.ofCalls_iff hmoderate.countP_le .empty List.not_mem_nil true).mpr hpasses
  · exact absurd ((CompactImage.ofCalls_iff hmoderate stamp width).mp hencodes).2 (by decide)

end VectorImage
