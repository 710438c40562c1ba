import VectorImage.Proofs.Call.Mirroring
import VectorImage.Proofs.Compact.Progress

/-!
The verdict on an encoding. The validation of the finished stream finds that its calls pass the
nesting check, and they do unless the strings under which the original exports its groups repeat:
equal strings become one entry of the tables.
-/

set_option autoImplicit false
set_option relaxedAutoImplicit false

namespace VectorImage

namespace Compact

variable {t : TableSet} {s u : Scan} {es : List Entry} {m : Nesting}

private theorem Scan.gradients_add (s : Scan) (n : Nesting) (e : Entry) :
    (s.add n e).gradients.size = s.gradients.size + e.call.isGradient.toNat := by
  obtain ⟨offset, call⟩ := e
  cases call with
  | gradient g => exact Array.size_push _
  | _ => rfl

/-- The calls that are taken in pass. -/
theorem Scan.Takes.passes (h : s.Takes es u) :
    Nesting.Passes s.gradients.size s.nesting (es.map Entry.call) u.nesting := by
  induction h with
  | nil s => exact .nil _ _
  | cons haccept hrest ih =>
    rw [Scan.gradients_add] at ih
    exact .cons haccept ih

/-- Calls that pass are taken in. -/
theorem Scan.takes_of_passes
    (h : Nesting.Passes s.gradients.size s.nesting (es.map Entry.call) m) :
    ∃ u, s.Takes es u ∧ u.nesting = m := by
  induction es generalizing s with
  | nil =>
    cases h
    exact ⟨s, .nil s, rfl⟩
  | cons e rest ih =>
    cases h with
    | @cons _ _ n _ _ _ haccept hrest =>
      rw [← Scan.gradients_add s n e] at hrest
      obtain ⟨u, htakes, hu⟩ := ih (s := s.add n e) hrest
      exact ⟨u, .cons haccept htakes, hu⟩

private theorem iterate_of_takes {i : Input UInt8} (hdecodes : Decodes t i es)
    (htakes : s.Takes es u) :
    ∃ j, (Parser.iterate (scanStep t) s).run i = .ok (u, j) := by
  induction hdecodes generalizing s with
  | @nil i hread =>
    cases htakes
    have hstep : (scanStep t u).run i = .ok (none, i) := by
      unfold scanStep
      rw [Parser.run_bind, hread]
      rfl
    exact ⟨i, Parser.run_iterate_done hstep⟩
  | @cons i k call rest hread hrest ih =>
    cases htakes with
    | @cons _ _ _ _ n haccept hlater =>
      have hstep : (scanStep t s).run i = .ok (some (s.add n ⟨i.offset, call⟩), k) := by
        unfold scanStep
        rw [Parser.run_bind, hread]
        dsimp only
        rw [haccept.accept]
        rfl
      have hforward : i.offset < k.offset := by
        rcases readCall_cases hread with ⟨hnone, -⟩ | ⟨_, -, hlt⟩
        · cases hnone
        · exact hlt
      rw [Parser.run_iterate_next hstep hforward]
      exact ih hlater

/-- A stream of instructions is valid exactly when its calls pass and close all they open. -/
theorem scan_iff {ops : Bytes} (hdecodes : Decodes t (.ofList ops) es) :
    (∃ contents, scan t ops = .ok contents) ↔
      ∃ m, Nesting.Passes 0 (.initialized t.images.size t.strings.size t.floatLists.size)
        (es.map Entry.call) m ∧ m.checkClosed = .ok () := by
  constructor
  · rintro ⟨contents, h⟩
    have hread := read_of_scan h
    obtain ⟨u, htakes, hclosed, -⟩ := hread.takes
    rw [hread.decodes.unique hdecodes] at htakes
    exact ⟨u.nesting, htakes.passes, hclosed⟩
  · rintro ⟨m, hpasses, hclosed⟩
    obtain ⟨u, htakes, rfl⟩ := Scan.takes_of_passes (s := .start t) hpasses
    obtain ⟨j, hiterate⟩ := iterate_of_takes hdecodes htakes
    have hparse : ((scanStep t |> Parser.iterate) (.start t)).parse ops = .ok u :=
      Parser.parse_eq_ok.mpr ⟨j, hiterate⟩
    exact ⟨_, bind_eq_ok.mpr ⟨u, hparse, bind_eq_ok.mpr ⟨(), hclosed, rfl⟩⟩⟩

end Compact

namespace Nesting

/-- Rounding changes nothing that the check sees. -/
theorem Passes.round {gradients : Nat} {n m : Nesting} {calls : List Call}
    (h : Passes gradients n calls m) (width : FloatWidth) :
    Passes gradients n (calls.map (Call.round width)) m := by
  induction h with
  | nil gradients n => exact .nil gradients n
  | cons hcall hrest ih =>
    rw [← Call.isGradient_round width] at ih
    exact .cons hcall.round ih

end Nesting

theorem exportIds_round (width : FloatWidth) (calls : List Call) :
    exportIds (calls.map (Call.round width)) = exportIds calls := by
  have hround (call : Call) : (call.round width).exportId? = call.exportId? := by
    cases call <;> rfl
  unfold exportIds
  rw [List.filterMap_map]
  exact congrArg (List.filterMap · calls) (funext hround)

/-- The document exports nothing. -/
theorem exportNames_of_parts (tables : Tables) (declared : Option Document) (tree : List Call) :
    exportNames (.init tables :: (declared.toList.map Call.document ++ tree)) =
      (exportIds tree).map fun id => tables.strings[id.toNat]? := by
  rw [exportNames, exportIds_append]
  cases declared <;> rfl

namespace CompactImage

theorem ofParts_iff {header : Compact.Header} {document : Document} {tables : Shared TableSet}
    {ops : Compact.Bytes} : (∃ c, ofParts header document tables ops = .ok c) ↔
      ∃ contents, Compact.scan tables.value ops = .ok contents := by
  unfold ofParts
  split
  · next contents h => exact iff_of_true ⟨_, rfl⟩ ⟨contents, h⟩
  · next e h =>
    rw [h]
    exact iff_of_false (fun ⟨_, hc⟩ => nomatch hc) (fun ⟨_, hc⟩ => nomatch hc)

end CompactImage

namespace Encoder

open VectorImage.Compact

theorem answers : backend.Answers := by
  intro e e' call reply h ids
  cases perform_emits h with
  | registered | gradient => exact Array.size_push _
  | write hne =>
    rw [Call.isGradient_eq_false.mpr hne]
    rfl
  | _ => rfl

/-- The tables, then the document if there is one, then the tree: its calls pass from the start of
the tree. -/
private theorem passes_tree {tables : Tables} {declared : Option Document} {tree : List Call}
    {m : Nesting}
    (h : Nesting.Passes 0 .start (.init tables :: (declared.toList.map Call.document ++ tree)) m) :
    ∃ gradients n, Nesting.Passes gradients n tree m ∧ n.scopes = [] ∧ n.exported = [] := by
  cases h with
  | cons hinit hrest =>
    obtain ⟨_, heq, rfl⟩ := hinit.of_start
    obtain ⟨n, hdocument, htree⟩ := hrest.split
    refine ⟨_, n, htree, ?_⟩
    cases declared with
    | none =>
      cases hdocument
      exact ⟨rfl, rfl⟩
    | some d =>
      cases hdocument with
      | cons hdocument hnil =>
        cases hnil
        cases hdocument
        exact ⟨rfl, rfl⟩

variable {b : Nat} {calls : List Call} {p : Position Encoder} {q : Position Sketch}

/-- A finished stream is valid exactly when no two groups are exported under equal strings. -/
theorem complete_iff {width : FloatWidth} {interner : Interner}
    (h : backend.Runs (.start (.start width interner)) calls p) (hpaces : Paces b q p)
    (hroom : b < 2 ^ 32) (hclosed : p.session.nesting.checkClosed = .ok ()) :
    (∃ c, p.session.state.complete = .ok c) ↔ (exportNames calls).Nodup := by
  obtain ⟨hphase, hscopes⟩ := Nesting.checkClosed_eq_ok.mp hclosed
  have hpasses := h.passes answers
  obtain ⟨tables, declared, tree, said, rfl, -, -, hreads, hcondenses, -⟩ :=
    condenses_of_runs h hphase ⟨.refl _, hpaces.tidy.indexable hroom⟩
  have hdistinct : (Resources.ofTables p.session.state.tables.tables).strings.toList.Nodup :=
    hpaces.tidy.strings.distinct
  obtain ⟨es, hdecodes, rfl⟩ := hreads.decodes 0
  rw [show (∃ c, p.session.state.complete = .ok c) ↔ _ from CompactImage.ofParts_iff,
    scan_iff hdecodes, exportNames_of_parts, ← exportIds_round width]
  have hstrings (id : StringId) : tables.strings[id.toNat]? =
      (Resources.ofTables (tables.round width)).strings[id.toNat]? :=
    List.getElem?_toArray.symm
  simp only [hstrings]
  rw [hcondenses.nodup_iff hdistinct]
  obtain ⟨gradients, n, htree, hnone, hfree⟩ := passes_tree hpasses
  constructor
  · rintro ⟨m, hsaid, -⟩
    exact hsaid.nodup_exportIds
  · intro hnodup
    -- nothing is open or closed on either side when the trees begin
    have hmirrors : Nesting.Mirrors (.ofTables (tables.round width))
        (.ofTables p.session.state.tables.tables) n
        (.initialized p.session.state.tables.images.size p.session.state.tables.strings.size
          p.session.state.tables.floatLists.size) := by
      refine ⟨Nesting.sound_initialized _ _ _, nofun, ?_, ?_, rfl, rfl, rfl⟩
      · rw [hnone]
        exact .nil
      · rw [hfree]
        exact .nil
    rw [← List.append_nil (exportIds _)] at hnodup
    obtain ⟨m, hsaid, hphase', hclosed'⟩ := (htree.round width).condensed hcondenses hmirrors
      hdistinct hnodup
    exact ⟨m, hsaid, Nesting.checkClosed_eq_ok.mpr ⟨hphase', hclosed' hscopes⟩⟩

end Encoder

theorem Moderate.countP_le {calls : List Call} (h : Moderate calls) :
    calls.countP Call.isGradient ≤ 2 ^ 32 := by
  have hlength := h.length
  have hcount := List.countP_le_length (p := Call.isGradient) (l := calls)
  omega

namespace CompactImage

variable {calls : List Call}

/-- A stream is encoded, as long as there is room, exactly when it passes and exports its groups
under different strings. -/
theorem replay_iff (width : FloatWidth) {b : Nat} {interner : Interner}
    (htidy : interner.shared.value.Tidy b) (hroom : Encoder.HasRoom b calls) :
    (∃ c, Encoder.backend.replay (.start width interner) calls = .ok c) ↔
      (∃ m, Nesting.Passes 0 .start calls m ∧ m.checkClosed = .ok ()) ∧
        (exportNames calls).Nodup := by
  have hruns {m : Nesting} (hpasses : Nesting.Passes 0 .start calls m)
      (hclosed : m.checkClosed = .ok ()) : ∃ p,
      Encoder.backend.Runs (.start (.start width interner)) calls p ∧
        p.session.nesting.checkClosed = .ok () ∧
        ((∃ c, p.session.state.complete = .ok c) ↔ (exportNames calls).Nodup) := by
    obtain ⟨q, hsketch, -, rfl⟩ := Sketch.current_start.runs_of_passes hpasses
      ((Nat.zero_add _).symm ▸ hroom.countP_le)
    obtain ⟨p, hencodes, hpaces⟩ := Encoder.runs_of_sketch width htidy hroom hsketch
      (Nesting.checkClosed_eq_ok.mp hclosed).1
    have hclosed' := hpaces.nesting ▸ hclosed
    exact ⟨p, hencodes, hclosed', Encoder.complete_iff hencodes hpaces hroom.entries hclosed'⟩
  constructor
  · rintro ⟨c, h⟩
    obtain ⟨m, hpasses, hclosed⟩ := Backend.passes_of_replay h Encoder.answers
    obtain ⟨p, hencodes, -, hcomplete⟩ := hruns hpasses hclosed
    obtain ⟨p', hencodes', -, hc⟩ := Backend.replay_eq_ok.mp h
    obtain rfl := hencodes.unique hencodes'
    exact ⟨⟨m, hpasses, hclosed⟩, hcomplete.mp ⟨c, hc⟩⟩
  · rintro ⟨⟨m, hpasses, hclosed⟩, hnames⟩
    obtain ⟨p, hencodes, hclosed', hcomplete⟩ := hruns hpasses hclosed
    obtain ⟨c, hc⟩ := hcomplete.mpr hnames
    exact ⟨c, Backend.replay_eq_ok.mpr ⟨p, hencodes, hclosed', hc⟩⟩

/-- There is room in tables of its own for a stream of moderate size that passes. -/
private theorem hasRoom_of_passes (hmoderate : Moderate calls) {m : Nesting}
    (hpasses : Nesting.Passes 0 .start calls m) (hclosed : m.checkClosed = .ok ()) :
    Encoder.HasRoom 0 calls := by
  obtain ⟨q, hsketch, -, rfl⟩ := Sketch.current_start.runs_of_passes hpasses
    ((Nat.zero_add _).symm ▸ hmoderate.countP_le)
  exact .of_moderate hmoderate hsketch (Nesting.checkClosed_eq_ok.mp hclosed).1

/-- A stream of moderate size is encoded exactly when it passes and exports its groups under
different strings. -/
theorem ofCalls_iff (hmoderate : Moderate calls) (stamp : Nat) (width : FloatWidth) :
    (∃ c, ofCalls stamp width calls = .ok c) ↔
      (∃ m, Nesting.Passes 0 .start calls m ∧ m.checkClosed = .ok ()) ∧
        (exportNames calls).Nodup := by
  have hfresh : (Interner.fresh stamp).shared.value.Tidy 0 := TableSet.tidy_empty
  have hiff {m : Nesting} (hpasses : Nesting.Passes 0 .start calls m)
      (hclosed : m.checkClosed = .ok ()) := replay_iff width hfresh
    (hasRoom_of_passes hmoderate hpasses hclosed)
  constructor
  · rintro ⟨c, h⟩
    obtain ⟨m, hpasses, hclosed⟩ := Backend.passes_of_replay h Encoder.answers
    exact (hiff hpasses hclosed).mp ⟨c, h⟩
  · rintro ⟨⟨m, hpasses, hclosed⟩, hnames⟩
    exact (hiff hpasses hclosed).mpr ⟨⟨m, hpasses, hclosed⟩, hnames⟩

/-- Every index into the tables of an encoding for which there was room has a successor among the
32-bit words. -/
theorem indexable_of_replay {width : FloatWidth} {b : Nat} {interner : Interner}
    (htidy : interner.shared.value.Tidy b) (hroom : Encoder.HasRoom b calls) {c : CompactImage}
    (h : Encoder.backend.replay (.start width interner) calls = .ok c) :
    c.tables.value.Indexable := by
  obtain ⟨m, hpasses, hclosed⟩ := Backend.passes_of_replay h Encoder.answers
  obtain ⟨q, hsketch, -, rfl⟩ := Sketch.current_start.runs_of_passes hpasses
    ((Nat.zero_add _).symm ▸ hroom.countP_le)
  obtain ⟨p, hruns, hpaces⟩ := Encoder.runs_of_sketch width htidy hroom hsketch
    (Nesting.checkClosed_eq_ok.mp hclosed).1
  obtain ⟨p', hruns', -, hcomplete⟩ := Backend.replay_eq_ok.mp h
  obtain rfl := hruns.unique hruns'
  obtain ⟨-, -, htables, -⟩ := ofParts_eq_ok hcomplete
  rw [htables]
  exact hpaces.tidy.indexable hroom.entries

/-- So it is for an encoding of a stream of moderate size. -/
theorem indexable_of_ofCalls (hmoderate : Moderate calls) {stamp : Nat} {width : FloatWidth}
    {c : CompactImage} (h : ofCalls stamp width calls = .ok c) : c.tables.value.Indexable := by
  obtain ⟨m, hpasses, hclosed⟩ := Backend.passes_of_replay h Encoder.answers
  have htidy : (Interner.fresh stamp).shared.value.Tidy 0 := TableSet.tidy_empty
  exact indexable_of_replay htidy (hasRoom_of_passes hmoderate hpasses hclosed) h

end CompactImage

end VectorImage
