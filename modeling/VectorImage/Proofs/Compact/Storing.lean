import VectorImage.Image
import VectorImage.Proofs.Call.Replay
import VectorImage.Proofs.Compact.Emission
import VectorImage.Proofs.Compact.Scan

/-!
The stored form loses nothing. However an image came about, its tables are built of their entries
and hold only numbers that its width keeps; so what is written is read back as it was, whenever
all lengths fit 32 bits.
-/

set_option autoImplicit false
set_option relaxedAutoImplicit false

namespace VectorImage

namespace Compact

variable {α : Type}

private theorem writeLength_succeeds {n : Nat} : (∃ bytes, writeLength n = .ok bytes) ↔ n < 2 ^ 32 :=
  ⟨fun ⟨_, h⟩ => (writeLength_eq_ok.mp h).1, fun h => ⟨_, writeLength_eq_ok.mpr ⟨h, rfl⟩⟩⟩

/-- A value behind its length is written when the length fits. -/
private theorem behindLength_succeeds {n : Nat} {f : Bytes → Bytes} :
    (∃ bytes, (do return f (← writeLength n) : Except Error Bytes) = .ok bytes) ↔ n < 2 ^ 32 := by
  rw [← writeLength_succeeds]
  constructor
  · rintro ⟨bytes, h⟩
    obtain ⟨length, hlength, -⟩ := bind_eq_ok.mp h
    exact ⟨length, hlength⟩
  · rintro ⟨length, hlength⟩
    exact ⟨_, bind_eq_ok.mpr ⟨length, hlength, rfl⟩⟩

private theorem writeList_succeeds {write : α → Except Error Bytes} {vs : List α} :
    (∃ bytes, writeList write vs = .ok bytes) ↔
      vs.length < 2 ^ 32 ∧ ∀ v ∈ vs, ∃ bytes, write v = .ok bytes := by
  rw [← writeLength_succeeds, ← mapM_succeeds]
  constructor
  · rintro ⟨bytes, h⟩
    obtain ⟨length, hlength, h⟩ := bind_eq_ok.mp h
    obtain ⟨entries, hentries, -⟩ := bind_eq_ok.mp h
    exact ⟨⟨length, hlength⟩, entries, hentries⟩
  · rintro ⟨⟨length, hlength⟩, entries, hentries⟩
    exact ⟨_, bind_eq_ok.mpr ⟨length, hlength, bind_eq_ok.mpr ⟨entries, hentries, rfl⟩⟩⟩

/-- The counts and lengths in a set of tables fit 32 bits. -/
structure TablesFit (t : TableSet) : Prop where
  images : t.images.size < 2 ^ 32
  strings : t.strings.size < 2 ^ 32
  floatLists : t.floatLists.size < 2 ^ 32
  transforms : t.transforms.size < 2 ^ 32
  paths : t.paths.size < 2 ^ 32
  rasters : ∀ r ∈ t.images.entries, r.bytes.length < 2 ^ 32
  texts : ∀ s ∈ t.strings.entries, (Utf8.encode s).length < 2 ^ 32
  lists : ∀ xs ∈ t.floatLists.entries, xs.length < 2 ^ 32
  verbs : ∀ p ∈ t.paths.entries, p.verbs.length < 2 ^ 32

theorem writeTables_succeeds {width : FloatWidth} {t : TableSet} :
    (∃ bytes, writeTables width t = .ok bytes) ↔ TablesFit t := by
  have himages : (∃ bytes, writeList writeRaster t.images.entries.toList = .ok bytes) ↔
      t.images.size < 2 ^ 32 ∧ ∀ r ∈ t.images.entries, r.bytes.length < 2 ^ 32 := by
    simp only [writeList_succeeds, writeRaster, behindLength_succeeds, Array.mem_toList_iff]
    rfl
  have hstrings : (∃ bytes, writeList writeString t.strings.entries.toList = .ok bytes) ↔
      t.strings.size < 2 ^ 32 ∧ ∀ s ∈ t.strings.entries, (Utf8.encode s).length < 2 ^ 32 := by
    simp only [writeList_succeeds, writeString, behindLength_succeeds, Array.mem_toList_iff]
    rfl
  have hlists : (∃ bytes, writeList (writeFloatList width) t.floatLists.entries.toList =
      .ok bytes) ↔
      t.floatLists.size < 2 ^ 32 ∧ ∀ xs ∈ t.floatLists.entries, xs.length < 2 ^ 32 := by
    simp only [writeList_succeeds, writeFloatList, behindLength_succeeds, Array.mem_toList_iff]
    rfl
  have htransforms : (∃ bytes, writeList (writeAffine width) t.transforms.entries.toList =
      .ok bytes) ↔ t.transforms.size < 2 ^ 32 := by
    rw [writeList_succeeds]
    exact ⟨fun h => h.1, fun h => ⟨h, fun m _ => ⟨_, rfl⟩⟩⟩
  have hpaths : (∃ bytes, writeList (writePath width) t.paths.entries.toList = .ok bytes) ↔
      t.paths.size < 2 ^ 32 ∧ ∀ p ∈ t.paths.entries, p.verbs.length < 2 ^ 32 := by
    simp only [writeList_succeeds, writePath, behindLength_succeeds, Array.mem_toList_iff]
    rfl
  constructor
  · rintro ⟨bytes, h⟩
    obtain ⟨images, h₁, h⟩ := bind_eq_ok.mp h
    obtain ⟨strings, h₂, h⟩ := bind_eq_ok.mp h
    obtain ⟨floatLists, h₃, h⟩ := bind_eq_ok.mp h
    obtain ⟨transforms, h₄, h⟩ := bind_eq_ok.mp h
    obtain ⟨paths, h₅, -⟩ := bind_eq_ok.mp h
    obtain ⟨hi, hr⟩ := himages.mp ⟨_, h₁⟩
    obtain ⟨hs, ht⟩ := hstrings.mp ⟨_, h₂⟩
    obtain ⟨hf, hl⟩ := hlists.mp ⟨_, h₃⟩
    obtain ⟨hp, hv⟩ := hpaths.mp ⟨_, h₅⟩
    exact ⟨hi, hs, hf, htransforms.mp ⟨_, h₄⟩, hp, hr, ht, hl, hv⟩
  · intro h
    obtain ⟨_, h₁⟩ := himages.mpr ⟨h.images, h.rasters⟩
    obtain ⟨_, h₂⟩ := hstrings.mpr ⟨h.strings, h.texts⟩
    obtain ⟨_, h₃⟩ := hlists.mpr ⟨h.floatLists, h.lists⟩
    obtain ⟨_, h₄⟩ := htransforms.mpr h.transforms
    obtain ⟨_, h₅⟩ := hpaths.mpr ⟨h.paths, h.verbs⟩
    exact ⟨_, bind_eq_ok.mpr ⟨_, h₁, bind_eq_ok.mpr ⟨_, h₂, bind_eq_ok.mpr ⟨_, h₃,
      bind_eq_ok.mpr ⟨_, h₄, bind_eq_ok.mpr ⟨_, h₅, rfl⟩⟩⟩⟩⟩⟩

private theorem writeSection_succeeds {payload : Bytes} :
    (∃ bytes, writeSection payload = .ok bytes) ↔ payload.length < 2 ^ 32 := by
  constructor
  · rintro ⟨bytes, h⟩
    obtain ⟨length, hlength, -⟩ := bind_eq_ok.mp h
    exact (fitU32_eq_ok.mp hlength).1
  · intro h
    exact ⟨_, bind_eq_ok.mpr ⟨_, fitU32_eq_ok.mpr ⟨h, rfl⟩, rfl⟩⟩

/-- The document's section has at most one byte of flags, six numbers and a color. -/
private theorem length_writeDocument (d : Document) : (writeDocument d).length < 2 ^ 32 := by
  have hword (x : Binary64) : (writeBinary64 x).length = 8 := LittleEndian.length_write 8 _
  have hcolor (c : Color) : (writeColor c).length = 4 := LittleEndian.length_write 4 _
  obtain ⟨width, height, viewBox, tint⟩ := d
  cases width <;> cases height <;> cases viewBox <;> cases tint <;>
    simp [writeDocument, writeOption, writeByte, writeRect, Rect.toList, hword, hcolor]

end Compact

namespace CompactImage

open VectorImage.Compact

/-- Every length that the stored form writes fits 32 bits. -/
structure LengthsFit (c : CompactImage) : Prop where
  tables : TablesFit c.tables.value
  tableBytes : ∀ bytes, writeTables c.header.width c.tables.value = .ok bytes →
    bytes.length < 2 ^ 32
  ops : c.ops.length < 2 ^ 32

theorem toBytes_eq_ok {c : CompactImage} {bytes : Bytes} : c.toBytes = .ok bytes ↔
    ∃ tables first second third, writeTables c.header.width c.tables.value = .ok tables ∧
      writeSection tables = .ok first ∧ writeSection (writeDocument c.document) = .ok second ∧
      writeSection c.ops = .ok third ∧
      bytes = (Header.current c.header.width).write ++ first ++ second ++ third := by
  constructor
  · intro h
    obtain ⟨tables, htables, h⟩ := bind_eq_ok.mp h
    obtain ⟨first, hfirst, h⟩ := bind_eq_ok.mp h
    obtain ⟨second, hsecond, h⟩ := bind_eq_ok.mp h
    obtain ⟨third, hthird, rfl⟩ := bind_pure_eq_ok.mp h
    exact ⟨tables, first, second, third, htables, hfirst, hsecond, hthird, rfl⟩
  · rintro ⟨tables, first, second, third, htables, hfirst, hsecond, hthird, rfl⟩
    exact bind_eq_ok.mpr ⟨tables, htables, bind_eq_ok.mpr ⟨first, hfirst,
      bind_eq_ok.mpr ⟨second, hsecond, bind_pure_eq_ok.mpr ⟨third, hthird, rfl⟩⟩⟩⟩

/-- An image is written when its lengths fit. -/
theorem toBytes_succeeds {c : CompactImage} : (∃ bytes, c.toBytes = .ok bytes) ↔ c.LengthsFit := by
  constructor
  · rintro ⟨bytes, h⟩
    obtain ⟨tables, first, second, third, htables, hfirst, -, hthird, -⟩ := toBytes_eq_ok.mp h
    refine ⟨writeTables_succeeds.mp ⟨_, htables⟩, fun bytes hbytes => ?_,
      writeSection_succeeds.mp ⟨_, hthird⟩⟩
    cases htables.symm.trans hbytes
    exact writeSection_succeeds.mp ⟨_, hfirst⟩
  · intro h
    obtain ⟨tables, htables⟩ : ∃ bytes, writeTables c.header.width c.tables.value = .ok bytes :=
      writeTables_succeeds.mpr h.tables
    obtain ⟨first, hfirst⟩ := writeSection_succeeds.mpr (h.tableBytes tables htables)
    obtain ⟨second, hsecond⟩ := writeSection_succeeds.mpr (length_writeDocument c.document)
    obtain ⟨third, hthird⟩ := writeSection_succeeds.mpr h.ops
    exact ⟨_, toBytes_eq_ok.mpr
      ⟨tables, first, second, third, htables, hfirst, hsecond, hthird, rfl⟩⟩

/-- The images that can come about: by a session of an encoder, whatever it answered on the way,
with tables of its own or with those of an image before it; from a stream; from stored bytes; from
a shared tree; through a viewport. -/
inductive Reachable : CompactImage → Prop
  | encoded {stamp : Nat} {width : FloatWidth} {calls : List Call} {c : CompactImage}
      (h : Encoder.backend.finish
        (Encoder.backend.issueAll (.start (.fresh stamp width)) calls).1 = .ok c) : Reachable c
  | seeded {d : CompactImage} (hd : Reachable d) {stamp : Nat} {calls : List Call}
      {c : CompactImage} (h : Encoder.backend.finish
        (Encoder.backend.issueAll (.start (.seeded stamp d.header.width d.tables)) calls).1 =
          .ok c) : Reachable c
  | replayed {stamp : Nat} {width : FloatWidth} {calls : List Call} {c : CompactImage}
      (h : ofCalls stamp width calls = .ok c) : Reachable c
  | loaded {stamp : Nat} {bytes : Bytes} {c : CompactImage} (h : ofBytes stamp bytes = .ok c) :
    Reachable c
  | converted {g : GraphImage} {stamp : Nat} {width : FloatWidth} {c : CompactImage}
      (h : g.toCompact stamp width = .ok c) : Reachable c
  | viewed {d : CompactImage} (hd : Reachable d) {stamp : Nat} {viewport : Rect} {prune : Bool}
      {tolerance : Binary64} {c : CompactImage}
      (h : d.withViewport stamp viewport prune tolerance = .ok c) : Reachable c

/-! What holds of the tables of every image. -/

section Tables

variable {P : FloatWidth → TableSet → Prop}
  (hempty : ∀ width, P width .empty)
  (hread : ∀ {width : FloatWidth} {t : TableSet} {i j : Input UInt8},
    (readTables width).run i = .ok (t, j) → P width t)
  (hgrows : ∀ {width : FloatWidth} {t u : TableSet}, t.Grows width u → P width t → P width u)

include hgrows in
private theorem tables_perform {e e' : Encoder} {call : Call} {reply : Reply}
    (he : P e.width e.tables) (h : Encoder.backend.perform e call = .ok (e', reply)) :
    P e'.width e'.tables := by
  have hemits := Encoder.perform_emits h
  rw [hemits.width]
  exact hgrows hemits.grown he

private theorem tables_complete {e : Encoder} {c : CompactImage} (he : P e.width e.tables)
    (h : Encoder.backend.complete e = .ok c) : P c.header.width c.tables.value := by
  obtain ⟨hheader, -, htables, -⟩ := ofParts_eq_ok h
  rw [hheader, htables]
  exact he

include hgrows in
private theorem tables_finish {e : Encoder} (he : P e.width e.tables) {calls : List Call}
    {c : CompactImage}
    (h : Encoder.backend.finish (Encoder.backend.issueAll (.start e) calls).1 = .ok c) :
    P c.header.width c.tables.value := by
  obtain ⟨_, -, h⟩ := bind_eq_ok.mp h
  exact tables_complete (Backend.issueAll_preserves
    (P := fun e : Encoder => P e.width e.tables) (tables_perform hgrows) he calls) h

include hgrows in
private theorem tables_replay {e : Encoder} (he : P e.width e.tables) {calls : List Call}
    {c : CompactImage} (h : Encoder.backend.replay e calls = .ok c) :
    P c.header.width c.tables.value := by
  obtain ⟨q, hruns, -, h⟩ := Backend.replay_eq_ok.mp h
  refine tables_complete (e := q.session.state) ?_ h
  refine hruns.preserves (P := fun p => P p.session.state.width p.session.state.tables) ?_ he
  intro p q call hp hstep
  cases hstep with
  | step hmap haccept hperform => exact tables_perform hgrows hp hperform

include hread in
private theorem tables_loaded {stamp : Nat} {bytes : Bytes} {c : CompactImage}
    (h : ofBytes stamp bytes = .ok c) : P c.header.width c.tables.value := by
  obtain ⟨⟨header, tables, document, ops⟩, hparse, h⟩ := bind_eq_ok.mp h
  obtain ⟨hheader, -, htables, -⟩ := ofParts_eq_ok h
  obtain ⟨j, hrun⟩ := Parser.parse_eq_ok.mp hparse
  obtain ⟨header', _, -, hrun⟩ := Parser.run_bind_eq_ok.mp hrun
  obtain ⟨_, _, -, hrun⟩ := Parser.run_bind_eq_ok.mp hrun
  obtain ⟨tables', _, hsection, hrun⟩ := Parser.run_bind_eq_ok.mp hrun
  obtain ⟨_, _, -, hrun⟩ := Parser.run_bind_eq_ok.mp hrun
  obtain ⟨_, _, -, hrun⟩ := Parser.run_bind_eq_ok.mp hrun
  obtain ⟨_, _, -, hrun⟩ := Parser.run_bind_eq_ok.mp hrun
  obtain ⟨_, _, -, hrun⟩ := Parser.run_bind_eq_ok.mp hrun
  obtain ⟨hresult, -⟩ := Parser.run_pure_eq_ok.mp hrun
  cases hresult
  obtain ⟨hsection, -⟩ := Parser.run_ofExcept_eq_ok.mp hsection
  obtain ⟨k, hsection⟩ := Parser.parse_eq_ok.mp hsection
  rw [hheader, htables]
  exact hread hsection

include hempty hread hgrows in
/-- What holds of empty tables and of tables that are read, and is kept when tables grow, holds
of the tables of every image. -/
theorem Reachable.tables_induct {c : CompactImage} (h : c.Reachable) :
    P c.header.width c.tables.value := by
  induction h with
  | encoded h => exact tables_finish hgrows (hempty _) h
  | @seeded d hd stamp calls c h ih =>
    exact tables_finish hgrows (e := .seeded stamp d.header.width d.tables) ih h
  | replayed h => exact tables_replay hgrows (hempty _) h
  | loaded h => exact tables_loaded hread h
  | converted h =>
    obtain ⟨calls, -, h⟩ := bind_eq_ok.mp h
    exact tables_replay hgrows (hempty _) h
  | @viewed d hd stamp viewport prune tolerance c h ih =>
    unfold withViewport at h
    split at h
    · obtain ⟨graph, -, h⟩ := bind_eq_ok.mp h
      obtain ⟨pruned, -, h⟩ := bind_eq_ok.mp h
      obtain ⟨calls, -, h⟩ := bind_eq_ok.mp h
      exact tables_replay hgrows (e := .seeded stamp d.header.width d.tables) ih h
    · cases h
      exact ih

end Tables

/-- The tables of an image can be stored without loss at its width. -/
def Storable (c : CompactImage) : Prop := c.tables.value.Stored c.header.width

/-- However an image came about, its tables can be stored without loss. -/
theorem Reachable.storable {c : CompactImage} (h : c.Reachable) : c.Storable :=
  h.tables_induct TableSet.stored_empty readTables_stored fun hgrows => hgrows.stored

/-- However an image came about, every entry of its tables has an index. -/
theorem Reachable.addressable {c : CompactImage} (h : c.Reachable) : c.tables.value.Addressable :=
  h.tables_induct (P := fun _ t => t.Addressable) (fun _ => TableSet.addressable_empty)
    readTables_addressable fun hgrows => hgrows.addressable

/-- What an image writes is read back as its parts. -/
private theorem parse_toBytes {c : CompactImage} (hc : c.Storable) {bytes : Bytes}
    (h : c.toBytes = .ok bytes) (stamp : Nat) :
    ofBytes stamp bytes = ofParts (.current c.header.width) c.document
      ⟨⟨stamp, []⟩, c.tables.value⟩ c.ops := by
  obtain ⟨tables, first, second, third, htables, hfirst, hsecond, hthird, rfl⟩ :=
    toBytes_eq_ok.mp h
  have hheader := readHeader_reads c.header.width
  have hbytes : (Header.current c.header.width).write ++ first ++ second ++ third =
      (Header.current c.header.width).write ++ (first ++ (second ++ (third ++ []))) := by
    simp only [List.append_assoc, List.append_nil]
  have hparse : readParts.parse
      ((Header.current c.header.width).write ++ first ++ second ++ third) =
        .ok (.current c.header.width, c.tables.value, c.document, c.ops) := by
    rw [hbytes]
    have htables' := (readTables_reads hc htables).parse
    have hdocument := (readDocument_reads c.document).parse
    exact Parser.parse_eq_ok.mpr ⟨_, Parser.run_bind_eq_ok.mpr ⟨_, _, hheader 0 _,
      Parser.run_bind_eq_ok.mpr ⟨_, _, readSection_reads hfirst _ _,
      Parser.run_bind_eq_ok.mpr ⟨_, _, Parser.run_ofExcept_eq_ok.mpr ⟨htables', rfl⟩,
      Parser.run_bind_eq_ok.mpr ⟨_, _, readSection_reads hsecond _ _,
      Parser.run_bind_eq_ok.mpr ⟨_, _, Parser.run_ofExcept_eq_ok.mpr ⟨hdocument, rfl⟩,
      Parser.run_bind_eq_ok.mpr ⟨_, _, readSection_reads hthird _ _,
      Parser.run_bind_eq_ok.mpr ⟨_, _, run_skipSections_nil _,
      Parser.run_pure_eq_ok.mpr ⟨rfl, rfl⟩⟩⟩⟩⟩⟩⟩⟩⟩
  rw [ofBytes_eq, hparse]
  rfl

/-- An image that can come about, and whose lengths fit, is written and read back whole: width,
document, tables, instructions and what validation finds in them, and so it is written as the
same bytes again. -/
theorem readback_of_reachable {c : CompactImage} (hc : c.Reachable) (hfit : c.LengthsFit)
    (stamp : Nat) : ∃ bytes d, c.toBytes = .ok bytes ∧ ofBytes stamp bytes = .ok d ∧
      d.header.width = c.header.width ∧ d.document = c.document ∧
      d.tables.value = c.tables.value ∧ d.ops = c.ops ∧ d.contents = c.contents ∧
      d.toBytes = .ok bytes := by
  obtain ⟨bytes, hbytes⟩ := toBytes_succeeds.mpr hfit
  have hread := parse_toBytes hc.storable hbytes stamp
  have hparts := ofParts_of_scan (.current c.header.width) c.document
    ⟨⟨stamp, []⟩, c.tables.value⟩ c.valid
  exact ⟨bytes, _, hbytes, hread.trans hparts, rfl, rfl, rfl, rfl, rfl, hbytes⟩

/-- A named group in 32 bits, with a quarter and a signaling NaN in its tables. -/
def storedGroup : Bytes :=
  [0x56, 0x47, 0x43, 0x49, 1, 0, 0, 0, 0, 0, 0] ++
    [16, 0, 0, 0, 0, 1, 1, 0x67, 1, 2, 0, 0, 0x80, 0x3e, 1, 0, 0xa0, 0x7f, 0, 0] ++
    [1, 0, 0, 0, 0] ++ [4, 0, 0, 0, 1, 4, 0, 2]

theorem readback_storedGroup : ∃ c bytes d, ofBytes 0 storedGroup = .ok c ∧
    c.toBytes = .ok bytes ∧ ofBytes 1 bytes = .ok d ∧ d.contents = c.contents ∧
      d.toBytes = .ok bytes := by
  have hok : (ofBytes 0 storedGroup >>= toBytes).toBool = true := by decide +kernel
  cases h : ofBytes 0 storedGroup with
  | error e =>
    rw [h] at hok
    cases hok
  | ok c =>
    have hwritten : (c.toBytes).toBool = true := by
      rw [h] at hok
      exact hok
    have hfit : c.LengthsFit := by
      refine toBytes_succeeds.mp ?_
      cases hbytes : c.toBytes with
      | error e =>
        rw [hbytes] at hwritten
        cases hwritten
      | ok bytes => exact ⟨bytes, rfl⟩
    obtain ⟨bytes, d, hbytes, hread, -, -, -, -, hcontents, hagain⟩ :=
      readback_of_reachable (.loaded h) hfit 1
    exact ⟨c, bytes, d, rfl, hbytes, hread, hcontents, hagain⟩

end CompactImage

end VectorImage
