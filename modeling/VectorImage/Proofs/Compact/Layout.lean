import VectorImage.Proofs.Compact.Stability
import VectorImage.Proofs.Compact.Storing

/-!
The layout of stored bytes, as far as a reader of any minor version knows it: a header with an
extension, three sections whose payloads may go on behind what is understood, and further sections.
Whatever is accepted has such a layout, and what is accepted depends on no more of it than the
width, the start of the first two payloads, and the instructions; so a layout of a newer minor
version is accepted as the older one that it extends.
-/

set_option autoImplicit false
set_option relaxedAutoImplicit false

namespace VectorImage

namespace LittleEndian

theorem read_lt (bytes : List UInt8) : read bytes < 256 ^ bytes.length := by
  induction bytes with
  | nil => exact Nat.one_pos
  | cons b bytes ih =>
    have hb := b.toNat_lt
    rw [read, List.length_cons, Nat.pow_succ]
    omega

/-- Every list of bytes is what the natural that it writes is written as. -/
theorem write_read (bytes : List UInt8) : write bytes.length (read bytes) = bytes := by
  induction bytes with
  | nil => rfl
  | cons b bytes ih =>
    have hlow : UInt8.ofNat (b.toNat + 256 * read bytes) = b := by
      refine UInt8.toNat_inj.mp ?_
      have hb := b.toNat_lt
      rw [UInt8.toNat_ofNat']
      omega
    have hhigh : (b.toNat + 256 * read bytes) / 256 = read bytes := by
      have hb := b.toNat_lt
      omega
    rw [List.length_cons, read, write, hlow, hhigh, ih]

end LittleEndian

namespace Compact

/-- A payload behind its length, as it stands in the stored form. -/
def delimited (payload : Bytes) : Bytes := writeU32 (UInt32.ofNat payload.length) ++ payload

/-- Stored bytes, taken apart as far as any minor version can be. -/
structure ImageLayout where
  minor : UInt16
  flags : UInt8
  extension : Bytes
  tables : Bytes
  document : Bytes
  ops : Bytes
  /-- The payloads of the sections after the known ones. -/
  extras : List Bytes
  extension_lt : extension.length < 2 ^ 16
  tables_lt : tables.length < 2 ^ 32
  document_lt : document.length < 2 ^ 32
  ops_lt : ops.length < 2 ^ 32
  extras_lt : ∀ payload ∈ extras, payload.length < 2 ^ 32

namespace ImageLayout

def width (l : ImageLayout) : FloatWidth := Header.widthOfFlags l.flags

def bytes (l : ImageLayout) : Bytes :=
  magic ++ writeU16 majorVersion ++ writeU16 l.minor.toNat ++ writeByte l.flags ++
    writeU16 l.extension.length ++ l.extension ++ delimited l.tables ++ delimited l.document ++
    delimited l.ops ++ l.extras.flatMap delimited

/-- `m` is what a newer minor version may have made of `l`: it keeps the flag of the width and the
instructions, goes on behind the tables, the document and the last section, and is free in the
minor version, the other flags and the extension of the header. -/
structure Extends (m l : ImageLayout) : Prop where
  width : m.flags &&& 1 = l.flags &&& 1
  tables : l.tables <+: m.tables
  document : l.document <+: m.document
  ops : m.ops = l.ops
  extras : l.extras <+: m.extras

theorem Extends.width_eq {m l : ImageLayout} (h : m.Extends l) : m.width = l.width := by
  have hbit (flags : UInt8) : (flags &&& 1).toNat = flags.toNat % 2 := by
    rw [UInt8.toNat_and]
    exact Nat.and_one_is_mod _
  unfold ImageLayout.width Header.widthOfFlags
  rw [← hbit, ← hbit, h.width]

end ImageLayout

/-! What was read stood there. -/

theorem readBytes_inv {n : Nat} {i j : Input UInt8} {taken : Bytes}
    (h : (readBytes n).run i = .ok (taken, j)) :
    i.rest = taken ++ j.rest ∧ taken.length = n ∧ j.offset = i.offset + n := by
  simp only [readBytes, Parser.takeExactly] at h
  split at h
  · next taken' left hs =>
    cases h
    obtain ⟨hrest, hlength⟩ := Parser.splitExactly_eq_some hs
    exact ⟨hrest, hlength, rfl⟩
  · cases h

theorem readWord_inv {k n : Nat} {i j : Input UInt8} (h : (readWord k).run i = .ok (n, j)) :
    i.rest = LittleEndian.write k n ++ j.rest ∧ n < 256 ^ k ∧ j.offset = i.offset + k := by
  obtain ⟨taken, htaken, rfl⟩ := Parser.run_map_eq_ok.mp h
  obtain ⟨hrest, rfl, hoffset⟩ := readBytes_inv htaken
  rw [LittleEndian.write_read]
  exact ⟨hrest, LittleEndian.read_lt taken, hoffset⟩

theorem readByte_inv {b : UInt8} {i j : Input UInt8} (h : readByte.run i = .ok (b, j)) :
    i.rest = writeByte b ++ j.rest := by
  obtain ⟨n, hn, rfl⟩ := Parser.run_map_eq_ok.mp h
  exact (readWord_inv hn).1

theorem readSection_inv {which : Section} {payload : Bytes} {i j : Input UInt8}
    (h : (readSection which).run i = .ok (payload, j)) :
    i.rest = delimited payload ++ j.rest ∧ payload.length < 2 ^ 32 ∧ i.offset < j.offset := by
  obtain ⟨length, k, hlength, hpayload⟩ := Parser.run_bind_eq_ok.mp h
  obtain ⟨n, hn, rfl⟩ := Parser.run_map_eq_ok.mp (Parser.run_mapError_eq_ok.mp hlength)
  obtain ⟨hi, hlt, hik⟩ := readWord_inv hn
  obtain ⟨hk, htaken, hkj⟩ := readBytes_inv (Parser.run_mapError_eq_ok.mp hpayload)
  rw [toNat_ofNat_of_lt hlt] at htaken hkj
  refine ⟨?_, htaken ▸ hlt, by omega⟩
  rw [hi, hk, delimited, writeU32, htaken, toNat_ofNat_of_lt hlt, List.append_assoc]

theorem readHeader_inv {header : Header} {i j : Input UInt8}
    (h : Header.read.run i = .ok (header, j)) : ∃ (minor : UInt16) (flags : UInt8)
      (extension : Bytes), extension.length < 2 ^ 16 ∧
      i.rest = magic ++ writeU16 majorVersion ++ writeU16 minor.toNat ++ writeByte flags ++
        writeU16 extension.length ++ extension ++ j.rest := by
  obtain ⟨first, i₁, hmagic, h⟩ := Parser.run_bind_eq_ok.mp h
  split at h
  · cases h
  next hfirst =>
  obtain ⟨major, i₂, hmajor, h⟩ := Parser.run_bind_eq_ok.mp h
  obtain ⟨minor, i₃, hminor, h⟩ := Parser.run_bind_eq_ok.mp h
  dsimp only at h
  split at h
  · cases h
  next hversion =>
  obtain ⟨flags, i₄, hflags, h⟩ := Parser.run_bind_eq_ok.mp h
  obtain ⟨length, i₅, hlength, h⟩ := Parser.run_bind_eq_ok.mp h
  obtain ⟨extension, i₆, hextension, h⟩ := Parser.run_bind_eq_ok.mp h
  obtain ⟨-, rfl⟩ := Parser.run_pure_eq_ok.mp h
  obtain ⟨h₁, -⟩ := readBytes_inv hmagic
  obtain ⟨h₂, -⟩ := readWord_inv hmajor
  obtain ⟨h₃, hlt, -⟩ := readWord_inv hminor
  obtain ⟨h₅, hfit, -⟩ := readWord_inv hlength
  obtain ⟨h₆, rfl, -⟩ := readBytes_inv hextension
  have hword : (UInt16.ofNat minor).toNat = minor := UInt16.toNat_ofNat_of_lt hlt
  refine ⟨.ofNat minor, flags, extension, hfit, ?_⟩
  rw [hword, h₁, h₂, h₃, readByte_inv hflags, h₅, h₆, not_not.mp hfirst, not_not.mp hversion]
  simp only [writeU16, List.append_assoc]

/-- Before the end of the input there is a section to skip. -/
theorem run_skipSections_next {i : Input UInt8} (h : i.rest ≠ []) :
    skipSections.run i = (readSection .extension >>= fun _ => skipSections).run i := by
  obtain ⟨offset, rest⟩ := i
  obtain ⟨b, rest, rfl⟩ := List.exists_cons_of_ne_nil h
  unfold skipSections
  rw [Parser.run_bind]
  cases hsection : (readSection .extension).run ⟨offset, b :: rest⟩ with
  | error e =>
    refine Parser.run_iterate_error ?_
    show (readSection .extension >>= fun _ => pure (some ())).run ⟨offset, b :: rest⟩ = _
    rw [Parser.run_bind, hsection]
  | ok r =>
    obtain ⟨payload, j⟩ := r
    refine Parser.run_iterate_next ?_ (readSection_inv hsection).2.2
    show (readSection .extension >>= fun _ => pure (some ())).run ⟨offset, b :: rest⟩ = _
    rw [Parser.run_bind, hsection]
    rfl

/-- What is skipped is sections up to the end of the input. -/
theorem skipSections_inv {i j : Input UInt8} (h : skipSections.run i = .ok ((), j)) :
    ∃ extras : List Bytes, i.rest = extras.flatMap delimited ∧
      ∀ payload ∈ extras, payload.length < 2 ^ 32 := by
  -- by induction on the bytes left, of which every section takes some
  induction hn : i.rest.length using Nat.strongRecOn generalizing i with
  | ind n ih =>
    by_cases hrest : i.rest = []
    · exact ⟨[], hrest, fun payload hpayload => nomatch hpayload⟩
    · rw [run_skipSections_next hrest] at h
      obtain ⟨payload, k, hsection, h⟩ := Parser.run_bind_eq_ok.mp h
      obtain ⟨hi, hfit, hforward⟩ := readSection_inv hsection
      have hless := ((readSection .extension).reaches hsection).length_lt hforward
      obtain ⟨extras, hk, hextras⟩ := ih k.rest.length (by omega) h rfl
      refine ⟨payload :: extras, ?_, List.forall_mem_cons.mpr ⟨hfit, hextras⟩⟩
      rw [List.flatMap_cons, hi, hk]

theorem delimited_reads {which : Section} {payload : Bytes} (h : payload.length < 2 ^ 32) :
    (readSection which).Reads (delimited payload) payload :=
  readSection_reads (bind_eq_ok.mpr ⟨_, fitU32_eq_ok.mpr ⟨h, rfl⟩, rfl⟩)

/-- Sections up to the end of the input are skipped. -/
theorem run_skipSections {extras : List Bytes} (h : ∀ payload ∈ extras, payload.length < 2 ^ 32)
    (offset : Nat) : ∃ j, skipSections.run ⟨offset, extras.flatMap delimited⟩ = .ok ((), j) := by
  induction extras generalizing offset with
  | nil => exact ⟨_, run_skipSections_nil offset⟩
  | cons payload extras ih =>
    obtain ⟨hfit, hextras⟩ := List.forall_mem_cons.mp h
    have hreads : (readSection .extension).Reads (delimited payload) payload := delimited_reads hfit
    have hsection := hreads offset (extras.flatMap delimited)
    obtain ⟨j, hj⟩ := ih hextras (offset + (delimited payload).length)
    have hne : delimited payload ++ extras.flatMap delimited ≠ [] := List.cons_ne_nil _ _
    rw [List.flatMap_cons, run_skipSections_next hne, Parser.run_bind, hsection]
    exact ⟨j, hj⟩

end Compact

namespace CompactImage

open VectorImage.Compact

/-- Of a layout, the minor version, the width and the known payloads are read, and nothing else. -/
theorem ofBytes_layout (stamp : Nat) (l : ImageLayout) : ofBytes stamp l.bytes = (do
    let tables ← (readTables l.width).parse l.tables
    let document ← readDocument.parse l.document
    ofParts ⟨majorVersion, l.minor.toNat, l.width⟩ document ⟨⟨stamp, []⟩, tables⟩ l.ops) := by
  have hheader := readHeader_extended l.minor.toNat_lt l.flags l.extension_lt
  have hbytes : l.bytes = magic ++ writeU16 majorVersion ++ writeU16 l.minor.toNat ++
      writeByte l.flags ++ writeU16 l.extension.length ++ l.extension ++ (delimited l.tables ++
        (delimited l.document ++ (delimited l.ops ++ l.extras.flatMap delimited))) := by
    simp only [ImageLayout.bytes, List.append_assoc]
  unfold ofBytes ImageLayout.width
  rw [hbytes, Parser.parse_eq, Parser.run_bind_of (hheader 0 _),
    Parser.run_bind_of (delimited_reads l.tables_lt _ _)]
  dsimp only
  cases (readTables (Header.widthOfFlags l.flags)).parse l.tables with
  | error e => rfl
  | ok tables =>
    rw [Parser.run_bind_of (Parser.run_ofExcept_eq_ok.mpr ⟨rfl, rfl⟩),
      Parser.run_bind_of (delimited_reads l.document_lt _ _)]
    cases readDocument.parse l.document with
    | error e => rfl
    | ok document =>
      obtain ⟨j, hskip⟩ := run_skipSections l.extras_lt _
      rw [Parser.run_bind_of (Parser.run_ofExcept_eq_ok.mpr ⟨rfl, rfl⟩),
        Parser.run_bind_of (delimited_reads l.ops_lt _ _), Parser.run_bind_of hskip]
      rfl

/-- Bytes whose parts can be read have a layout. -/
theorem layout_of_readParts {bytes : Bytes} {parts : Header × TableSet × Document × Bytes}
    (h : readParts.parse bytes = .ok parts) : ∃ l : ImageLayout, l.bytes = bytes := by
  obtain ⟨j, hrun⟩ := Parser.parse_eq_ok.mp h
  obtain ⟨header, _, hheader, hrun⟩ := Parser.run_bind_eq_ok.mp hrun
  obtain ⟨tables, _, htables, hrun⟩ := Parser.run_bind_eq_ok.mp hrun
  obtain ⟨_, _, hkept, hrun⟩ := Parser.run_bind_eq_ok.mp hrun
  obtain ⟨-, rfl⟩ := Parser.run_ofExcept_eq_ok.mp hkept
  obtain ⟨document, _, hdocument, hrun⟩ := Parser.run_bind_eq_ok.mp hrun
  obtain ⟨_, _, hkept, hrun⟩ := Parser.run_bind_eq_ok.mp hrun
  obtain ⟨-, rfl⟩ := Parser.run_ofExcept_eq_ok.mp hkept
  obtain ⟨ops, _, hops, hrun⟩ := Parser.run_bind_eq_ok.mp hrun
  obtain ⟨_, _, hskip, -⟩ := Parser.run_bind_eq_ok.mp hrun
  obtain ⟨minor, flags, extension, hextension, h₀⟩ := readHeader_inv hheader
  obtain ⟨h₁, htables, -⟩ := readSection_inv htables
  obtain ⟨h₂, hdocument, -⟩ := readSection_inv hdocument
  obtain ⟨h₃, hops, -⟩ := readSection_inv hops
  obtain ⟨extras, h₄, hextras⟩ := skipSections_inv hskip
  refine ⟨⟨minor, flags, extension, tables, document, ops, extras, hextension, htables, hdocument,
    hops, hextras⟩, ?_⟩
  rw [show bytes = (Input.ofList bytes).rest from rfl, h₀, h₁, h₂, h₃, h₄, ImageLayout.bytes]
  simp only [List.append_assoc]

/-- Bytes that are accepted have a layout. -/
theorem layout_of_ofBytes {stamp : Nat} {bytes : Bytes} {c : CompactImage}
    (h : ofBytes stamp bytes = .ok c) : ∃ l : ImageLayout, l.bytes = bytes := by
  rw [ofBytes_eq] at h
  obtain ⟨parts, hparse, -⟩ := bind_eq_ok.mp h
  exact layout_of_readParts hparse

/-- Newer minor versions are read as this one. Bytes that are accepted have a layout; and whatever
extends it, by another minor version, flags beside that of the width, another extension of the
header, bytes behind the tables and behind the document, and further sections, is accepted too and
has the same width, document, tables, instructions, gradients and exports. -/
theorem newer_minor_accepted {stamp : Nat} {bytes : Bytes} {c : CompactImage}
    (h : ofBytes stamp bytes = .ok c) : (∃ l : ImageLayout, l.bytes = bytes) ∧
      ∀ l m : ImageLayout, l.bytes = bytes → m.Extends l → ∀ stamp', ∃ d,
        ofBytes stamp' m.bytes = .ok d ∧
          d.header = ⟨c.header.major, m.minor.toNat, c.header.width⟩ ∧ d.document = c.document ∧
          d.tables.value = c.tables.value ∧ d.ops = c.ops ∧ d.contents = c.contents := by
  refine ⟨layout_of_ofBytes h, ?_⟩
  rintro l m rfl hext stamp'
  rw [ofBytes_layout] at h
  obtain ⟨tables, htables, h⟩ := bind_eq_ok.mp h
  obtain ⟨document, hdocument, h⟩ := bind_eq_ok.mp h
  obtain ⟨hheader, rfl, hshared, hops⟩ := ofParts_eq_ok h
  have hvalid : scan tables l.ops = .ok c.contents := by
    have hvalid := c.valid
    rwa [hshared, hops] at hvalid
  have hread : ofBytes stamp' m.bytes = .ok ⟨⟨majorVersion, m.minor.toNat, l.width⟩, c.document,
      ⟨⟨stamp', []⟩, tables⟩, l.ops, c.contents, hvalid⟩ := by
    obtain ⟨moreTables, hmore⟩ := hext.tables
    obtain ⟨moreDocument, hmore'⟩ := hext.document
    rw [ofBytes_layout, hext.width_eq, hext.ops, ← hmore, ← hmore',
      (readTables_stable _).parse htables, readDocument_stable.parse hdocument]
    exact ofParts_of_scan _ _ ⟨⟨stamp', []⟩, tables⟩ hvalid
  rw [hheader]
  exact ⟨_, hread, rfl, rfl, (congrArg Shared.value hshared).symm, hops.symm, rfl⟩

/-- A named group in 64 bits, beside a list of one number, in a document with a tint. -/
def namedGroup : ImageLayout where
  minor := 0
  flags := 1
  extension := []
  tables := [0, 1, 1, 0x67, 1, 1, 0, 0, 0, 0, 0, 0, 0xf0, 0x3f, 0, 0]
  document := [8, 0, 0, 0xff, 0xff]
  ops := [1, 4, 0, 2]
  extras := [[]]
  extension_lt := by decide
  tables_lt := by decide
  document_lt := by decide
  ops_lt := by decide
  extras_lt := by decide

/-- The same group as a newer minor version might store it. -/
def newerGroup : ImageLayout where
  minor := 7
  flags := 0xff
  extension := [1, 2, 3]
  tables := namedGroup.tables ++ [5, 6]
  document := namedGroup.document ++ [7]
  ops := namedGroup.ops
  extras := namedGroup.extras ++ [[8, 9], []]
  extension_lt := by decide
  tables_lt := by decide
  document_lt := by decide
  ops_lt := by decide
  extras_lt := by decide

theorem newerGroup_accepted : newerGroup.Extends namedGroup ∧ ∃ c d,
    ofBytes 0 namedGroup.bytes = .ok c ∧ ofBytes 1 newerGroup.bytes = .ok d ∧
      d.header = ⟨c.header.major, 7, c.header.width⟩ ∧ d.document = c.document ∧
        d.contents = c.contents := by
  have hext : newerGroup.Extends namedGroup :=
    ⟨by decide, List.prefix_append _ _, List.prefix_append _ _, rfl, List.prefix_append _ _⟩
  have hok : (ofBytes 0 namedGroup.bytes).toBool = true := by decide +kernel
  obtain ⟨c, hc⟩ := toBool_eq_true.mp hok
  obtain ⟨d, hd, hheader, hdocument, -, -, hcontents⟩ :=
    (newer_minor_accepted hc).2 namedGroup newerGroup rfl hext 1
  exact ⟨hext, c, d, hc, hd, hheader, hdocument, hcontents⟩

end CompactImage

end VectorImage
