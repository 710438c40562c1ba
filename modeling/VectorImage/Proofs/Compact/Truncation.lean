import VectorImage.Proofs.Compact.Faults
import VectorImage.Proofs.Compact.Layout

/-!
Stored bytes that break off. What a reader takes off some bytes it takes off alike whatever
follows, so two layouts that agree at the front agree section by section; and bytes that are
written end with their third section. Bytes that break off before are therefore refused, and, since
no instruction is looked at before every section has been read, refused for their form.
-/

set_option autoImplicit false
set_option relaxedAutoImplicit false

namespace VectorImage

namespace Parser.Reads

variable {τ ε α : Type} {p : Parser τ ε α} {first rest first' rest' : List τ} {a a' : α}

/-- A reader takes the same tokens off the same input. -/
theorem unique (h : p.Reads first a) (h' : p.Reads first' a')
    (heq : first ++ rest = first' ++ rest') : first = first' ∧ rest = rest' := by
  have hrun := h 0 rest
  rw [heq, h' 0 rest', Except.ok.injEq, Prod.mk.injEq, Input.mk.injEq] at hrun
  obtain ⟨-, -, rfl⟩ := hrun
  exact ⟨List.append_cancel_right heq, rfl⟩

end Parser.Reads

namespace Compact

theorem writeSection_eq_ok {payload bytes : Bytes} (h : writeSection payload = .ok bytes) :
    payload.length < 2 ^ 32 ∧ bytes = delimited payload := by
  obtain ⟨length, hlength, h⟩ := bind_eq_ok.mp h
  obtain ⟨hfit, rfl⟩ := fitU32_eq_ok.mp hlength
  cases h
  exact ⟨hfit, rfl⟩

namespace ImageLayout

/-- The bytes before the first section. -/
def front (l : ImageLayout) : Bytes :=
  magic ++ writeU16 majorVersion ++ writeU16 l.minor.toNat ++ writeByte l.flags ++
    writeU16 l.extension.length ++ l.extension

theorem bytes_eq (l : ImageLayout) : l.bytes = l.front ++ (delimited l.tables ++
    (delimited l.document ++ (delimited l.ops ++ l.extras.flatMap delimited))) := by
  simp only [bytes, front, List.append_assoc]

theorem front_reads (l : ImageLayout) :
    Header.read.Reads l.front ⟨majorVersion, l.minor.toNat, l.width⟩ :=
  readHeader_extended l.minor.toNat_lt l.flags l.extension_lt

/-- A layout that goes on to one without further sections is that one. -/
theorem eq_nil_of_append_eq {l m : ImageLayout} {more : Bytes} (hm : m.extras = [])
    (h : l.bytes ++ more = m.bytes) : more = [] := by
  rw [bytes_eq, bytes_eq, hm, List.flatMap_nil] at h
  simp only [List.append_assoc] at h
  obtain ⟨-, h⟩ := l.front_reads.unique m.front_reads h
  obtain ⟨-, h⟩ := (@delimited_reads .tables _ l.tables_lt).unique
    (delimited_reads m.tables_lt) h
  obtain ⟨-, h⟩ := (@delimited_reads .document _ l.document_lt).unique
    (delimited_reads m.document_lt) h
  obtain ⟨-, h⟩ := (@delimited_reads .ops _ l.ops_lt).unique (delimited_reads m.ops_lt) h
  exact (List.append_eq_nil_iff.mp h).2

end ImageLayout

end Compact

namespace CompactImage

open VectorImage.Compact

/-- What is written has a layout of three sections. -/
theorem layout_of_toBytes {c : CompactImage} {bytes : Bytes} (h : c.toBytes = .ok bytes) :
    ∃ l : ImageLayout, l.extras = [] ∧ l.bytes = bytes := by
  obtain ⟨tables, first, second, third, -, hfirst, hsecond, hthird, rfl⟩ := toBytes_eq_ok.mp h
  obtain ⟨htables, rfl⟩ := writeSection_eq_ok hfirst
  obtain ⟨hdocument, rfl⟩ := writeSection_eq_ok hsecond
  obtain ⟨hops, rfl⟩ := writeSection_eq_ok hthird
  refine ⟨⟨0, Header.flags c.header.width, [], tables, writeDocument c.document, c.ops, [],
    by decide, htables, hdocument, hops, fun _ h => nomatch h⟩, rfl, ?_⟩
  simp only [ImageLayout.bytes, List.flatMap_nil, List.append_nil]
  rfl

/-- The parts are refused for their form only. -/
theorem readParts_format : Parser.FailsOnly Error.IsFormat readParts :=
  readHeader_format.bind fun header => (readSection_format .tables).bind fun tables =>
    (Parser.FailsOnly.ofExcept ((readTables_format header.width).parse tables)).bind fun _ =>
      (readSection_format .document).bind fun document =>
        (Parser.FailsOnly.ofExcept (readDocument_format.parse document)).bind fun _ =>
          (readSection_format .ops).bind fun _ => skipSections_format.bind fun _ => .pure _

theorem ofParts_fails (header : Header) (document : Document) (tables : Shared TableSet)
    (ops : Bytes) : FailsWith Error.OfContent (ofParts header document tables ops) := by
  unfold ofParts
  split
  · exact .ok _
  · next e he =>
    exact .error (scan_fails tables.value ops e he)

/-- Bytes are refused for their form or for a reference. -/
theorem ofBytes_fails (stamp : Nat) (bytes : Bytes) :
    FailsWith Error.OfContent (ofBytes stamp bytes) := by
  rw [ofBytes_eq]
  exact (readParts_format.ofContent.parse bytes).bind fun _ _ => ofParts_fails _ _ _ _

/-- Written bytes that break off are refused for their form. -/
theorem ofBytes_short {c : CompactImage} {bytes short : Bytes} (h : c.toBytes = .ok bytes)
    (hbegins : short <+: bytes) (hne : short ≠ bytes) (stamp : Nat) :
    ∃ cause, ofBytes stamp short = .error (.format cause) := by
  cases hparts : readParts.parse short with
  | ok parts =>
    obtain ⟨l, rfl⟩ := layout_of_readParts hparts
    obtain ⟨m, hm, rfl⟩ := layout_of_toBytes h
    obtain ⟨more, hmore⟩ := hbegins
    have hnil := ImageLayout.eq_nil_of_append_eq hm hmore
    rw [hnil, List.append_nil] at hmore
    exact absurd hmore hne
  | error e =>
    obtain ⟨cause, rfl⟩ := readParts_format.parse short e hparts
    refine ⟨cause, ?_⟩
    rw [ofBytes_eq, hparts]
    rfl

/-- Truncation is detected wherever it strikes: of the bytes that an image is written as, every
strict prefix is refused for its form. And whatever the bytes, they are refused for their form or
for a reference, never for another cause. -/
theorem truncation_detected (stamp : Nat) :
    (∀ (c : CompactImage) (bytes short : Bytes), c.toBytes = .ok bytes → short <+: bytes →
      short ≠ bytes → ∃ cause, ofBytes stamp short = .error (.format cause)) ∧
    ∀ (bytes : Bytes) (e : Error), ofBytes stamp bytes = .error e →
      (∃ cause, e = .format cause) ∨ ∃ cause, e = .structural cause :=
  ⟨fun _ _ _ hbytes hbegins hne => ofBytes_short hbytes hbegins hne stamp,
    fun bytes => ofBytes_fails stamp bytes⟩

/-- The stored group with a transform of its own, while the table of transforms is empty. -/
def danglingGroup : Bytes := storedGroup.take 40 ++ [1, 1, 0, 2]

theorem storedGroup_truncated : ∃ c bytes, ofBytes 0 storedGroup = .ok c ∧
    c.toBytes = .ok bytes ∧ bytes.dropLast <+: bytes ∧ bytes.dropLast ≠ bytes ∧
    (∃ cause, ofBytes 1 bytes.dropLast = .error (.format cause)) ∧
    ∃ e, ofBytes 1 danglingGroup = .error e ∧
      ((∃ cause, e = .format cause) ∨ ∃ cause, e = .structural cause) := by
  have hread : (ofBytes 0 storedGroup).toBool = true := by decide +kernel
  have hwritten : (ofBytes 0 storedGroup >>= toBytes).toBool = true := by decide +kernel
  have hrefused : (ofBytes 1 danglingGroup).toBool = false := by decide +kernel
  obtain ⟨c, hc⟩ := toBool_eq_true.mp hread
  rw [hc] at hwritten
  obtain ⟨bytes, hbytes⟩ : ∃ bytes, c.toBytes = .ok bytes := toBool_eq_true.mp hwritten
  have hne : bytes.dropLast ≠ bytes := by
    obtain ⟨l, -, rfl⟩ := layout_of_toBytes hbytes
    have hlength : l.bytes.dropLast.length = l.bytes.length - 1 := List.length_dropLast
    have hpos : 0 < l.bytes.length := Nat.succ_pos _
    intro h
    rw [h] at hlength
    omega
  have hbegins : bytes.dropLast <+: bytes := List.dropLast_prefix bytes
  obtain ⟨hshort, hcause⟩ := truncation_detected 1
  refine ⟨c, bytes, hc, hbytes, hbegins, hne, hshort c _ _ hbytes hbegins hne, ?_⟩
  cases he : ofBytes 1 danglingGroup with
  | error e => exact ⟨e, rfl, hcause danglingGroup e he⟩
  | ok d =>
    rw [he] at hrefused
    cases hrefused

end CompactImage

end VectorImage
