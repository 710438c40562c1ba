import VectorImage.Compact.Header
import VectorImage.Compact.Tables
import VectorImage.Proofs.Canonical.Table
import VectorImage.Proofs.Compact.Varint
import VectorImage.Proofs.Number.Precision
import VectorImage.Proofs.Text.Utf8

/-!
The stored elements read back what was written, whatever follows them: words, indices, numbers
that their width keeps, lists behind a count, table entries, the document, the header, sections.
-/

set_option autoImplicit false
set_option relaxedAutoImplicit false

namespace VectorImage

namespace Compact

variable {α β : Type}

open VectorImage.Parser (Reads)

theorem fitU32_eq_ok {n : Nat} {m : UInt32} :
    fitU32 n = .ok m ↔ n < 2 ^ 32 ∧ m = UInt32.ofNat n := by
  unfold fitU32
  split
  · next h =>
    rw [Except.ok.injEq]
    exact ⟨fun he => ⟨h, he.symm⟩, fun he => he.2.symm⟩
  · next h => exact iff_of_false (fun he => nomatch he) fun he => h he.1

theorem writeLength_eq_ok {n : Nat} {bytes : Bytes} :
    writeLength n = .ok bytes ↔ n < 2 ^ 32 ∧ bytes = writeVarint (UInt32.ofNat n) := by
  rw [writeLength, bind_pure_eq_ok]
  constructor
  · rintro ⟨m, hm, rfl⟩
    obtain ⟨hlt, rfl⟩ := fitU32_eq_ok.mp hm
    exact ⟨hlt, rfl⟩
  · rintro ⟨hlt, rfl⟩
    exact ⟨_, fitU32_eq_ok.mpr ⟨hlt, rfl⟩, rfl⟩

/-- What is written behind its length. -/
theorem writeLength_bind_eq_ok {n : Nat} {f : Bytes → Bytes} {bytes : Bytes} :
    (writeLength n >>= fun length => pure (f length)) = Except.ok bytes ↔
      n < 2 ^ 32 ∧ bytes = f (writeVarint (UInt32.ofNat n)) := by
  rw [bind_pure_eq_ok]
  constructor
  · rintro ⟨length, hlength, rfl⟩
    obtain ⟨hfit, rfl⟩ := writeLength_eq_ok.mp hlength
    exact ⟨hfit, rfl⟩
  · rintro ⟨hfit, rfl⟩
    exact ⟨_, writeLength_eq_ok.mpr ⟨hfit, rfl⟩, rfl⟩

/-! Words. -/

theorem readBytes_reads (bytes : Bytes) : (readBytes bytes.length).Reads bytes bytes :=
  .takeExactly bytes

theorem readWord_reads {k n : Nat} (h : n < 256 ^ k) :
    (readWord k).Reads (LittleEndian.write k n) n := by
  have hbytes := readBytes_reads (LittleEndian.write k n)
  rw [LittleEndian.length_write] at hbytes
  refine hbytes.bind_nil ?_
  rw [LittleEndian.read_write h]
  exact .pure n

theorem readByte_reads (b : UInt8) : readByte.Reads (writeByte b) b := by
  have hwrite : writeByte b = LittleEndian.write 1 b.toNat := by
    simp [writeByte, LittleEndian.write]
  rw [hwrite]
  refine (readWord_reads b.toNat_lt).bind_nil ?_
  rw [UInt8.ofNat_toNat]
  exact .pure b

theorem readU32_reads (n : UInt32) : readU32.Reads (writeU32 n) n := by
  refine (readWord_reads n.toNat_lt).bind_nil ?_
  rw [UInt32.ofNat_toNat]
  exact .pure n

theorem readBinary64_reads (x : Binary64) : readBinary64.Reads (writeBinary64 x) x := by
  refine (readWord_reads x.bits.toNat_lt).bind_nil ?_
  rw [UInt64.ofNat_toNat]
  exact .pure x

/-- A number that the stored width keeps. -/
theorem readFloat_reads {width : FloatWidth} {x : Binary64} (h : width.Keeps x) :
    (readFloat width).Reads (writeFloat width x) x := by
  cases width with
  | binary64 => exact readBinary64_reads x
  | binary32 =>
    refine (readWord_reads (Binary32.ofBinary64 x).bits.toNat_lt).bind_nil ?_
    rw [UInt32.ofNat_toNat]
    have hx : (Binary32.ofBinary64 x).widen = x := h
    rw [hx]
    exact .pure x

/-! Counts. -/

/-- A count of elements of a byte at least, with the elements after it. -/
theorem readCount_reads {n : Nat} {f : Nat → Reader β} {rest : Bytes} {b : β} (hfit : n < 2 ^ 32)
    (hcount : n ≤ rest.length) (hf : (f n).Reads rest b) :
    (readCount >>= f).Reads (writeVarint (UInt32.ofNat n) ++ rest) b := by
  intro offset after
  have hsplit : (Parser.splitExactly n (rest ++ after)).isNone = false := by
    have htake : rest = rest.take n ++ rest.drop n := (List.take_append_drop n rest).symm
    have hlength : (rest.take n).length = n := List.length_take_of_le hcount
    have happend := Parser.splitExactly_append (rest.take n) (rest.drop n ++ after)
    rw [hlength, ← List.append_assoc, ← htake] at happend
    rw [happend]
    rfl
  have hrun : readCount.run ⟨offset, writeVarint (UInt32.ofNat n) ++ (rest ++ after)⟩ =
      .ok (n, ⟨offset + (writeVarint (UInt32.ofNat n)).length, rest ++ after⟩) := by
    refine Parser.run_bind_eq_ok.mpr ⟨_, _, readVarint_reads _ offset (rest ++ after), ?_⟩
    refine Parser.run_bind_eq_ok.mpr ⟨_, _, rfl, ?_⟩
    dsimp only
    rw [toNat_ofNat_of_lt hfit, hsplit]
    rfl
  rw [List.append_assoc, List.length_append, ← Nat.add_assoc]
  exact Parser.run_bind_eq_ok.mpr ⟨_, _, hrun, hf _ after⟩

/-- Lists whose elements take a byte at least are no longer than their bytes. -/
theorem length_le_flatMap {write : α → Bytes} (vs : List α) (h : ∀ v ∈ vs, write v ≠ []) :
    vs.length ≤ (vs.flatMap write).length := by
  induction vs with
  | nil => exact Nat.zero_le _
  | cons v vs ih =>
    have hfirst := List.length_pos_iff.mpr (h v List.mem_cons_self)
    have hrest := ih fun w hw => h w (List.mem_cons_of_mem v hw)
    rw [List.flatMap_cons, List.length_append, List.length_cons]
    omega

/-! Table entries. -/

theorem writeFloat_ne_nil (width : FloatWidth) (x : Binary64) : writeFloat width x ≠ [] := by
  cases width <;> exact List.cons_ne_nil _ _

theorem readFloats_reads {width : FloatWidth} {xs : List Binary64}
    (h : ∀ x ∈ xs, width.Keeps x) : (readFloats width xs.length).Reads (writeFloats width xs) xs :=
  .replicate fun x hx => readFloat_reads (h x hx)

theorem readRaster_reads {r : Raster} {bytes : Bytes} (h : writeRaster r = .ok bytes) :
    readRaster.Reads bytes r := by
  obtain ⟨hfit, rfl⟩ := writeLength_bind_eq_ok.mp h
  rw [List.append_assoc, List.append_assoc]
  refine (readU32_reads r.width).bind ((readU32_reads r.height).bind ?_)
  exact readCount_reads hfit (Nat.le_refl _) ((readBytes_reads r.bytes).bind_nil (.pure _))

theorem readString_reads {s : String} {bytes : Bytes} (h : writeString s = .ok bytes) :
    readString.Reads bytes s := by
  obtain ⟨hfit, rfl⟩ := writeLength_bind_eq_ok.mp h
  refine readCount_reads hfit (Nat.le_refl _) ((readBytes_reads _).bind_nil ?_)
  rw [Utf8.decode_encode]
  exact .pure s

theorem readFloatList_reads {width : FloatWidth} {xs : List Binary64} {bytes : Bytes}
    (hkept : ∀ x ∈ xs, width.Keeps x) (h : writeFloatList width xs = .ok bytes) :
    (readFloatList width).Reads bytes xs := by
  obtain ⟨hfit, rfl⟩ := writeLength_bind_eq_ok.mp h
  exact readCount_reads hfit (length_le_flatMap _ fun x _ => writeFloat_ne_nil width x)
    (readFloats_reads hkept)

theorem readAffine_reads {width : FloatWidth} {m : Affine} {bytes : Bytes}
    (hkept : ∀ x ∈ m.toList, width.Keeps x) (h : writeAffine width m = .ok bytes) :
    (readAffine width).Reads bytes m := by
  cases h
  obtain ⟨a, b, c, d, e, f⟩ := m
  have hread (x : Binary64) (hx : x ∈ [a, b, c, d, e, f]) :
      (readFloat width).Reads (writeFloat width x) x := readFloat_reads (hkept x hx)
  show (readAffine width).Reads
    (writeFloat width a ++ (writeFloat width b ++ (writeFloat width c ++ (writeFloat width d ++
      (writeFloat width e ++ (writeFloat width f ++ [])))))) _
  refine (hread a (by simp)).bind ((hread b (by simp)).bind ((hread c (by simp)).bind
    ((hread d (by simp)).bind ((hread e (by simp)).bind ((hread f (by simp)).bind ?_)))))
  exact .pure _

theorem readPath_reads {width : FloatWidth} {p : Path} {bytes : Bytes}
    (hkept : ∀ x ∈ p.coords, width.Keeps x) (h : writePath width p = .ok bytes) :
    (readPath width).Reads bytes p := by
  obtain ⟨hfit, rfl⟩ := writeLength_bind_eq_ok.mp h
  have hverbs : (Parser.replicate readVerb p.verbs.length).Reads (p.verbs.map Verb.code)
      p.verbs := by
    rw [← List.flatMap_singleton' (p.verbs.map Verb.code), List.flatMap_map]
    refine Reads.replicate fun v _ => (readByte_reads v.code).bind_nil ?_
    exact .ofExcept (Verb.ofCode_code v)
  have hcoords := readFloats_reads hkept
  rw [Path.length_coords] at hcoords
  rw [List.append_assoc]
  refine readCount_reads hfit ?_ (hverbs.bind (hcoords.bind_nil ?_))
  · rw [List.length_append, List.length_map]
    exact Nat.le_add_right _ _
  · exact .ofExcept (Path.ofParts_parts p)

/-- Entries read one by one are loaded in order. -/
theorem readTable_reads [Keyed α] {read : Reader α} {write : α → Except Error Bytes}
    {vs : List α} {entries : List Bytes}
    (hread : ∀ v ∈ vs, ∀ bytes, write v = .ok bytes → read.Reads bytes v)
    (hwrite : vs.mapM write = .ok entries) {t : CanonicalTable α}
    (hfit : t.size + vs.length ≤ 2 ^ 32) :
    (readTable read vs.length t).Reads entries.flatten (vs.foldl CanonicalTable.push t) := by
  induction vs generalizing entries t with
  | nil =>
    obtain rfl := mapM_nil_eq_ok.mp hwrite
    exact .pure t
  | cons v vs ih =>
    obtain ⟨first, rest, hfirst, hrest, rfl⟩ := mapM_cons_eq_ok.mp hwrite
    rw [List.length_cons] at hfit
    rw [List.flatten_cons]
    refine (hread v List.mem_cons_self first hfirst).bind ?_
    refine .ofExcept_bind (CanonicalTable.pushIndexed_of_room (by omega) v) ?_
    refine ih (fun w hw => hread w (List.mem_cons_of_mem v hw)) hrest ?_
    rw [CanonicalTable.size_push]
    omega

/-- A table that is built of its entries is read back whole. -/
theorem readCounted_reads [Keyed α] {read : Reader α} {write : α → Except Error Bytes}
    {t : CanonicalTable α} (hbuilt : t.Built) {bytes : Bytes}
    (hread : ∀ v ∈ t.entries, ∀ bytes, write v = .ok bytes → read.Reads bytes v)
    (hbyte : ∀ v bytes, write v = .ok bytes → bytes ≠ [])
    (h : writeList write t.entries.toList = .ok bytes) : (readCounted read).Reads bytes t := by
  obtain ⟨length, hlength, h⟩ := bind_eq_ok.mp h
  obtain ⟨entries, hentries, h⟩ := bind_eq_ok.mp h
  obtain ⟨hfit, rfl⟩ := writeLength_eq_ok.mp hlength
  cases h
  have hcount {vs : List α} {entries : List Bytes} (hentries : vs.mapM write = .ok entries) :
      vs.length ≤ entries.flatten.length := by
    induction vs generalizing entries with
    | nil => exact Nat.zero_le _
    | cons v vs ih =>
      obtain ⟨first, rest, hfirst, hrest, rfl⟩ := mapM_cons_eq_ok.mp hentries
      have hpos := List.length_pos_iff.mpr (hbyte v first hfirst)
      have hle := ih hrest
      rw [List.flatten_cons, List.length_append, List.length_cons]
      omega
  refine readCount_reads hfit (hcount hentries) ?_
  have htable := readTable_reads (t := .empty)
    (fun v hv => hread v (Array.mem_toList_iff.mp hv)) hentries
    (by show 0 + _ ≤ _; omega)
  have hsame : t.entries.toList.foldl CanonicalTable.push .empty = t := hbuilt
  rw [hsame] at htable
  exact htable

/-! The document. -/

/-- An optional field that is written by what stands for it. -/
theorem readOption_reads {R : β → α → Prop} {read : Reader α} {write : β → Bytes}
    {present : Bool} {i : Option β} {v : Option α} (hpresent : present = i.isSome)
    (hrel : Option.Rel R i v) (h : ∀ k a, R k a → read.Reads (write k) a) :
    (readOption present read).Reads (writeOption write i) v := by
  subst hpresent
  cases hrel with
  | none => exact .pure none
  | some hk => exact (h _ _ hk).map

private theorem readField_reads {read : Reader α} {write : α → Bytes} {present : Bool}
    {v : Option α} (hpresent : present = v.isSome) (h : ∀ a, read.Reads (write a) a) :
    (readOption present read).Reads (writeOption write v) v := by
  refine readOption_reads (R := Eq) hpresent ?_ fun k a hka => hka ▸ h k
  cases v with
  | none => exact .none
  | some a => exact .some rfl

private theorem readRect_reads (r : Rect) : readRect.Reads (writeRect r) r := by
  have hwrite : writeRect r = writeBinary64 r.x0 ++ (writeBinary64 r.y0 ++ (writeBinary64 r.x1 ++
      (writeBinary64 r.y1 ++ []))) := by
    simp only [writeRect, Rect.toList, List.flatMap_cons, List.flatMap_nil]
  rw [hwrite]
  refine (readBinary64_reads r.x0).bind ((readBinary64_reads r.y0).bind
    ((readBinary64_reads r.x1).bind ((readBinary64_reads r.y1).bind ?_)))
  exact .pure r

theorem readColor_reads (c : Color) : readColor.Reads (writeColor c) c := by
  have hread := (readU32_reads c.toArgb).map (g := Color.ofArgb)
  rw [Color.ofArgb_toArgb] at hread
  exact hread

/-- Each flag of a document says that its field is there. -/
private theorem hasBit_documentFlags (d : Document) :
    hasBit (documentFlags d) 0 = d.width.isSome ∧ hasBit (documentFlags d) 1 = d.height.isSome ∧
      hasBit (documentFlags d) 2 = d.viewBox.isSome ∧
      hasBit (documentFlags d) 3 = d.tint.isSome := by
  unfold documentFlags
  generalize d.width.isSome = width
  generalize d.height.isSome = height
  generalize d.viewBox.isSome = viewBox
  generalize d.tint.isSome = tint
  revert width height viewBox tint
  decide

theorem readDocument_reads (d : Document) : readDocument.Reads (writeDocument d) d := by
  obtain ⟨hwidth, hheight, hviewBox, htint⟩ := hasBit_documentFlags d
  unfold writeDocument
  simp only [List.append_assoc]
  refine (readByte_reads _).bind ?_
  refine (readField_reads hwidth readBinary64_reads).bind ?_
  refine (readField_reads hheight readBinary64_reads).bind ?_
  refine (readField_reads hviewBox readRect_reads).bind ?_
  refine (readField_reads htint readColor_reads).bind_nil ?_
  exact .pure d

/-! The header and the sections. -/

/-- A header with other flags beside the width, and with an extension that is skipped. -/
theorem readHeader_extended {minor : Nat} (hminor : minor < 256 ^ 2) (flags : UInt8)
    {extension : Bytes} (hextension : extension.length < 256 ^ 2) :
    Header.read.Reads (magic ++ writeU16 majorVersion ++ writeU16 minor ++ writeByte flags ++
      writeU16 extension.length ++ extension) ⟨majorVersion, minor, Header.widthOfFlags flags⟩ := by
  have hmagic : (readBytes 4).Reads magic magic := readBytes_reads magic
  have hmajor : (readWord 2).Reads (writeU16 majorVersion) majorVersion := readWord_reads (by decide)
  simp only [List.append_assoc]
  exact hmagic.bind (hmajor.bind ((readWord_reads hminor).bind ((readByte_reads flags).bind
    ((readWord_reads hextension).bind ((readBytes_reads extension).bind_nil (.pure _))))))

theorem readHeader_reads (width : FloatWidth) :
    Header.read.Reads (Header.current width).write (.current width) := by
  have hread := @readHeader_extended minorVersion (by decide) (Header.flags width) [] (by decide)
  have hwidth : Header.widthOfFlags (Header.flags width) = width := by cases width <;> rfl
  rw [hwidth, List.append_nil] at hread
  exact hread

theorem readSection_reads {which : Section} {payload bytes : Bytes}
    (h : writeSection payload = .ok bytes) : (readSection which).Reads bytes payload := by
  obtain ⟨length, hlength, h⟩ := bind_eq_ok.mp h
  obtain ⟨hfit, rfl⟩ := fitU32_eq_ok.mp hlength
  cases h
  refine (readU32_reads _).mapError.bind ?_
  rw [toNat_ofNat_of_lt hfit]
  exact (readBytes_reads payload).mapError

/-- At the end of the input there are no more sections. -/
theorem run_skipSections_nil (offset : Nat) :
    skipSections.run ⟨offset, []⟩ = .ok ((), ⟨offset, []⟩) := Parser.run_iterate_done rfl

end Compact

end VectorImage
