import VectorImage.Proofs.Compact.Reading

/-!
Tables that can be stored without loss. Each is determined by its entries, and every number in
them is one that the width keeps. Loading and interning give such tables, and such tables are
read back as they were written.
-/

set_option autoImplicit false
set_option relaxedAutoImplicit false

namespace VectorImage

/-- Tables built of their entries, whose numbers a width keeps. -/
structure TableSet.Stored (width : FloatWidth) (t : TableSet) : Prop where
  images : t.images.Built
  strings : t.strings.Built
  floatLists : t.floatLists.Built
  transforms : t.transforms.Built
  paths : t.paths.Built
  keptFloats : ∀ xs ∈ t.floatLists.entries, ∀ x ∈ xs, width.Keeps x
  keptTransforms : ∀ m ∈ t.transforms.entries, ∀ x ∈ m.toList, width.Keeps x
  keptPaths : ∀ p ∈ t.paths.entries, ∀ x ∈ p.coords, width.Keeps x

variable {width : FloatWidth} {t : TableSet}

theorem TableSet.stored_empty (width : FloatWidth) : TableSet.empty.Stored width := by
  refine ⟨rfl, rfl, rfl, rfl, rfl, ?_, ?_, ?_⟩
  · intro xs hxs
    exact absurd hxs (Array.not_mem_empty xs)
  · intro m hm
    exact absurd hm (Array.not_mem_empty m)
  · intro p hp
    exact absurd hp (Array.not_mem_empty p)

/-- Every entry of the tables has an index. -/
structure TableSet.Addressable (t : TableSet) : Prop where
  images : t.images.size ≤ 2 ^ 32
  strings : t.strings.size ≤ 2 ^ 32
  floatLists : t.floatLists.size ≤ 2 ^ 32
  transforms : t.transforms.size ≤ 2 ^ 32
  paths : t.paths.size ≤ 2 ^ 32

theorem TableSet.addressable_empty : TableSet.empty.Addressable :=
  ⟨Nat.zero_le _, Nat.zero_le _, Nat.zero_le _, Nat.zero_le _, Nat.zero_le _⟩

/-! Interning values that the width keeps. -/

/-- What the entries of an array and a value pushed to it satisfy. -/
private theorem forall_mem_push {α : Type} {P : α → Prop} {xs : Array α} {x : α}
    (hxs : ∀ y ∈ xs, P y) (hx : P x) : ∀ y ∈ xs.push x, P y := by
  intro y hy
  rcases Array.mem_push.mp hy with hy | rfl
  · exact hxs y hy
  · exact hx

private theorem CanonicalTable.size_push_le {α : Type} [Keyed α] {table : CanonicalTable α} (v : α)
    (hroom : table.size < 2 ^ 32) : (table.push v).size ≤ 2 ^ 32 := by
  rw [size_push]
  exact hroom

/-- Tables that `t` becomes when values are pushed that were not found, that the width keeps and
that get an index. -/
inductive TableSet.Grows (width : FloatWidth) (t : TableSet) : TableSet → Prop
  | refl : Grows width t t
  | image {u : TableSet} (h : Grows width t u) {v : Raster} (hnew : u.images.find? v = none)
      (hroom : u.images.size < 2 ^ 32) :
    Grows width t { u with images := u.images.push v }
  | string {u : TableSet} (h : Grows width t u) {v : String} (hnew : u.strings.find? v = none)
      (hroom : u.strings.size < 2 ^ 32) :
    Grows width t { u with strings := u.strings.push v }
  | floatList {u : TableSet} (h : Grows width t u) {v : List Binary64}
      (hnew : u.floatLists.find? v = none) (hroom : u.floatLists.size < 2 ^ 32)
      (hv : ∀ x ∈ v, width.Keeps x) :
    Grows width t { u with floatLists := u.floatLists.push v }
  | transform {u : TableSet} (h : Grows width t u) {v : Affine}
      (hnew : u.transforms.find? v = none) (hroom : u.transforms.size < 2 ^ 32)
      (hv : ∀ x ∈ v.toList, width.Keeps x) :
    Grows width t { u with transforms := u.transforms.push v }
  | path {u : TableSet} (h : Grows width t u) {v : Path} (hnew : u.paths.find? v = none)
      (hroom : u.paths.size < 2 ^ 32) (hv : ∀ x ∈ v.coords, width.Keeps x) :
    Grows width t { u with paths := u.paths.push v }

namespace TableSet.Grows

variable {u v : TableSet}

theorem trans (h : t.Grows width u) (h' : u.Grows width v) : t.Grows width v := by
  induction h' with
  | refl => exact h
  | image _ hnew hroom ih => exact ih.image hnew hroom
  | string _ hnew hroom ih => exact ih.string hnew hroom
  | floatList _ hnew hroom hv ih => exact ih.floatList hnew hroom hv
  | transform _ hnew hroom hv ih => exact ih.transform hnew hroom hv
  | path _ hnew hroom hv ih => exact ih.path hnew hroom hv

theorem extended (h : t.Grows width u) : t.ExtendedBy u := by
  induction h with
  | refl => exact .refl t
  | image _ _ _ ih => exact { ih with images := ih.images.trans (.push _ _) }
  | string _ _ _ ih => exact { ih with strings := ih.strings.trans (.push _ _) }
  | floatList _ _ _ _ ih => exact { ih with floatLists := ih.floatLists.trans (.push _ _) }
  | transform _ _ _ _ ih => exact { ih with transforms := ih.transforms.trans (.push _ _) }
  | path _ _ _ _ ih => exact { ih with paths := ih.paths.trans (.push _ _) }

theorem stored (h : t.Grows width u) (ht : t.Stored width) : u.Stored width := by
  induction h with
  | refl => exact ht
  | image _ _ _ ih => exact { ih with images := ih.images.push _ }
  | string _ _ _ ih => exact { ih with strings := ih.strings.push _ }
  | floatList _ _ _ hv ih =>
    exact { ih with
      floatLists := ih.floatLists.push _
      keptFloats := forall_mem_push ih.keptFloats hv }
  | transform _ _ _ hv ih =>
    exact { ih with
      transforms := ih.transforms.push _
      keptTransforms := forall_mem_push ih.keptTransforms hv }
  | path _ _ _ hv ih =>
    exact { ih with
      paths := ih.paths.push _
      keptPaths := forall_mem_push ih.keptPaths hv }

theorem addressable (h : t.Grows width u) (ht : t.Addressable) : u.Addressable := by
  induction h with
  | refl => exact ht
  | image _ _ hroom ih => exact { ih with images := CanonicalTable.size_push_le _ hroom }
  | string _ _ hroom ih => exact { ih with strings := CanonicalTable.size_push_le _ hroom }
  | floatList _ _ hroom _ ih => exact { ih with floatLists := CanonicalTable.size_push_le _ hroom }
  | transform _ _ hroom _ ih => exact { ih with transforms := CanonicalTable.size_push_le _ hroom }
  | path _ _ hroom _ ih => exact { ih with paths := CanonicalTable.size_push_le _ hroom }

end TableSet.Grows

namespace Interner

variable {α : Type} [Keyed α] {n n' : Interner} {i : UInt32}

/-- Interning grows the tables when pushing a value that is not found does. -/
private theorem intern_grows {pick : TableSet → CanonicalTable α}
    {put : TableSet → CanonicalTable α → TableSet} {v : α}
    (hput : (pick n.shared.value).find? v = none → (pick n.shared.value).size < 2 ^ 32 →
      n.shared.value.Grows width (put n.shared.value ((pick n.shared.value).push v)))
    (h : intern pick put v n = .ok (i, n')) : n.shared.value.Grows width n'.shared.value := by
  rcases intern_cases h with ⟨k, -, -, rfl⟩ | ⟨hnew, hroom, -, hvalue⟩
  · exact .refl
  · rw [hvalue]
    exact hput hnew hroom

theorem image_grows {v : Raster} (h : image v n = .ok (i, n')) :
    n.shared.value.Grows width n'.shared.value :=
  intern_grows (fun hnew hroom => .image .refl hnew hroom) h

theorem string_grows {v : String} (h : string v n = .ok (i, n')) :
    n.shared.value.Grows width n'.shared.value :=
  intern_grows (fun hnew hroom => .string .refl hnew hroom) h

theorem floatList_grows {v : List Binary64} (hv : ∀ x ∈ v, width.Keeps x)
    (h : floatList v n = .ok (i, n')) : n.shared.value.Grows width n'.shared.value :=
  intern_grows (fun hnew hroom => .floatList .refl hnew hroom hv) h

theorem transform_grows {v : Affine} (hv : ∀ x ∈ v.toList, width.Keeps x)
    (h : transform v n = .ok (i, n')) : n.shared.value.Grows width n'.shared.value :=
  intern_grows (fun hnew hroom => .transform .refl hnew hroom hv) h

theorem path_grows {v : Path} (hv : ∀ x ∈ v.coords, width.Keeps x)
    (h : path v n = .ok (i, n')) : n.shared.value.Grows width n'.shared.value :=
  intern_grows (fun hnew hroom => .path .refl hnew hroom hv) h

end Interner

namespace Compact

/-! Loading. -/

/-- What a reader yields satisfies `P`. -/
def Yields {α : Type} (p : Reader α) (P : α → Prop) : Prop :=
  ∀ (i j : Input UInt8) (a : α), p.run i = .ok (a, j) → P a

theorem yields_bind {α β : Type} {p : Reader α} {f : α → Reader β} {P : α → Prop}
    {Q : β → Prop} (hp : Yields p P) (hf : ∀ a, P a → Yields (f a) Q) : Yields (p >>= f) Q := by
  intro i k b h
  obtain ⟨a, j, ha, hb⟩ := Parser.run_bind_eq_ok.mp h
  exact hf a (hp _ _ a ha) _ _ b hb

theorem yields_any {α : Type} (p : Reader α) : Yields p fun _ => True :=
  fun _ _ _ _ => trivial

theorem yields_pure {α : Type} {P : α → Prop} {a : α} (h : P a) :
    Yields (pure a : Reader α) P := by
  intro i j b hb
  obtain ⟨rfl, -⟩ := Parser.run_pure_eq_ok.mp hb
  exact h

/-- A count fits 32 bits. -/
theorem readCount_lt : Yields readCount fun n => n < 2 ^ 32 := by
  refine yields_bind (yields_any _) fun n _ => yields_bind (yields_any _) fun i _ => ?_
  split
  · exact yields_bind (yields_any _) fun _ _ => yields_pure n.toNat_lt
  · exact yields_pure n.toNat_lt

private theorem yields_replicate {α : Type} {p : Reader α} {P : α → Prop} (hp : Yields p P)
    (n : Nat) : Yields (Parser.replicate p n) fun as => ∀ a ∈ as, P a := by
  induction n with
  | zero => exact yields_pure fun a ha => nomatch ha
  | succ n ih =>
    refine yields_bind hp fun a ha => yields_bind ih fun as has => yields_pure ?_
    intro b hb
    rcases List.mem_cons.mp hb with rfl | hb
    · exact ha
    · exact has b hb

private theorem readFloat_kept (width : FloatWidth) : Yields (readFloat width) width.Keeps := by
  cases width with
  | binary64 => exact fun _ _ x _ => FloatWidth.keeps_binary64 x
  | binary32 => exact yields_bind (yields_any _) fun _ _ => yields_pure (FloatWidth.keeps_widen _)

private theorem readFloatList_kept (width : FloatWidth) :
    Yields (readFloatList width) fun xs => ∀ x ∈ xs, width.Keeps x :=
  yields_bind (yields_any _) fun _ _ => yields_replicate (readFloat_kept width) _

private theorem readAffine_kept (width : FloatWidth) :
    Yields (readAffine width) fun m => ∀ x ∈ m.toList, width.Keeps x := by
  have hfloat := readFloat_kept width
  refine yields_bind hfloat fun a ha => yields_bind hfloat fun b hb =>
    yields_bind hfloat fun c hc => yields_bind hfloat fun d hd =>
      yields_bind hfloat fun e he => yields_bind hfloat fun f hf => yields_pure ?_
  intro x hx
  simp only [Affine.toList, List.mem_cons, List.not_mem_nil, or_false] at hx
  rcases hx with rfl | rfl | rfl | rfl | rfl | rfl <;> assumption

/-- The coordinates of a path cut from numbers are among the numbers. -/
private theorem mem_of_segmentsOfParts {verbs : List Verb} {coords : List Binary64} {x : Binary64}
    (h : x ∈ (Path.segmentsOfParts verbs coords).flatMap Segment.coords) : x ∈ coords := by
  fun_induction Path.segmentsOfParts verbs coords with
  | case6 => cases h
  | case5 vs cs ih =>
    simp only [List.flatMap_cons, Segment.coords, PathSegment.points, List.flatMap_nil,
      List.nil_append] at h
    exact ih h
  | _ =>
    rename_i ih
    simp only [List.flatMap_cons, Segment.coords, PathSegment.points, List.flatMap_nil,
      List.mem_append, List.mem_cons, List.not_mem_nil, or_false] at h ih ⊢
    grind

private theorem readPath_kept (width : FloatWidth) :
    Yields (readPath width) fun p => ∀ x ∈ p.coords, width.Keeps x := by
  refine yields_bind (yields_any _) fun n _ => yields_bind (yields_any _) fun verbs _ =>
    yields_bind (yields_replicate (readFloat_kept width) _) fun coords hcoords => ?_
  intro i j p h x hx
  obtain ⟨hparts, -⟩ := Parser.run_ofExcept_eq_ok.mp h
  unfold Path.ofParts at hparts
  split at hparts
  · cases hparts
    exact hcoords x (mem_of_segmentsOfParts hx)
  · cases hparts

/-- Loaded entries make up a table built of its entries, and each has an index. -/
private theorem readTable_built {α : Type} [Keyed α] {read : Reader α} {P : α → Prop}
    (hread : Yields read P) {n : Nat} {t : CanonicalTable α} (hbuilt : t.Built)
    (ht : ∀ v ∈ t.entries, P v) (hsize : t.size ≤ 2 ^ 32) :
    Yields (readTable read n t) fun u =>
      (u.Built ∧ ∀ v ∈ u.entries, P v) ∧ u.size ≤ 2 ^ 32 := by
  induction n generalizing t with
  | zero => exact yields_pure ⟨⟨hbuilt, ht⟩, hsize⟩
  | succ n ih =>
    refine yields_bind hread fun v hv => ?_
    intro i k u h
    obtain ⟨⟨t', index⟩, j, hpush, h⟩ := Parser.run_bind_eq_ok.mp h
    obtain ⟨hpush, -⟩ := Parser.run_ofExcept_eq_ok.mp hpush
    obtain ⟨hroom, rfl, -⟩ := CanonicalTable.pushIndexed_ok hpush
    exact ih (hbuilt.push v) (forall_mem_push ht hv) (CanonicalTable.size_push_le v hroom) _ _ _ h

private theorem readCounted_built {α : Type} [Keyed α] {read : Reader α} {P : α → Prop}
    (hread : Yields read P) :
    Yields (readCounted read) fun u => (u.Built ∧ ∀ v ∈ u.entries, P v) ∧ u.size ≤ 2 ^ 32 :=
  yields_bind (yields_any _) fun _ _ => readTable_built hread rfl
    (fun v hv => absurd hv (Array.not_mem_empty v)) (Nat.zero_le _)

private theorem readTables_yields (width : FloatWidth) :
    Yields (readTables width) fun t => t.Stored width ∧ t.Addressable := by
  refine yields_bind (readCounted_built (yields_any readRaster)) fun images himages =>
    yields_bind (readCounted_built (yields_any readString)) fun strings hstrings =>
    yields_bind (readCounted_built (readFloatList_kept width)) fun floatLists hfloatLists =>
    yields_bind (readCounted_built (readAffine_kept width)) fun transforms htransforms =>
    yields_bind (readCounted_built (readPath_kept width)) fun paths hpaths => yields_pure ?_
  obtain ⟨⟨hlistsBuilt, hlistsKept⟩, hlistsSize⟩ := hfloatLists
  obtain ⟨⟨htransformsBuilt, htransformsKept⟩, htransformsSize⟩ := htransforms
  obtain ⟨⟨hpathsBuilt, hpathsKept⟩, hpathsSize⟩ := hpaths
  exact ⟨⟨himages.1.1, hstrings.1.1, hlistsBuilt, htransformsBuilt, hpathsBuilt, hlistsKept,
    htransformsKept, hpathsKept⟩, himages.2, hstrings.2, hlistsSize, htransformsSize, hpathsSize⟩

theorem readTables_stored {i j : Input UInt8} (h : (readTables width).run i = .ok (t, j)) :
    t.Stored width := (readTables_yields width _ _ _ h).1

theorem readTables_addressable {i j : Input UInt8} (h : (readTables width).run i = .ok (t, j)) :
    t.Addressable := (readTables_yields width _ _ _ h).2

/-! Writing and reading back. -/

theorem readTables_reads (ht : t.Stored width) {bytes : Bytes}
    (h : writeTables width t = .ok bytes) : (readTables width).Reads bytes t := by
  obtain ⟨images, himages, h⟩ := bind_eq_ok.mp h
  obtain ⟨strings, hstrings, h⟩ := bind_eq_ok.mp h
  obtain ⟨floatLists, hfloatLists, h⟩ := bind_eq_ok.mp h
  obtain ⟨transforms, htransforms, h⟩ := bind_eq_ok.mp h
  obtain ⟨paths, hpaths, h⟩ := bind_eq_ok.mp h
  cases h
  have hlength {n : Nat} {rest bytes : Bytes} {first : Except Error Bytes}
      (hfirst : first = writeLength n)
      (h : (do return (← first) ++ rest) = Except.ok bytes) : bytes ≠ [] := by
    subst hfirst
    obtain ⟨-, rfl⟩ := writeLength_bind_eq_ok.mp h
    exact List.append_ne_nil_of_left_ne_nil (writeVarint_ne_nil _) _
  simp only [List.append_assoc]
  refine (readCounted_reads ht.images (fun v _ _ hv => readRaster_reads hv) ?_ himages).bind
    ((readCounted_reads ht.strings (fun v _ _ hv => readString_reads hv) ?_ hstrings).bind
    ((readCounted_reads ht.floatLists (fun v hmem _ hv =>
      readFloatList_reads (ht.keptFloats v hmem) hv) ?_ hfloatLists).bind
    ((readCounted_reads ht.transforms (fun v hmem _ hv =>
      readAffine_reads (ht.keptTransforms v hmem) hv) ?_ htransforms).bind
    ((readCounted_reads ht.paths (fun v hmem _ hv =>
      readPath_reads (ht.keptPaths v hmem) hv) ?_ hpaths).bind_nil ?_))))
  · intro r bytes hr
    obtain ⟨length, -, hr⟩ := bind_eq_ok.mp hr
    cases hr
    simp [writeU32, LittleEndian.write]
  · intro s bytes hs
    exact hlength rfl hs
  · intro xs bytes hxs
    exact hlength rfl hxs
  · intro m bytes hm
    cases hm
    simp [writeFloats, Affine.toList, writeFloat_ne_nil]
  · intro p bytes hp
    obtain ⟨-, rfl⟩ := writeLength_bind_eq_ok.mp hp
    simp [writeVarint_ne_nil]
  · exact .pure t

end Compact

end VectorImage
