import VectorImage.Proofs.Canonical.Table
import VectorImage.Svg.Manifest

/-!
What the tables of a picture hold: every list of numbers and every raster image below its nodes,
under the index that the manifest gives it.
-/

set_option autoImplicit false
set_option relaxedAutoImplicit false

namespace VectorImage

namespace Svg

namespace Manifest

variable {m : Manifest} {tables : Tables}

/-- The tables are not too long for indices. -/
def Fits (m : Manifest) : Prop := m.images.length ≤ 2 ^ 32 ∧ m.floatLists.length ≤ 2 ^ 32

theorem tables_of_fits (h : m.Fits) : m.tables = .ok ⟨m.images.map Prod.snd, [], m.floatLists⟩ :=
  if_pos h

theorem tables_of_not_fits (h : ¬ m.Fits) : m.tables = .error (.other .indexOverflow) := if_neg h

theorem tables_eq_ok : m.tables = .ok tables ↔
    m.Fits ∧ tables = ⟨m.images.map Prod.snd, [], m.floatLists⟩ := by
  by_cases hfits : m.Fits
  · rw [tables_of_fits hfits, Except.ok.injEq, eq_comm]
    exact (and_iff_right hfits).symm
  · rw [tables_of_not_fits hfits]
    exact iff_of_false nofun fun h => hfits h.1

/-- Indices below the length of a table that fits name its entries. -/
private theorem getElem?_ofNat {α : Type} {l : List α} (hl : l.length ≤ 2 ^ 32) {i : Nat}
    (hi : i < l.length) : l[(UInt32.ofNat i).toNat]? = some l[i] := by
  rw [toNat_ofNat_of_lt (Nat.lt_of_lt_of_le hi hl)]
  exact List.getElem?_eq_getElem hi

theorem floatListId_of_mem (htables : m.tables = .ok tables) {floats : List Binary64}
    (h : floats ∈ m.floatLists) :
    ∃ id, m.floatListId floats = .ok id ∧ tables.floatLists[id.toNat]? = some floats := by
  obtain ⟨hfits, rfl⟩ := tables_eq_ok.mp htables
  obtain ⟨i, hindex⟩ := Option.isSome_iff_exists.mp (List.isSome_idxOf?.mpr h)
  obtain ⟨hi, hfloats, -⟩ := List.idxOf?_eq_some_iff.mp hindex
  refine ⟨UInt32.ofNat i, ?_, ?_⟩
  · rw [floatListId, hindex]
  · rw [← hfloats]
    exact getElem?_ofNat hfits.2 hi

theorem imageId?_eq_some (htables : m.tables = .ok tables) {identity : List Nat} {id : ImageId}
    (h : m.imageId? identity = some id) :
    ∃ raster, (identity, raster) ∈ m.images ∧ tables.images[id.toNat]? = some raster := by
  obtain ⟨hfits, rfl⟩ := tables_eq_ok.mp htables
  obtain ⟨i, hindex, rfl⟩ := Option.map_eq_some_iff.mp h
  obtain ⟨hi, hidentity, -⟩ := List.idxOf?_eq_some_iff.mp hindex
  rw [List.length_map] at hi
  rw [List.getElem_map] at hidentity
  refine ⟨m.images[i].2, ?_, ?_⟩
  · rw [← hidentity]
    exact List.getElem_mem hi
  · show (m.images.map Prod.snd)[(UInt32.ofNat i).toNat]? = _
    rw [List.getElem?_map, getElem?_ofNat hfits.1 hi, Option.map_some]

theorem imageId?_isSome {identity : List Nat} :
    (m.imageId? identity).isSome ↔ identity ∈ m.images.map Prod.fst := by
  rw [imageId?, Option.isSome_map, List.isSome_idxOf?]

section FirstOfEach

variable {κ α : Type} [BEq κ] [LawfulBEq κ] {entries : List (κ × α)} {key : κ} {value : α}

/-- The entries that are kept are those that a look-up finds. -/
theorem mem_firstOfEach :
    (key, value) ∈ firstOfEach entries ↔ entries.lookup key = some value := by
  rw [firstOfEach, List.mem_filterMap]
  constructor
  · rintro ⟨key', -, h⟩
    obtain ⟨value', hlookup, hentry⟩ := Option.map_eq_some_iff.mp h
    cases hentry
    exact hlookup
  · intro hlookup
    refine ⟨key, List.mem_eraseDups.mpr ?_, by rw [hlookup, Option.map_some]⟩
    obtain ⟨before, after, rfl, -⟩ := List.lookup_eq_some_iff.mp hlookup
    exact List.mem_map_of_mem (List.mem_append_right before List.mem_cons_self)

end FirstOfEach

/-- The tables hold what the nodes refer to, where the manifest says. -/
structure Covers (m : Manifest) (tables : Tables) (nodes : List PictureNode) : Prop where
  floatLists : ∀ floats ∈ PictureNode.floatListsAll nodes,
    ∃ id, m.floatListId floats = .ok id ∧ tables.floatLists[id.toNat]? = some floats
  images : ∀ identity raster, (PictureNode.rastersAll nodes).lookup identity = some raster →
    ∃ id, m.imageId? identity = some id ∧ tables.images[id.toNat]? = some raster

theorem floatListsAll_subset (nodes : List PictureNode) :
    PictureNode.floatListsAll nodes ⊆ (ofNodes nodes).floatLists :=
  fun _ h => List.mem_eraseDups.mpr h

/-- The tables of a picture hold all that its nodes refer to. -/
theorem covers {nodes : List PictureNode} (htables : (ofNodes nodes).tables = .ok tables) :
    (ofNodes nodes).Covers tables nodes := by
  refine ⟨fun floats h => floatListId_of_mem htables (floatListsAll_subset nodes h),
    fun identity raster hlookup => ?_⟩
  have hentry : (identity, raster) ∈ (ofNodes nodes).images := mem_firstOfEach.mpr hlookup
  obtain ⟨id, hid⟩ := Option.isSome_iff_exists.mp
    (imageId?_isSome.mpr (List.mem_map_of_mem (f := Prod.fst) hentry))
  obtain ⟨found, hfound, hget⟩ := imageId?_eq_some htables hid
  obtain rfl := Option.some.inj ((mem_firstOfEach.mp hfound).symm.trans hlookup)
  exact ⟨id, hid, hget⟩

end Manifest

end Svg

end VectorImage
