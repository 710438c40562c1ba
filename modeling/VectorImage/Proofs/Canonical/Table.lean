import VectorImage.Canonical.TableSet
import VectorImage.Graph.Sharing
import VectorImage.Proofs.Canonical.Key

/-!
Tables only grow. What an index stands for stays what it is while values are interned, and the
index that interning answers stands for the value it was given. A table is determined by its
entries: it is what pushing them one by one gives.
-/

set_option autoImplicit false
set_option relaxedAutoImplicit false

namespace VectorImage

/-- Every entry of `xs` is the entry of `ys` at the same index. -/
def Extends {α : Type} (xs ys : Array α) : Prop :=
  ∀ ⦃i : Nat⦄ ⦃v : α⦄, xs[i]? = some v → ys[i]? = some v

namespace Extends

variable {α : Type} {xs ys zs : Array α}

theorem refl (xs : Array α) : Extends xs xs := fun _ _ h => h

theorem trans (hxy : Extends xs ys) (hyz : Extends ys zs) : Extends xs zs :=
  fun _ _ h => hyz (hxy h)

theorem push (xs : Array α) (v : α) : Extends xs (xs.push v) := by
  intro i w h
  obtain ⟨hi, -⟩ := Array.getElem?_eq_some_iff.mp h
  rw [Array.getElem?_push_lt hi]
  exact h ▸ (Array.getElem?_eq_getElem hi).symm

theorem size_le (h : Extends xs ys) : xs.size ≤ ys.size := by
  by_cases hempty : xs.size = 0
  · omega
  · have hlast := h (Array.getElem?_eq_getElem (show xs.size - 1 < xs.size by omega))
    obtain ⟨hi, -⟩ := Array.getElem?_eq_some_iff.mp hlast
    omega

theorem lookup_eq_ok (h : Extends xs ys) {kind : TableKind} {i : UInt32} {v : α}
    (hv : lookup xs kind i = .ok v) : lookup ys kind i = .ok v :=
  lookup_eq_ok_iff.mpr (h (lookup_eq_ok_iff.mp hv))

end Extends

theorem nodup_eraseDups {α : Type} [BEq α] [LawfulBEq α] (l : List α) : l.eraseDups.Nodup := by
  induction hn : l.length using Nat.strongRecOn generalizing l with
  | ind n ih =>
    cases l with
    | nil => exact List.nodup_nil
    | cons a rest =>
      rw [List.eraseDups_cons, List.nodup_cons, List.mem_eraseDups]
      refine ⟨by simp, ih _ ?_ _ rfl⟩
      rw [← hn, List.length_cons]
      exact Nat.lt_succ_of_le (List.length_filter_le _ _)

theorem eraseDups_concat {α : Type} [BEq α] [LawfulBEq α] (l : List α) (a : α) :
    (l ++ [a]).eraseDups = l.eraseDups ++ if a ∈ l then [] else [a] := by
  rw [List.eraseDups_append]
  split
  · next ha => simp [List.removeAll, ha]
  · next ha => simp [List.removeAll, ha, List.eraseDups_cons]

theorem nextIndex_ok {n : Nat} {i : UInt32} (h : nextIndex n = .ok i) :
    n < 2 ^ 32 ∧ i = UInt32.ofNat n := by
  unfold nextIndex at h
  split at h
  · next hn => exact ⟨hn, (Except.ok.inj h).symm⟩
  · cases h

theorem toNat_ofNat_of_lt {n : Nat} (h : n < 2 ^ 32) : (UInt32.ofNat n).toNat = n := by
  rw [UInt32.toNat_ofNat']
  exact Nat.mod_eq_of_lt h

namespace CanonicalTable

variable {α : Type} [Keyed α]

theorem hasKeyAt_eq_true {t : CanonicalTable α} {key : Key} {i : Nat}
    (h : t.hasKeyAt key i = true) : ∃ v, t.entries[i]? = some v ∧ Keyed.key v = key := by
  unfold hasKeyAt at h
  split at h
  · next v hv => exact ⟨v, hv, eq_of_beq h⟩
  · cases h

variable [KeyDigest]

theorem entries_push (t : CanonicalTable α) (v : α) :
    (t.push v).entries = t.entries.push v := rfl

@[simp]
theorem size_push (t : CanonicalTable α) (v : α) : (t.push v).size = t.size + 1 :=
  Array.size_push v

theorem extends_push (t : CanonicalTable α) (v : α) :
    Extends t.entries (t.push v).entries := .push t.entries v

/-- What is found has the key that was looked for, however the buckets are filled. -/
theorem find?_key {t : CanonicalTable α} {v : α} {i : Nat} (h : t.find? v = some i) :
    ∃ w, t.entries[i]? = some w ∧ Keyed.key w = Keyed.key v :=
  hasKeyAt_eq_true (List.find?_some h)

theorem find?_entry [LawfulKeyed α] {t : CanonicalTable α} {v : α} {i : Nat}
    (h : t.find? v = some i) : t.entries[i]? = some v := by
  obtain ⟨w, hw, hkey⟩ := find?_key h
  rw [hw, LawfulKeyed.eq_of_key hkey]

theorem mem_of_find? [LawfulKeyed α] {t : CanonicalTable α} {v : α} {i : Nat}
    (h : t.find? v = some i) : v ∈ t.entries := Array.mem_of_getElem? (find?_entry h)

/-- Only the key of what is looked for counts. -/
theorem find?_congr (t : CanonicalTable α) {v w : α} (hkey : Keyed.key v = Keyed.key w) :
    t.find? v = t.find? w := by
  unfold find?
  rw [hkey]

theorem findEntry?_key {t : CanonicalTable α} {v w : α} (h : t.findEntry? v = some w) :
    w ∈ t.entries ∧ Keyed.key w = Keyed.key v := by
  obtain ⟨i, hi, hentry⟩ := Option.bind_eq_some_iff.mp h
  obtain ⟨u, hu, hkey⟩ := find?_key hi
  rw [hentry] at hu
  cases hu
  exact ⟨Array.mem_of_getElem? hentry, hkey⟩

theorem pushIndexed_ok {t t' : CanonicalTable α} {v : α} {i : UInt32}
    (h : t.pushIndexed v = .ok (t', i)) :
    t.size < 2 ^ 32 ∧ t' = t.push v ∧ i = UInt32.ofNat t.size := by
  unfold pushIndexed at h
  cases hn : nextIndex t.size with
  | error e =>
    rw [hn] at h
    cases h
  | ok j =>
    rw [hn] at h
    cases h
    obtain ⟨hlt, rfl⟩ := nextIndex_ok hn
    exact ⟨hlt, rfl, rfl⟩

/-- A table that is not full gives the next index. -/
theorem pushIndexed_of_room {t : CanonicalTable α} (hroom : t.size < 2 ^ 32) (v : α) :
    t.pushIndexed v = .ok (t.push v, UInt32.ofNat t.size) := by
  rw [pushIndexed, nextIndex_eq_ok hroom]
  rfl

theorem getElem?_pushIndexed {t t' : CanonicalTable α} {v : α} {i : UInt32}
    (h : t.pushIndexed v = .ok (t', i)) : t'.entries[i.toNat]? = some v := by
  obtain ⟨hlt, rfl, rfl⟩ := pushIndexed_ok h
  rw [toNat_ofNat_of_lt hlt, entries_push, size, Array.getElem?_push_size]

/-- The index that interning answers stands for the value. -/
theorem intern_ok [LawfulKeyed α] {t t' : CanonicalTable α} {v : α} {i : UInt32}
    (hsize : t.size ≤ 2 ^ 32) (h : t.intern v = .ok (t', i)) :
    Extends t.entries t'.entries ∧ t'.entries[i.toNat]? = some v ∧ t'.size ≤ 2 ^ 32 ∧
      t'.size ≤ t.size + 1 := by
  unfold intern at h
  split at h
  · next j hj =>
    cases h
    have hentry := find?_entry hj
    obtain ⟨hlt, -⟩ := Array.getElem?_eq_some_iff.mp hentry
    rw [toNat_ofNat_of_lt (Nat.lt_of_lt_of_le hlt hsize)]
    exact ⟨.refl _, hentry, hsize, Nat.le_succ _⟩
  · have hentry := getElem?_pushIndexed h
    obtain ⟨hlt, rfl, -⟩ := pushIndexed_ok h
    refine ⟨extends_push t v, hentry, ?_, ?_⟩
    · rw [size_push]
      exact hlt
    · exact Nat.le_of_eq (size_push t v)

/-- Interning into a table that is not full answers an index. -/
theorem intern_progress (t : CanonicalTable α) (v : α) (hsize : t.size < 2 ^ 32) :
    ∃ t' i, t.intern v = .ok (t', i) := by
  unfold intern
  split
  · exact ⟨_, _, rfl⟩
  · exact ⟨_, _, pushIndexed_of_room hsize v⟩

/-- The table that holds the values of a list in order. -/
def ofList (vs : List α) : CanonicalTable α := vs.foldl push empty

/-- A table whose buckets are those of its entries pushed in order. -/
def Built (t : CanonicalTable α) : Prop := ofList t.entries.toList = t

theorem built_empty : (empty : CanonicalTable α).Built := rfl

theorem Built.push {t : CanonicalTable α} (h : t.Built) (v : α) : (t.push v).Built := by
  unfold Built ofList at h ⊢
  rw [entries_push, Array.toList_push, List.foldl_append, h]
  rfl

/-- Every entry stands in the bucket of its digest. -/
def Bucketed (t : CanonicalTable α) : Prop :=
  ∀ ⦃i : Nat⦄ ⦃v : α⦄, t.entries[i]? = some v →
    i ∈ (t.buckets[KeyDigest.digest (Keyed.key v)]?).getD []

private theorem Bucketed.push {t : CanonicalTable α} (h : t.Bucketed) (v : α) :
    (t.push v).Bucketed := by
  intro i w hw
  rw [entries_push, Array.getElem?_push] at hw
  simp only [CanonicalTable.push, Std.HashMap.getElem?_insert]
  split at hw
  · next hi =>
    cases hw
    simp [hi]
  · have hold := h hw
    split
    · next hdigest =>
      rw [← eq_of_beq hdigest] at hold
      exact List.mem_append_left _ hold
    · exact hold

/-- What holds of the empty table and is kept by every push holds of a table that is built of its
entries. -/
theorem Built.induct {P : CanonicalTable α → Prop} (hempty : P empty)
    (hpush : ∀ {t : CanonicalTable α} (v : α), P t → P (t.push v)) {t : CanonicalTable α}
    (h : t.Built) : P t := by
  have hpushed (vs : List α) {u : CanonicalTable α} (hu : P u) :
      P (vs.foldl CanonicalTable.push u) := by
    induction vs generalizing u with
    | nil => exact hu
    | cons v vs ih => exact ih (hpush v hu)
  have hall := hpushed t.entries.toList hempty
  have hbuilt : t.entries.toList.foldl CanonicalTable.push empty = t := h
  rwa [hbuilt] at hall

/-- A table that is built of its entries has them in their buckets. -/
theorem Built.bucketed {t : CanonicalTable α} (h : t.Built) : t.Bucketed := by
  refine h.induct ?_ fun v ht => ht.push v
  intro i v hv
  cases hv

/-- Positions stand in their buckets in ascending order. -/
def Ordered (t : CanonicalTable α) : Prop :=
  ∀ digest : UInt64, ((t.buckets[digest]?).getD []).Pairwise (· < ·) ∧
    ∀ i ∈ (t.buckets[digest]?).getD [], i < t.size

private theorem Ordered.push {t : CanonicalTable α} (h : t.Ordered) (v : α) :
    (t.push v).Ordered := by
  intro digest
  obtain ⟨hascending, hbelow⟩ := h digest
  rw [size_push]
  simp only [CanonicalTable.push, Std.HashMap.getElem?_insert]
  split
  · next hdigest =>
    rw [← eq_of_beq hdigest] at hascending hbelow
    refine ⟨List.pairwise_append.mpr ⟨hascending, List.pairwise_singleton _ _, ?_⟩, ?_⟩
    · intro i hi j hj
      rw [List.mem_singleton.mp hj]
      exact hbelow i hi
    · intro i hi
      rcases List.mem_append.mp hi with hi | hi
      · exact Nat.lt_succ_of_lt (hbelow i hi)
      · rw [List.mem_singleton.mp hi]
        exact Nat.lt_succ_self _
  · exact ⟨hascending, fun i hi => Nat.lt_succ_of_lt (hbelow i hi)⟩

theorem Built.ordered {t : CanonicalTable α} (h : t.Built) : t.Ordered := by
  refine h.induct (fun digest => ?_) fun v ht => ht.push v
  simp [empty]

/-- The first of the positions at which an entry stands is found. -/
theorem Built.find?_le {t : CanonicalTable α} (h : t.Built) {v : α} {i j : Nat}
    (hi : t.find? v = some i) (hj : t.entries[j]? = some v) : i ≤ j := by
  obtain ⟨-, before, after, hbucket, hbefore⟩ := List.find?_eq_some_iff_append.mp hi
  have hmem := h.bucketed hj
  obtain ⟨hascending, -⟩ := h.ordered (KeyDigest.digest (Keyed.key v))
  rw [hbucket] at hmem hascending
  rcases List.mem_append.mp hmem with hmem | hmem
  · have hkey : t.hasKeyAt (Keyed.key v) j = true := by simp [hasKeyAt, hj]
    have hnot := hbefore j hmem
    rw [hkey] at hnot
    cases hnot
  · rcases List.mem_cons.mp hmem with rfl | hmem
    · exact Nat.le_refl _
    · exact Nat.le_of_lt
        ((List.pairwise_cons.mp (List.pairwise_append.mp hascending).2.1).1 j hmem)

/-- An entry of a table is found. -/
theorem Bucketed.find?_progress {t : CanonicalTable α} (h : t.Bucketed) {v : α}
    (hv : v ∈ t.entries) : ∃ i, t.find? v = some i := by
  obtain ⟨i, hi, hentry⟩ := Array.mem_iff_getElem.mp hv
  have hget : t.entries[i]? = some v := hentry ▸ Array.getElem?_eq_getElem hi
  have hkey : t.hasKeyAt (Keyed.key v) i = true := by simp [hasKeyAt, hget]
  refine Option.isSome_iff_exists.mp ?_
  rw [find?, List.find?_isSome]
  exact ⟨i, h hget, hkey⟩

/-- What is looked for is found where an entry has its key. -/
theorem Bucketed.findEntry?_progress {t : CanonicalTable α} (h : t.Bucketed) {v w : α}
    (hw : w ∈ t.entries) (hkey : Keyed.key v = Keyed.key w) : ∃ u, t.findEntry? v = some u := by
  obtain ⟨i, hi⟩ := h.find?_progress hw
  have hfind : t.find? v = some i := (t.find?_congr hkey).trans hi
  obtain ⟨u, hu, -⟩ := find?_key hfind
  exact ⟨u, Option.bind_eq_some_iff.mpr ⟨i, hfind, hu⟩⟩

/-- Entries of two tables that have one key are one entry. -/
def Agrees (t u : CanonicalTable α) : Prop :=
  ∀ v ∈ t.entries, ∀ w ∈ u.entries, Keyed.key v = Keyed.key w → v = w

omit [KeyDigest] in
theorem Agrees.symm {t u : CanonicalTable α} (h : t.Agrees u) : u.Agrees t :=
  fun v hv w hw hkey => (h w hw v hv hkey.symm).symm

omit [KeyDigest] in
theorem agrees_empty (t : CanonicalTable α) : (empty : CanonicalTable α).Agrees t := by
  intro v hv
  simp [empty] at hv

/-- A new entry agrees with a table where no entry has its key, or where it is an entry itself. -/
theorem Agrees.push {t u : CanonicalTable α} (h : t.Agrees u) {w : α}
    (hnew : ∀ v ∈ u.entries, Keyed.key w = Keyed.key v → w = v) : (t.push w).Agrees u := by
  intro v hv x hx hkey
  rcases Array.mem_push.mp hv with hv | rfl
  · exact h v hv x hx hkey
  · exact hnew x hx hkey

/-- A table as interning alone fills it: no two entries are equal, and there are at most `n`. -/
structure Tidy (n : Nat) (t : CanonicalTable α) : Prop where
  built : t.Built
  distinct : t.entries.toList.Nodup
  size_le : t.size ≤ n

theorem tidy_empty : (empty : CanonicalTable α).Tidy 0 :=
  ⟨built_empty, List.nodup_nil, Nat.le_refl 0⟩

theorem Tidy.mono {n m : Nat} {t : CanonicalTable α} (h : t.Tidy n) (hle : n ≤ m) : t.Tidy m :=
  ⟨h.built, h.distinct, Nat.le_trans h.size_le hle⟩

/-- A value that is not found is pushed. -/
theorem Tidy.push {n : Nat} {t : CanonicalTable α} (h : t.Tidy n) {v : α}
    (hnone : t.find? v = none) : (t.push v).Tidy (n + 1) := by
  refine ⟨h.built.push v, ?_, ?_⟩
  · rw [entries_push, Array.toList_push, List.nodup_append]
    refine ⟨h.distinct, List.pairwise_singleton _ v, ?_⟩
    intro w hw w' hw' hsame
    obtain rfl := List.mem_singleton.mp hw'
    obtain ⟨i, hi⟩ := h.built.bucketed.find?_progress (Array.mem_toList_iff.mp (hsame ▸ hw))
    rw [hnone] at hi
    cases hi
  · rw [size_push]
    exact Nat.succ_le_succ h.size_le

/-- In a table without equal entries a value is found where it stands. -/
theorem Tidy.find?_eq [LawfulKeyed α] {n : Nat} {t : CanonicalTable α} (h : t.Tidy n) {i : Nat}
    {v : α} (hi : t.entries[i]? = some v) : t.find? v = some i := by
  obtain ⟨k, hk⟩ := h.built.bucketed.find?_progress (Array.mem_of_getElem? hi)
  have hentry := find?_entry hk
  rw [← Array.getElem?_toList] at hentry hi
  obtain ⟨hlt, -⟩ := List.getElem?_eq_some_iff.mp hi
  rw [hk, (List.getElem?_inj hlt h.distinct).mp (hi.trans hentry.symm)]

section Holds

variable [DecidableEq α]

/-- A table of the values of a list, each once, in the order in which they come first. -/
structure Holds (t : CanonicalTable α) (vs : List α) : Prop where
  built : t.Built
  entries : t.entries.toList = vs.eraseDups
  size_le : t.size ≤ 2 ^ 32

theorem holds_nil : (empty : CanonicalTable α).Holds [] :=
  ⟨built_empty, rfl, Nat.zero_le _⟩

theorem Holds.mem_iff {t : CanonicalTable α} {vs : List α} (h : t.Holds vs) {v : α} :
    v ∈ t.entries ↔ v ∈ vs := by
  rw [← Array.mem_toList_iff, h.entries, List.mem_eraseDups]

theorem Holds.intern [LawfulKeyed α] {t t' : CanonicalTable α} {vs : List α} (h : t.Holds vs)
    {v : α} {i : UInt32} (hintern : t.intern v = .ok (t', i)) : t'.Holds (vs ++ [v]) := by
  obtain ⟨-, -, hsize, -⟩ := intern_ok h.size_le hintern
  unfold CanonicalTable.intern at hintern
  split at hintern
  · next k hk =>
    cases hintern
    have hmem := h.mem_iff.mp (mem_of_find? hk)
    refine ⟨h.built, ?_, hsize⟩
    rw [eraseDups_concat, if_pos hmem, List.append_nil, h.entries]
  · next hnone =>
    obtain ⟨-, rfl, -⟩ := pushIndexed_ok hintern
    have hmem : v ∉ vs := by
      intro hv
      obtain ⟨k, hk⟩ := h.built.bucketed.find?_progress (h.mem_iff.mpr hv)
      cases hnone.symm.trans hk
    refine ⟨h.built.push v, ?_, hsize⟩
    rw [eraseDups_concat, if_neg hmem, entries_push, Array.toList_push, h.entries]

end Holds

end CanonicalTable

namespace TableSet

/-- Every entry of every table of `t` keeps its index in `u`. -/
structure ExtendedBy (t u : TableSet) : Prop where
  images : Extends t.images.entries u.images.entries
  strings : Extends t.strings.entries u.strings.entries
  floatLists : Extends t.floatLists.entries u.floatLists.entries
  transforms : Extends t.transforms.entries u.transforms.entries
  paths : Extends t.paths.entries u.paths.entries

theorem ExtendedBy.refl (t : TableSet) : t.ExtendedBy t :=
  ⟨.refl _, .refl _, .refl _, .refl _, .refl _⟩

theorem ExtendedBy.trans {t u v : TableSet} (htu : t.ExtendedBy u) (huv : u.ExtendedBy v) :
    t.ExtendedBy v :=
  ⟨htu.images.trans huv.images, htu.strings.trans huv.strings,
    htu.floatLists.trans huv.floatLists, htu.transforms.trans huv.transforms,
    htu.paths.trans huv.paths⟩

/-- Every index of every table has a successor among the 32-bit words. -/
structure Indexable (t : TableSet) : Prop where
  images : t.images.size < 2 ^ 32
  strings : t.strings.size < 2 ^ 32
  floatLists : t.floatLists.size < 2 ^ 32
  transforms : t.transforms.size < 2 ^ 32
  paths : t.paths.size < 2 ^ 32

theorem Indexable.of_extendedBy {t u : TableSet} (hu : u.Indexable) (h : t.ExtendedBy u) :
    t.Indexable :=
  ⟨Nat.lt_of_le_of_lt h.images.size_le hu.images,
    Nat.lt_of_le_of_lt h.strings.size_le hu.strings,
    Nat.lt_of_le_of_lt h.floatLists.size_le hu.floatLists,
    Nat.lt_of_le_of_lt h.transforms.size_le hu.transforms,
    Nat.lt_of_le_of_lt h.paths.size_le hu.paths⟩

end TableSet

namespace Interner

variable {α : Type} [Keyed α] [KeyDigest]

/-- Interning finds the value, and nothing changes, or pushes it to tables of its own. -/
theorem intern_outcome {pick : TableSet → CanonicalTable α}
    {put : TableSet → CanonicalTable α → TableSet} {v : α} {n n' : Interner} {i : UInt32}
    (h : intern pick put v n = .ok (i, n')) :
    (∃ k, (pick n.shared.value).find? v = some k ∧ i = UInt32.ofNat k ∧ n' = n) ∨
      ((pick n.shared.value).find? v = none ∧ (pick n.shared.value).size < 2 ^ 32 ∧
        i = UInt32.ofNat (pick n.shared.value).size ∧
        n' = ⟨n.stamp,
          ⟨⟨n.stamp, []⟩, put n.shared.value ((pick n.shared.value).push v)⟩⟩) := by
  unfold intern at h
  split at h
  · next k hk =>
    cases h
    exact Or.inl ⟨k, hk, rfl, rfl⟩
  · next hnew =>
    cases hpush : (pick n.shared.value).pushIndexed v with
    | error e =>
      rw [hpush] at h
      cases h
    | ok r =>
      obtain ⟨table, index⟩ := r
      rw [hpush] at h
      cases h
      obtain ⟨hlt, rfl, rfl⟩ := CanonicalTable.pushIndexed_ok hpush
      exact Or.inr ⟨hnew, hlt, rfl, rfl⟩

/-- Interning finds the value or pushes it. -/
theorem intern_cases {pick : TableSet → CanonicalTable α}
    {put : TableSet → CanonicalTable α → TableSet} {v : α} {n n' : Interner} {i : UInt32}
    (h : intern pick put v n = .ok (i, n')) :
    (∃ k, (pick n.shared.value).find? v = some k ∧ i = UInt32.ofNat k ∧ n' = n) ∨
      ((pick n.shared.value).find? v = none ∧ (pick n.shared.value).size < 2 ^ 32 ∧
        i = UInt32.ofNat (pick n.shared.value).size ∧
        n'.shared.value = put n.shared.value ((pick n.shared.value).push v)) := by
  rcases intern_outcome h with hfound | ⟨hnew, hroom, hi, rfl⟩
  · exact .inl hfound
  · exact .inr ⟨hnew, hroom, hi, rfl⟩

/-- A value that is found is interned, and nothing changes. -/
theorem intern_of_find {pick : TableSet → CanonicalTable α}
    {put : TableSet → CanonicalTable α → TableSet} {v : α} {n : Interner} {k : Nat}
    (h : (pick n.shared.value).find? v = some k) :
    intern pick put v n = .ok (UInt32.ofNat k, n) := by
  unfold intern
  rw [h]

/-- A value that is not found is pushed, if there is room. -/
theorem intern_of_new (pick : TableSet → CanonicalTable α)
    (put : TableSet → CanonicalTable α → TableSet) {v : α} {n : Interner}
    (hnew : (pick n.shared.value).find? v = none) (hroom : (pick n.shared.value).size < 2 ^ 32) :
    ∃ n', intern pick put v n = .ok (UInt32.ofNat (pick n.shared.value).size, n') ∧
      n'.shared.value = put n.shared.value ((pick n.shared.value).push v) := by
  unfold intern
  rw [hnew, CanonicalTable.pushIndexed_of_room hroom v]
  exact ⟨_, rfl, rfl⟩

/-- The index answered stands for the value in tables of fewer than `2 ^ 32` entries. -/
private theorem intern_entry [LawfulKeyed α] {pick : TableSet → CanonicalTable α}
    {put : TableSet → CanonicalTable α → TableSet} (hpick : ∀ t table, pick (put t table) = table)
    {v : α} {n n' : Interner} {i : UInt32} (h : intern pick put v n = .ok (i, n'))
    (hsize : (pick n'.shared.value).size < 2 ^ 32) :
    (pick n'.shared.value).entries[i.toNat]? = some v := by
  rcases intern_cases h with ⟨k, hk, rfl, rfl⟩ | ⟨-, hlt, rfl, hvalue⟩
  · have hentry := CanonicalTable.find?_entry hk
    obtain ⟨hk', -⟩ := Array.getElem?_eq_some_iff.mp hentry
    rw [toNat_ofNat_of_lt (Nat.lt_trans hk' hsize)]
    exact hentry
  · rw [hvalue, hpick, toNat_ofNat_of_lt hlt, CanonicalTable.entries_push, CanonicalTable.size,
      Array.getElem?_push_size]

variable {n n' : Interner} {i : UInt32}

theorem image_entry {v : Raster} (h : image v n = .ok (i, n')) :
    n'.shared.value.images.size < 2 ^ 32 → n'.shared.value.images.entries[i.toNat]? = some v :=
  intern_entry (fun _ _ => rfl) h

theorem string_entry {v : String} (h : string v n = .ok (i, n')) :
    n'.shared.value.strings.size < 2 ^ 32 → n'.shared.value.strings.entries[i.toNat]? = some v :=
  intern_entry (fun _ _ => rfl) h

theorem floatList_entry {v : List Binary64} (h : floatList v n = .ok (i, n')) :
    n'.shared.value.floatLists.size < 2 ^ 32 →
      n'.shared.value.floatLists.entries[i.toNat]? = some v :=
  intern_entry (fun _ _ => rfl) h

theorem transform_entry {v : Affine} (h : transform v n = .ok (i, n')) :
    n'.shared.value.transforms.size < 2 ^ 32 →
      n'.shared.value.transforms.entries[i.toNat]? = some v :=
  intern_entry (fun _ _ => rfl) h

theorem path_entry {v : Path} (h : path v n = .ok (i, n')) :
    n'.shared.value.paths.size < 2 ^ 32 → n'.shared.value.paths.entries[i.toNat]? = some v :=
  intern_entry (fun _ _ => rfl) h

end Interner

end VectorImage
