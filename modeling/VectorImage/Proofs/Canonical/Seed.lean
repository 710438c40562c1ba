import VectorImage.Proofs.Canonical.Occurrence
import VectorImage.Proofs.Outcome

/-!
Interning into tables that another image may hold. Each value goes to the table of its kind, which
answers as it does on its own. Tables keep their instance for as long as every value is there; the
first new value gives them the run's own, and what was held stays as it was.
-/

set_option autoImplicit false
set_option relaxedAutoImplicit false

namespace VectorImage

/-- A value to intern into the table of its kind. -/
inductive InternRequest
  | image (v : Raster)
  | string (v : String)
  | floatList (v : List Binary64)
  | transform (v : Affine)
  | path (v : Path)

namespace TableSet

variable [KeyDigest]

/-- Tables that requests have filled. -/
structure Filled (t : TableSet) : Prop where
  images : ∃ rs, .filled rs = t.images
  strings : ∃ rs, .filled rs = t.strings
  floatLists : ∃ rs, .filled rs = t.floatLists
  transforms : ∃ rs, .filled rs = t.transforms
  paths : ∃ rs, .filled rs = t.paths

/-- One table answers, and the others stay. -/
def answerIn {α : Type} [Keyed α] (pick : TableSet → CanonicalTable α)
    (put : TableSet → CanonicalTable α → TableSet) (v : α) (t : TableSet) :
    TableSet × Except Error UInt32 :=
  let (table, index) := (pick t).answer (.intern v)
  (put t table, index)

def answer (t : TableSet) : InternRequest → TableSet × Except Error UInt32
  | .image v => answerIn TableSet.images (fun t table => { t with images := table }) v t
  | .string v => answerIn TableSet.strings (fun t table => { t with strings := table }) v t
  | .floatList v => answerIn TableSet.floatLists (fun t table => { t with floatLists := table }) v t
  | .transform v => answerIn TableSet.transforms (fun t table => { t with transforms := table }) v t
  | .path v => answerIn TableSet.paths (fun t table => { t with paths := table }) v t

private theorem filled_answer {α : Type} [Keyed α] {table : CanonicalTable α}
    (h : ∃ rs, .filled rs = table) (v : α) :
    ∃ rs, .filled rs = (table.answer (.intern v)).1 := by
  obtain ⟨rs, rfl⟩ := h
  refine ⟨rs ++ [.intern v], ?_⟩
  rw [CanonicalTable.filled, serve_append]
  rfl

/-- Filled tables are filled again once they have answered. -/
theorem Filled.answer {t : TableSet} (h : t.Filled) (r : InternRequest) :
    (t.answer r).1.Filled := by
  cases r with
  | image v => exact { h with images := filled_answer h.images v }
  | string v => exact { h with strings := filled_answer h.strings v }
  | floatList v => exact { h with floatLists := filled_answer h.floatLists v }
  | transform v => exact { h with transforms := filled_answer h.transforms v }
  | path v => exact { h with paths := filled_answer h.paths v }

end TableSet

namespace InternRequest

variable [KeyDigest]

def perform : InternRequest → StateT Interner (Except Error) UInt32
  | .image v => Interner.image v
  | .string v => Interner.string v
  | .floatList v => Interner.floatList v
  | .transform v => Interner.transform v
  | .path v => Interner.path v

def find? (t : TableSet) : InternRequest → Option Nat
  | .image v => t.images.find? v
  | .string v => t.strings.find? v
  | .floatList v => t.floatLists.find? v
  | .transform v => t.transforms.find? v
  | .path v => t.paths.find? v

omit [KeyDigest] in
/-- The table of the kind has an entry with the key of the value. -/
def PresentIn (t : TableSet) : InternRequest → Prop
  | .image v => ∃ w ∈ t.images.entries, Keyed.key w = Keyed.key v
  | .string v => ∃ w ∈ t.strings.entries, Keyed.key w = Keyed.key v
  | .floatList v => ∃ w ∈ t.floatLists.entries, Keyed.key w = Keyed.key v
  | .transform v => ∃ w ∈ t.transforms.entries, Keyed.key w = Keyed.key v
  | .path v => ∃ w ∈ t.paths.entries, Keyed.key w = Keyed.key v

theorem find?_isSome_iff {t : TableSet} (h : t.Filled) (r : InternRequest) :
    (r.find? t).isSome ↔ r.PresentIn t := by
  have hbuilt {α : Type} [Keyed α] {table : CanonicalTable α}
      (h : ∃ rs, CanonicalTable.filled rs = table) : table.Built := by
    obtain ⟨rs, rfl⟩ := h
    exact CanonicalTable.built_filled rs
  cases r with
  | image v => exact (hbuilt h.images).find?_isSome_iff v
  | string v => exact (hbuilt h.strings).find?_isSome_iff v
  | floatList v => exact (hbuilt h.floatLists).find?_isSome_iff v
  | transform v => exact (hbuilt h.transforms).find?_isSome_iff v
  | path v => exact (hbuilt h.paths).find?_isSome_iff v

end InternRequest

/-- What interning one value does: the tables answer as they do on their own, and grow. A value that
is found leaves the interner as it is; one that is not gives the tables the run's own instance. -/
structure Interner.Answers (n n' : Interner) (found : Option Nat)
    (answered : TableSet × Except Error UInt32) (i : UInt32) : Prop where
  answered : answered = (n'.shared.value, .ok i)
  extended : n.shared.value.ExtendedBy n'.shared.value
  kept : found.isSome → n' = n
  renewed : found = none → n'.stamp = n.stamp ∧ n'.shared.inst = ⟨n.stamp, []⟩

namespace Interner

variable [KeyDigest]

private theorem intern_answers {α : Type} [Keyed α] {pick : TableSet → CanonicalTable α}
    {put : TableSet → CanonicalTable α → TableSet} {v : α} {n n' : Interner} {i : UInt32}
    (h : intern pick put v n = .ok (i, n')) (hsame : ∀ t, put t (pick t) = t)
    (hgrows : ∀ t table, Extends (pick t).entries table.entries → t.ExtendedBy (put t table)) :
    n.Answers n' ((pick n.shared.value).find? v) (TableSet.answerIn pick put v n.shared.value)
      i := by
  rcases intern_outcome h with ⟨k, hk, rfl, rfl⟩ | ⟨hnew, hroom, rfl, rfl⟩
  · refine ⟨?_, .refl _, fun _ => rfl, fun hnone => ?_⟩
    · simp only [TableSet.answerIn, CanonicalTable.answer, CanonicalTable.intern, hk, hsame]
    · rw [hk] at hnone
      cases hnone
  · refine ⟨?_, hgrows _ _ (CanonicalTable.extends_push _ v), fun hsome => ?_, fun _ => ⟨rfl, rfl⟩⟩
    · simp only [TableSet.answerIn, CanonicalTable.answer, CanonicalTable.intern, hnew,
        CanonicalTable.pushIndexed_of_room hroom]
    · rw [hnew] at hsome
      cases hsome

private theorem intern_of_answer {α : Type} [Keyed α] {pick : TableSet → CanonicalTable α}
    {put : TableSet → CanonicalTable α → TableSet} {v : α} {n : Interner} {i : UInt32}
    (h : (TableSet.answerIn pick put v n.shared.value).2 = .ok i) :
    ∃ n', intern pick put v n = .ok (i, n') := by
  cases hfind : (pick n.shared.value).find? v with
  | some k =>
    simp only [TableSet.answerIn, CanonicalTable.answer, CanonicalTable.intern, hfind,
      Except.ok.injEq] at h
    exact ⟨n, h ▸ intern_of_find hfind⟩
  | none =>
    by_cases hroom : (pick n.shared.value).size < 2 ^ 32
    · simp only [TableSet.answerIn, CanonicalTable.answer, CanonicalTable.intern, hfind,
        CanonicalTable.pushIndexed_of_room hroom, Except.ok.injEq] at h
      obtain ⟨n', hn', -⟩ := intern_of_new pick put hfind hroom
      exact ⟨n', h ▸ hn'⟩
    · simp only [TableSet.answerIn, CanonicalTable.answer, CanonicalTable.intern, hfind,
        CanonicalTable.pushIndexed_of_full hroom] at h
      cases h

theorem perform_answers {r : InternRequest} {n n' : Interner} {i : UInt32}
    (h : r.perform n = .ok (i, n')) :
    n.Answers n' (r.find? n.shared.value) (n.shared.value.answer r) i := by
  cases r with
  | image v =>
    have hone : image v n = .ok (i, n') := h
    exact intern_answers hone (fun _ => rfl) fun _ _ h => ⟨h, .refl _, .refl _, .refl _, .refl _⟩
  | string v =>
    have hone : string v n = .ok (i, n') := h
    exact intern_answers hone (fun _ => rfl) fun _ _ h => ⟨.refl _, h, .refl _, .refl _, .refl _⟩
  | floatList v =>
    have hone : floatList v n = .ok (i, n') := h
    exact intern_answers hone (fun _ => rfl) fun _ _ h => ⟨.refl _, .refl _, h, .refl _, .refl _⟩
  | transform v =>
    have hone : transform v n = .ok (i, n') := h
    exact intern_answers hone (fun _ => rfl) fun _ _ h => ⟨.refl _, .refl _, .refl _, h, .refl _⟩
  | path v =>
    have hone : path v n = .ok (i, n') := h
    exact intern_answers hone (fun _ => rfl) fun _ _ h => ⟨.refl _, .refl _, .refl _, .refl _, h⟩

theorem perform_of_answer {r : InternRequest} {n : Interner} {i : UInt32}
    (h : (n.shared.value.answer r).2 = .ok i) : ∃ n', r.perform n = .ok (i, n') := by
  cases r with
  | image v => exact intern_of_answer h
  | string v => exact intern_of_answer h
  | floatList v => exact intern_of_answer h
  | transform v => exact intern_of_answer h
  | path v => exact intern_of_answer h

theorem perform_cons_eq_ok {r : InternRequest} {rs : List InternRequest} {n n' : Interner}
    {is : List UInt32} :
    (r :: rs).mapM InternRequest.perform n = .ok (is, n') ↔
      ∃ i m js, r.perform n = .ok (i, m) ∧ rs.mapM InternRequest.perform m = .ok (js, n') ∧
        is = i :: js := by
  rw [List.mapM_cons, state_bind_eq_ok]
  constructor
  · rintro ⟨i, m, hi, h⟩
    obtain ⟨js, u, hjs, h⟩ := state_bind_eq_ok.mp h
    obtain ⟨rfl, rfl⟩ := state_pure_eq_ok.mp h
    exact ⟨i, m, js, hi, hjs, rfl⟩
  · rintro ⟨i, m, js, hi, hjs, rfl⟩
    exact ⟨i, m, hi, state_bind_eq_ok.mpr ⟨js, n', hjs, state_pure_eq_ok.mpr ⟨rfl, rfl⟩⟩⟩

/-- A run answers as the tables do on their own, and only adds to them. -/
theorem perform_run {rs : List InternRequest} {n n' : Interner} {is : List UInt32}
    (h : rs.mapM InternRequest.perform n = .ok (is, n')) :
    serve TableSet.answer n.shared.value rs = (n'.shared.value, is.map .ok) ∧
      n.shared.value.ExtendedBy n'.shared.value := by
  induction rs generalizing n is with
  | nil =>
    obtain ⟨rfl, rfl⟩ := state_pure_eq_ok.mp h
    exact ⟨rfl, .refl _⟩
  | cons r rs ih =>
    obtain ⟨i, m, js, hi, hjs, rfl⟩ := perform_cons_eq_ok.mp h
    have hfirst := perform_answers hi
    obtain ⟨hrest, hgrows⟩ := ih hjs
    refine ⟨?_, hfirst.extended.trans hgrows⟩
    simp only [serve, hfirst.answered, hrest, List.map_cons]

/-- A run of which every request is found leaves the interner as it is; another one gives the tables
the run's own instance, and they keep it. -/
theorem perform_run_shared {rs : List InternRequest} {n n' : Interner} {is : List UInt32}
    (h : rs.mapM InternRequest.perform n = .ok (is, n')) :
    ((∀ r ∈ rs, (r.find? n.shared.value).isSome) → n' = n) ∧
      (n.shared.inst = ⟨n.stamp, []⟩ ∨ (∃ r ∈ rs, r.find? n.shared.value = none) →
        n'.shared.inst = ⟨n.stamp, []⟩) := by
  induction rs generalizing n is with
  | nil =>
    obtain ⟨-, rfl⟩ := state_pure_eq_ok.mp h
    refine ⟨fun _ => rfl, ?_⟩
    rintro (hown | ⟨r, hr, -⟩)
    · exact hown
    · cases hr
  | cons r rs ih =>
    obtain ⟨i, m, js, hi, hjs, rfl⟩ := perform_cons_eq_ok.mp h
    have hfirst := perform_answers hi
    obtain ⟨hkept, hown⟩ := ih hjs
    cases hfind : r.find? n.shared.value with
    | some k =>
      obtain rfl := hfirst.kept (by rw [hfind]; rfl)
      refine ⟨fun hall => hkept fun r hr => hall r (List.mem_cons_of_mem _ hr), ?_⟩
      rintro (hinst | ⟨r', hr', hnone⟩)
      · exact hown (.inl hinst)
      · rcases List.mem_cons.mp hr' with rfl | hr'
        · rw [hfind] at hnone
          cases hnone
        · exact hown (.inr ⟨r', hr', hnone⟩)
    | none =>
      obtain ⟨hstamp, hinst⟩ := hfirst.renewed hfind
      rw [hstamp] at hown
      refine ⟨fun hall => ?_, fun _ => hown (.inl hinst)⟩
      have hsome := hall r List.mem_cons_self
      rw [hfind] at hsome
      cases hsome

/-- A run succeeds when the tables on their own answer every request. -/
theorem perform_run_of_answers {rs : List InternRequest} {n : Interner}
    (h : ∀ a ∈ (serve TableSet.answer n.shared.value rs).2, ∃ i, a = .ok i) :
    ∃ is n', rs.mapM InternRequest.perform n = .ok (is, n') := by
  induction rs generalizing n with
  | nil => exact ⟨[], n, rfl⟩
  | cons r rs ih =>
    obtain ⟨i, hi⟩ := h _ List.mem_cons_self
    obtain ⟨m, hm⟩ := perform_of_answer hi
    have hserve : (serve TableSet.answer n.shared.value (r :: rs)).2 =
        .ok i :: (serve TableSet.answer m.shared.value rs).2 := by
      simp only [serve, (perform_answers hm).answered]
    rw [hserve] at h
    obtain ⟨js, n', hjs⟩ := ih fun a ha => h a (List.mem_cons_of_mem _ ha)
    exact ⟨i :: js, n', perform_cons_eq_ok.mpr ⟨i, m, js, hm, hjs, rfl⟩⟩

end Interner

/-- What an interner does with tables that another image holds too. -/
structure Interner.KeepsSeed [KeyDigest] (stamp : Nat) (seed : Shared TableSet) : Prop where
  /-- Every value is answered as its own table answers it, and the tables are those afterwards: they
  have what the seed has at the same index, and can be a seed in turn. -/
  answers {rs : List InternRequest} {is : List UInt32} {n : Interner}
    (h : rs.mapM InternRequest.perform (seeded stamp seed) = .ok (is, n)) :
    serve TableSet.answer seed.value rs = (n.shared.value, is.map .ok) ∧
      seed.value.ExtendedBy n.shared.value ∧ n.shared.value.Filled
  /-- The instance of the seed holds what it held. -/
  unchanged {rs : List InternRequest} {is : List UInt32} {n : Interner}
    (h : rs.mapM InternRequest.perform (seeded stamp seed) = .ok (is, n))
    (hinst : n.shared.inst = seed.inst) : n.shared = seed
  /-- The snapshot is the seed exactly when every value was there. -/
  same_iff {rs : List InternRequest} {is : List UInt32} {n : Interner}
    (h : rs.mapM InternRequest.perform (seeded stamp seed) = .ok (is, n)) :
    n.shared.inst = seed.inst ↔ ∀ r ∈ rs, r.PresentIn seed.value
  /-- Interning fails only where a table has no index left. -/
  progress {rs : List InternRequest}
    (h : ∀ a ∈ (serve TableSet.answer seed.value rs).2, ∃ i, a = .ok i) :
    ∃ is n, rs.mapM InternRequest.perform (seeded stamp seed) = .ok (is, n)

namespace Interner

variable [KeyDigest] {stamp : Nat} {seed : Shared TableSet}

/-- A seeded run ends with the seed or with tables of its own. -/
private theorem seeded_outcome (hfilled : seed.value.Filled) {rs : List InternRequest}
    {is : List UInt32} {n : Interner}
    (h : rs.mapM InternRequest.perform (seeded stamp seed) = .ok (is, n)) :
    ((∀ r ∈ rs, r.PresentIn seed.value) ∧ n.shared = seed) ∨
      ((¬∀ r ∈ rs, r.PresentIn seed.value) ∧ n.shared.inst = ⟨stamp, []⟩) := by
  obtain ⟨hkept, hown⟩ := perform_run_shared h
  by_cases hall : ∀ r ∈ rs, r.PresentIn seed.value
  · have hfound := hkept fun r hr => (InternRequest.find?_isSome_iff hfilled r).mpr (hall r hr)
    exact .inl ⟨hall, congrArg Interner.shared hfound⟩
  · refine .inr ⟨hall, hown (.inr ?_)⟩
    obtain ⟨r, hr⟩ := not_forall.mp hall
    obtain ⟨hmem, habsent⟩ := Classical.not_imp.mp hr
    refine ⟨r, hmem, Option.not_isSome_iff_eq_none.mp fun hsome => habsent ?_⟩
    exact (InternRequest.find?_isSome_iff hfilled r).mp hsome

theorem keepsSeed (hfilled : seed.value.Filled) (hinst : seed.inst ≠ ⟨stamp, []⟩) :
    KeepsSeed stamp seed where
  answers {rs is n} h := by
    obtain ⟨hserve, hgrows⟩ := perform_run h
    have hstill := serve_induct (fun _ r ht => ht.answer r) hfilled rs
    have htables : (serve TableSet.answer seed.value rs).1 = n.shared.value :=
      congrArg Prod.fst hserve
    exact ⟨hserve, hgrows, htables ▸ hstill⟩
  unchanged h hsame := by
    rcases seeded_outcome hfilled h with ⟨-, hseed⟩ | ⟨-, hown⟩
    · exact hseed
    · exact absurd (hsame.symm.trans hown) hinst
  same_iff h := by
    rcases seeded_outcome hfilled h with ⟨hall, hseed⟩ | ⟨hnew, hown⟩
    · exact iff_of_true (congrArg Shared.inst hseed) hall
    · exact iff_of_false (fun hsame => hinst (hsame.symm.trans hown)) hnew
  progress h := perform_run_of_answers h

end Interner

/-- Tables keep first occurrences, whatever the digest, and interning into tables that another image
holds leaves those as they are. -/
theorem tables_keep_first_occurrences [KeyDigest] :
    (∀ (α : Type) [Keyed α], CanonicalTable.FirstOccurrences α) ∧
      ∀ (stamp : Nat) (seed : Shared TableSet), seed.value.Filled → seed.inst ≠ ⟨stamp, []⟩ →
        Interner.KeepsSeed stamp seed :=
  ⟨fun _ _ => CanonicalTable.firstOccurrences, fun _ _ => Interner.keepsSeed⟩

/-- Two strings in one bucket are told apart by their keys, and a loaded repetition does not move the
index of the first. A run that meets nothing new keeps the instance of its seed. -/
theorem tables_keep_first_occurrences_collision :
    let _digest : KeyDigest := ⟨fun _ => 0⟩
    let seed : Shared TableSet :=
      ⟨⟨0, []⟩, { TableSet.empty with strings := .filled [.load "b", .load "b"] }⟩
    (serve CanonicalTable.answer .empty
        ([.load "b", .load "b", .intern "a", .intern "b"] : List (TableRequest String))).2 =
      [.ok 0, .ok 1, .ok 2, .ok 0] ∧
    seed.value.Filled ∧ seed.inst ≠ ⟨1, []⟩ ∧
      ∃ is n, [InternRequest.string "b"].mapM InternRequest.perform (Interner.seeded 1 seed) =
        .ok (is, n) ∧ n.shared = seed := by
  intro _digest seed
  obtain ⟨htable, hseed⟩ := tables_keep_first_occurrences
  have hanswers := (htable String).refines [.load "b", .load "b", .intern "a", .intern "b"]
  have hlist : serve Occurrences.answer []
      ([.load "b", .load "b", .intern "a", .intern "b"] : List (TableRequest String)) =
      (["b", "b", "a"], [.ok 0, .ok 1, .ok 2, .ok 0]) := rfl
  have hfilled : seed.value.Filled := ⟨⟨[], rfl⟩, ⟨_, rfl⟩, ⟨[], rfl⟩, ⟨[], rfl⟩, ⟨[], rfl⟩⟩
  have hother : seed.inst ≠ ⟨1, []⟩ := by decide
  have hkeeps := hseed 1 seed hfilled hother
  have hfound := (htable String).finds [.load "b", .load "b"] "b" "b" 0 rfl rfl
    fun j hj => absurd hj (Nat.not_lt_zero j)
  have hserve : (serve TableSet.answer seed.value [.string "b"]).2 = [.ok 0] := by
    simp only [serve, TableSet.answer, TableSet.answerIn, seed]
    rw [hfound]
    rfl
  have hone : ∀ a ∈ (serve TableSet.answer seed.value [.string "b"]).2, ∃ i, a = .ok i := by
    rw [hserve]
    exact fun a ha => ⟨0, List.mem_singleton.mp ha⟩
  have hpresent : ∀ r ∈ [InternRequest.string "b"], r.PresentIn seed.value := by
    intro r hr
    obtain rfl := List.mem_singleton.mp hr
    exact ⟨"b", Array.mem_of_getElem? (i := 0) rfl, rfl⟩
  obtain ⟨is, n, hrun⟩ := hkeeps.progress hone
  rw [hlist] at hanswers
  exact ⟨(Prod.mk.inj hanswers).2, hfilled, hother, is, n, hrun,
    hkeeps.unchanged hrun ((hkeeps.same_iff hrun).mpr hpresent)⟩

end VectorImage
