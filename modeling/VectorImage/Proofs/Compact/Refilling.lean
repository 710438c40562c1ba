import VectorImage.Proofs.Compact.Retracing

/-!
Giving an encoder all the images, strings and float lists that another one has ended with. They are
all different, so they go into its tables in their order and every index is its own place: the
encoder is ready to retrace the other one from the start of its tree.
-/

set_option autoImplicit false
set_option relaxedAutoImplicit false

namespace VectorImage

open VectorImage.Compact

namespace Encoder

variable {e e' : Encoder} {final : TableSet} {width : FloatWidth}

private theorem mapM_frame {α β : Type} {m : α → Encode UInt32} {vs : List α} {is : List UInt32}
    (h : vs.mapM m e = .ok (is, e')) (get : TableSet → β)
    (hm : ∀ {v : α} {e e' : Encoder} {i : UInt32}, m v e = .ok (i, e') →
      get e'.tables = get e.tables) : get e'.tables = get e.tables := by
  induction vs generalizing e is with
  | nil =>
    rw [List.mapM_nil] at h
    obtain ⟨rfl, rfl⟩ := state_pure_eq_ok.mp h
    rfl
  | cons v vs ih =>
    obtain ⟨i, rest, e₁, hi, hrest, rfl⟩ := state_mapM_cons_eq_ok.mp h
    exact (ih hrest).trans (hm hi)

/-- Given tables leave the transforms and the paths as they are. -/
theorem init_only {tables : Tables} {u : Unit} (h : init tables e = .ok (u, e')) :
    e'.tables.transforms = e.tables.transforms ∧ e'.tables.paths = e.tables.paths := by
  obtain ⟨images, strings, floatLists, e₁, e₂, e₃, himages, hstrings, hfloatLists, rfl⟩ :=
    init_eq_ok.mp h
  have hfirst := mapM_frame himages (fun t => (t.transforms, t.paths))
    fun h => interning_frame h (fun t => (t.transforms, t.paths)) fun _ _ => rfl
  have hsecond := mapM_frame hstrings (fun t => (t.transforms, t.paths))
    fun h => interning_frame h (fun t => (t.transforms, t.paths)) fun _ _ => rfl
  have hthird := mapM_frame hfloatLists (fun t => (t.transforms, t.paths))
    fun h => interning_frame (floats_eq_ok.mp h) (fun t => (t.transforms, t.paths)) fun _ _ => rfl
  exact Prod.mk.inj (hthird.trans (hsecond.trans hfirst))

section Fill

variable {α : Type} [Keyed α] [LawfulKeyed α] {pick : TableSet → CanonicalTable α}
  {put : TableSet → CanonicalTable α → TableSet} {m : α → Encode UInt32}
  {target : CanonicalTable α} {k : Nat}

/-- The entries of a table go, one by one, behind those of a table that begins like it, and make it
the same table. -/
private theorem mapM_fill (hslot : TableSet.Slot pick put) (htarget : target.Tidy k)
    (hroom : target.size < 2 ^ 32) {before vs : List α}
    (hsplit : target.entries.toList = before ++ vs) (hbuilt : (pick e.tables).Built)
    (hentries : (pick e.tables).entries.toList = before)
    (hm : ∀ v ∈ vs, ∀ e' : Encoder, e'.width = e.width →
      m v e' = interning (Interner.intern pick put v) e') :
    ∃ is n, vs.mapM m e = .ok (is, { e with interner := n }) ∧
      n.shared.value = put e.tables target := by
  induction vs generalizing e before with
  | nil =>
    have hsame : pick e.tables = target := by
      rw [← hbuilt, hentries, ← List.append_nil before, ← hsplit]
      exact htarget.built
    rw [List.mapM_nil, ← hsame]
    exact ⟨[], e.interner, rfl, (hslot.put_pick _).symm⟩
  | cons v vs ih =>
    have hdistinct := htarget.distinct
    rw [CanonicalTable.size, ← Array.length_toList, hsplit, List.length_append,
      List.length_cons] at hroom
    rw [hsplit] at hdistinct
    have hnew : (pick e.tables).find? v = none := by
      refine Option.eq_none_iff_forall_ne_some.mpr fun i hfound => ?_
      have hmem := Array.mem_toList_iff.mpr (CanonicalTable.mem_of_find? hfound)
      rw [hentries] at hmem
      exact (List.nodup_append.mp hdistinct).2.2 v hmem v List.mem_cons_self rfl
    have hsize : (pick e.tables).size < 2 ^ 32 := by
      rw [CanonicalTable.size, ← Array.length_toList, hentries]
      omega
    obtain ⟨n, hn, hvalue⟩ := Interner.intern_of_new pick put hnew hsize
    have htable : pick n.shared.value = (pick e.tables).push v :=
      (congrArg pick hvalue).trans (hslot.pick_put _ _)
    have hpushed : (pick n.shared.value).entries.toList = before ++ [v] := by
      rw [htable, CanonicalTable.entries_push, Array.toList_push, hentries]
    have hbuilt' : (pick n.shared.value).Built := htable ▸ hbuilt.push v
    obtain ⟨is, n', his, hvalue'⟩ := ih (e := { e with interner := n })
      (hsplit.trans (List.append_cons ..)) hbuilt' hpushed
      fun w hw => hm w (List.mem_cons_of_mem v hw)
    refine ⟨UInt32.ofNat (pick e.tables).size :: is, n', ?_, ?_⟩
    · refine state_mapM_cons_eq_ok.mpr ⟨_, is, _, ?_, his, rfl⟩
      rw [hm v List.mem_cons_self e rfl]
      exact interning_eq_ok.mpr ⟨n, hn, rfl⟩
    · rw [hvalue']
      exact (congrArg (put · target) hvalue).trans (hslot.put_put _ _ _)

private theorem fill (hslot : TableSet.Slot pick put) (htarget : target.Tidy k)
    (hroom : target.size < 2 ^ 32) (hempty : pick e.tables = .empty)
    (hm : ∀ v ∈ target.entries.toList, ∀ e' : Encoder, e'.width = e.width →
      m v e' = interning (Interner.intern pick put v) e') :
    ∃ is n, target.entries.toList.mapM m e = .ok (is, { e with interner := n }) ∧
      n.shared.value = put e.tables target :=
  mapM_fill hslot htarget hroom (List.nil_append _).symm (hempty ▸ CanonicalTable.built_empty)
    (by rw [hempty]; rfl) hm

end Fill

/-- An encoder that is given the images, strings and float lists of tables has them as its own. -/
private theorem init_fill (hfinal : final.Finished width) (stamp : Nat) :
    ∃ f, init final.tables (.fresh stamp width) = .ok ((), f) ∧
      f.tables = { final with transforms := .empty, paths := .empty } := by
  obtain ⟨k, htidy⟩ := hfinal.tidy
  have hfloats (xs : List Binary64) (hxs : xs ∈ final.floatLists.entries.toList) (e : Encoder)
      (he : e.width = width) : floats xs e = interning (Interner.floatList xs) e := by
    show interning (Interner.floatList (xs.map e.width.round)) e = _
    rw [he, map_round_of_kept (hfinal.stored.keptFloats xs (Array.mem_toList_iff.mp hxs))]
  obtain ⟨images, n₁, himages, htables₁⟩ := fill TableSet.slot_images htidy.images
    hfinal.indexable.images (e := .fresh stamp width) rfl fun _ _ _ _ => rfl
  obtain ⟨strings, n₂, hstrings, htables₂⟩ := fill TableSet.slot_strings htidy.strings
    hfinal.indexable.strings (e := { Encoder.fresh stamp width with interner := n₁ })
    (congrArg TableSet.strings htables₁) fun _ _ _ _ => rfl
  replace htables₂ : n₂.shared.value =
      { TableSet.empty with images := final.images, strings := final.strings } :=
    htables₂.trans (congrArg (fun t : TableSet => { t with strings := final.strings }) htables₁)
  obtain ⟨lists, n₃, hlists, htables₃⟩ := fill TableSet.slot_floatLists htidy.floatLists
    hfinal.indexable.floatLists (e := { Encoder.fresh stamp width with interner := n₂ })
    (congrArg TableSet.floatLists htables₂) hfloats
  exact ⟨_, init_eq_ok.mpr ⟨_, _, _, _, _, _, himages, hstrings, hlists, rfl⟩, htables₃.trans
    (congrArg (fun t : TableSet => { t with floatLists := final.floatLists }) htables₂)⟩

/-- A place of an entry among the entries themselves is its own index. -/
private theorem own_place {α : Type} {entries : Array α} {kind : TableKind} {places : Array UInt32}
    (hdistinct : entries.toList.Nodup)
    (h : List.Forall₂ (fun i v => lookup entries kind i = .ok v) places.toList entries.toList)
    {i : UInt32} {v : α} (hi : lookup entries kind i = .ok v) : lookup places kind i = .ok i := by
  have hentry := lookup_eq_ok_iff.mp hi
  obtain ⟨hlt, -⟩ := Array.getElem?_eq_some_iff.mp hentry
  obtain ⟨j, -, hj⟩ := Resources.lookup_progress kind (Nat.lt_of_lt_of_eq hlt h.length_eq.symm)
  obtain ⟨w, hw, hjw⟩ := lookup_place h hj
  rw [List.getElem?_toArray, Array.getElem?_toList, hentry] at hw
  cases hw
  rw [← Array.getElem?_toList] at hentry
  have hsame := (List.getElem?_inj (by rwa [Array.length_toList]) hdistinct).mp
    (hentry.trans (Array.getElem?_toList.trans (lookup_eq_ok_iff.mp hjw)).symm)
  rw [hj, UInt32.toNat_inj.mp hsame]

/-- After the tables: those of the stream for the one, those that it will end with for the other. -/
theorem retraces_init (hfinal : final.Finished width) {stamp : Nat} {tables : Tables}
    {u : Unit} (h : init tables (.fresh stamp width) = .ok (u, e)) (stamp' : Nat) :
    ∃ f, init final.tables (.fresh stamp' width) = .ok ((), f) ∧ Retraces final e f := by
  obtain ⟨f, hf, htables⟩ := init_fill hfinal stamp'
  obtain ⟨hsame, hgrown, -⟩ := init_spec h
  obtain ⟨hsame', -, hplaces⟩ := init_spec hf
  obtain ⟨htransforms, hpaths⟩ := init_only h
  have hindexable : f.tables.Indexable := by
    rw [htables]
    exact { hfinal.indexable with
      transforms := Nat.two_pow_pos 32
      paths := Nat.two_pow_pos 32 }
  obtain ⟨himages, hstrings, hlists⟩ := hplaces ⟨.refl _, hindexable⟩
  have hwidth : f.width = width := by
    rw [hsame']
    rfl
  rw [hwidth, hfinal.stored.tables_round] at hlists
  rw [htables] at himages hstrings hlists
  obtain ⟨k, htidy⟩ := hfinal.tidy
  have hgradients : e.gradients = .empty := by
    rw [hsame]
    rfl
  have hstored := hgrown.stored (TableSet.stored_empty width)
  refine ⟨f, hf, ?_, ?_, ?_, ?_, own_place htidy.images.distinct himages,
    own_place htidy.strings.distinct hstrings, own_place htidy.floatLists.distinct hlists, ?_⟩
  · rw [hsame]
    exact hfinal
  · rw [hsame]
    exact hstored
  · rw [hsame, hsame']
    rfl
  · rw [htables, htransforms, hpaths]
    rfl
  · rw [hgradients]
    intro g hg
    exact absurd hg (Array.not_mem_empty g)

end Encoder

end VectorImage
