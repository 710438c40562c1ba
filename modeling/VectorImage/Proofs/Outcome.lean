import VectorImage.Error

/-!
Computations that succeed. A sequence of computations succeeds exactly when each one does on what
the ones before it gave; the laws here take such a success apart. And computations that come to the
same, in success and in failure.
-/

set_option autoImplicit false
set_option relaxedAutoImplicit false

namespace VectorImage

variable {ε α β σ : Type}

theorem toBool_eq_true {x : Except ε α} : x.toBool = true ↔ ∃ a, x = .ok a := by
  cases x <;> simp [Except.toBool]

theorem bind_eq_ok {x : Except ε α} {f : α → Except ε β} {b : β} :
    (x >>= f) = .ok b ↔ ∃ a, x = .ok a ∧ f a = .ok b := by
  cases x with
  | error e =>
    refine ⟨fun h => (nomatch h), ?_⟩
    rintro ⟨a, ha, -⟩
    cases ha
  | ok a =>
    refine ⟨fun h => ⟨a, rfl, h⟩, ?_⟩
    rintro ⟨a', ha, h⟩
    cases ha
    exact h

theorem map_eq_ok {f : α → β} {x : Except ε α} {b : β} :
    x.map f = .ok b ↔ ∃ a, x = .ok a ∧ f a = b := by
  cases x with
  | error e =>
    refine ⟨fun h => (nomatch h), ?_⟩
    rintro ⟨a, ha, -⟩
    cases ha
  | ok a =>
    simp only [Except.map, Except.ok.injEq, exists_eq_left']

theorem functor_map_eq_ok {f : α → β} {x : Except ε α} {b : β} :
    (f <$> x) = .ok b ↔ ∃ a, x = .ok a ∧ f a = b := map_eq_ok

theorem pure_eq_ok {a b : α} : (pure a : Except ε α) = .ok b ↔ a = b :=
  ⟨Except.ok.inj, congrArg Except.ok⟩

theorem bind_pure_eq_ok {x : Except ε α} {f : α → β} {b : β} :
    (x >>= fun a => pure (f a)) = .ok b ↔ ∃ a, x = .ok a ∧ b = f a := by
  simp only [bind_eq_ok, pure_eq_ok, @eq_comm β b]

/-- A computation with a state, taken apart. -/
theorem state_bind_eq_ok {x : StateT σ (Except ε) α} {f : α → StateT σ (Except ε) β} {s t : σ}
    {b : β} : (x >>= f) s = .ok (b, t) ↔ ∃ a u, x s = .ok (a, u) ∧ f a u = .ok (b, t) := by
  refine (bind_eq_ok (x := x s) (f := fun p => f p.1 p.2)).trans ?_
  constructor
  · rintro ⟨⟨a, u⟩, hx, hf⟩
    exact ⟨a, u, hx, hf⟩
  · rintro ⟨a, u, hx, hf⟩
    exact ⟨(a, u), hx, hf⟩

theorem state_map_eq_ok {f : α → β} {x : StateT σ (Except ε) α} {s t : σ} {b : β} :
    (f <$> x) s = .ok (b, t) ↔ ∃ a, x s = .ok (a, t) ∧ f a = b := by
  refine (bind_eq_ok (x := x s) (f := fun p => pure (f p.1, p.2))).trans ?_
  constructor
  · rintro ⟨⟨a, u⟩, hx, hf⟩
    cases hf
    exact ⟨a, hx, rfl⟩
  · rintro ⟨a, hx, rfl⟩
    exact ⟨(a, t), hx, rfl⟩

theorem state_pure_eq_ok {a b : α} {s t : σ} :
    (pure a : StateT σ (Except ε) α) s = .ok (b, t) ↔ a = b ∧ s = t := by
  refine ⟨fun h => ?_, ?_⟩
  · cases h
    exact ⟨rfl, rfl⟩
  · rintro ⟨rfl, rfl⟩
    rfl

theorem state_get_eq_ok {u s t : σ} :
    (get : StateT σ (Except ε) σ) s = .ok (u, t) ↔ u = s ∧ t = s := by
  refine ⟨fun h => ?_, ?_⟩
  · cases h
    exact ⟨rfl, rfl⟩
  · rintro ⟨rfl, rfl⟩
    rfl

theorem state_modify_eq_ok {f : σ → σ} {s t : σ} {u : PUnit} :
    (modify f : StateT σ (Except ε) PUnit) s = .ok (u, t) ↔ t = f s := by
  refine ⟨fun h => ?_, ?_⟩
  · cases h
    rfl
  · rintro rfl
    rfl

theorem state_lift_eq_ok {x : Except ε α} {s t : σ} {a : α} :
    (liftM x : StateT σ (Except ε) α) s = .ok (a, t) ↔ x = .ok a ∧ t = s := by
  refine (bind_eq_ok (x := x) (f := fun b => pure (b, s))).trans ?_
  constructor
  · rintro ⟨b, hx, hb⟩
    cases hb
    exact ⟨hx, rfl⟩
  · rintro ⟨hx, rfl⟩
    exact ⟨a, hx, rfl⟩

/-- A list whose elements all succeed, taken apart at its head. -/
theorem state_mapM_cons_eq_ok {f : α → StateT σ (Except ε) β} {a : α} {as : List α} {bs : List β}
    {s t : σ} : (a :: as).mapM f s = .ok (bs, t) ↔
      ∃ b rest u, f a s = .ok (b, u) ∧ as.mapM f u = .ok (rest, t) ∧ bs = b :: rest := by
  rw [List.mapM_cons]
  constructor
  · intro h
    obtain ⟨b, u, hb, h⟩ := state_bind_eq_ok.mp h
    obtain ⟨rest, v, hrest, h⟩ := state_bind_eq_ok.mp h
    obtain ⟨rfl, rfl⟩ := state_pure_eq_ok.mp h
    exact ⟨b, rest, u, hb, hrest, rfl⟩
  · rintro ⟨b, rest, u, hb, hrest, rfl⟩
    exact state_bind_eq_ok.mpr ⟨b, u, hb, state_bind_eq_ok.mpr ⟨rest, t, hrest, rfl⟩⟩

theorem mapM_cons_eq_ok {f : α → Except ε β} {a : α} {as : List α} {bs : List β} :
    (a :: as).mapM f = .ok bs ↔
      ∃ b rest, f a = .ok b ∧ as.mapM f = .ok rest ∧ bs = b :: rest := by
  rw [List.mapM_cons, bind_eq_ok]
  constructor
  · rintro ⟨b, hb, h⟩
    obtain ⟨rest, hrest, h⟩ := bind_eq_ok.mp h
    exact ⟨b, rest, hb, hrest, (pure_eq_ok.mp h).symm⟩
  · rintro ⟨b, rest, hb, hrest, rfl⟩
    exact ⟨b, hb, bind_eq_ok.mpr ⟨rest, hrest, rfl⟩⟩

theorem mapM_nil_eq_ok {f : α → Except ε β} {bs : List β} :
    ([] : List α).mapM f = .ok bs ↔ bs = [] := by
  rw [List.mapM_nil, pure_eq_ok]
  exact eq_comm

/-- A list is mapped when each of its elements is. -/
theorem mapM_succeeds {f : α → Except ε β} {as : List α} :
    (∃ bs, as.mapM f = .ok bs) ↔ ∀ a ∈ as, ∃ b, f a = .ok b := by
  induction as with
  | nil => exact iff_of_true ⟨[], mapM_nil_eq_ok.mpr rfl⟩ fun a ha => nomatch ha
  | cons a as ih =>
    rw [List.forall_mem_cons, ← ih]
    constructor
    · rintro ⟨bs, h⟩
      obtain ⟨b, rest, hb, hrest, -⟩ := mapM_cons_eq_ok.mp h
      exact ⟨⟨b, hb⟩, rest, hrest⟩
    · rintro ⟨⟨b, hb⟩, rest, hrest⟩
      exact ⟨b :: rest, mapM_cons_eq_ok.mpr ⟨b, rest, hb, hrest, rfl⟩⟩

theorem mapM_length {f : α → Except ε β} {as : List α} {bs : List β} (h : as.mapM f = .ok bs) :
    bs.length = as.length := by
  induction as generalizing bs with
  | nil =>
    rw [mapM_nil_eq_ok.mp h]
    rfl
  | cons a as ih =>
    obtain ⟨b, rest, -, hrest, rfl⟩ := mapM_cons_eq_ok.mp h
    rw [List.length_cons, List.length_cons, ih hrest]

theorem mem_of_mapM {f : α → Except ε β} {as : List α} {bs : List β} (h : as.mapM f = .ok bs)
    {b : β} (hb : b ∈ bs) : ∃ a ∈ as, f a = .ok b := by
  induction as generalizing bs with
  | nil =>
    rw [mapM_nil_eq_ok.mp h] at hb
    cases hb
  | cons a as ih =>
    obtain ⟨c, rest, hc, hrest, rfl⟩ := mapM_cons_eq_ok.mp h
    rcases List.mem_cons.mp hb with rfl | hb
    · exact ⟨a, List.mem_cons_self, hc⟩
    · obtain ⟨d, hd, hb⟩ := ih hrest hb
      exact ⟨d, List.mem_cons_of_mem a hd, hb⟩

theorem mem_of_mem_mapM {f : α → Except ε β} {as : List α} {bs : List β} (h : as.mapM f = .ok bs)
    {a : α} (ha : a ∈ as) : ∃ b, f a = .ok b ∧ b ∈ bs := by
  induction as generalizing bs with
  | nil => cases ha
  | cons c as ih =>
    obtain ⟨b, rest, hb, hrest, rfl⟩ := mapM_cons_eq_ok.mp h
    rcases List.mem_cons.mp ha with rfl | ha
    · exact ⟨b, hb, List.mem_cons_self⟩
    · obtain ⟨d, hd, hmem⟩ := ih hrest ha
      exact ⟨d, hd, List.mem_cons_of_mem b hmem⟩

theorem mapM_append_eq_ok {f : α → Except ε β} {as as' : List α} {bs : List β} :
    (as ++ as').mapM f = .ok bs ↔
      ∃ first rest, as.mapM f = .ok first ∧ as'.mapM f = .ok rest ∧ bs = first ++ rest := by
  rw [List.mapM_append, bind_eq_ok]
  constructor
  · rintro ⟨first, hfirst, h⟩
    obtain ⟨rest, hrest, h⟩ := bind_eq_ok.mp h
    exact ⟨first, rest, hfirst, hrest, (pure_eq_ok.mp h).symm⟩
  · rintro ⟨first, rest, hfirst, hrest, rfl⟩
    exact ⟨first, hfirst, bind_eq_ok.mpr ⟨rest, hrest, rfl⟩⟩

theorem option_mapM_some {f : α → Except ε β} {a : α} {b : Option β} :
    (some a).mapM f = .ok b ↔ ∃ v, f a = .ok v ∧ b = some v := by
  refine functor_map_eq_ok.trans ?_
  constructor
  · rintro ⟨v, hv, rfl⟩
    exact ⟨v, hv, rfl⟩
  · rintro ⟨v, hv, rfl⟩
    exact ⟨v, hv, rfl⟩

/-- Two attempts come to the same: results that are alike, or the same error. -/
inductive SameOutcome (alike : α → α → Prop) : Except ε α → Except ε α → Prop
  | ok {a b : α} (h : alike a b) : SameOutcome alike (.ok a) (.ok b)
  | error (e : ε) : SameOutcome alike (.error e) (.error e)

theorem SameOutcome.of_ok {alike : α → α → Prop} {a : α} {x : Except ε α}
    (h : SameOutcome alike (.ok a) x) : ∃ b, x = .ok b ∧ alike a b := by
  cases h with
  | ok h => exact ⟨_, rfl, h⟩

end VectorImage
