import VectorImage.Input.Parser
import VectorImage.Proofs.Outcome

/-!
Readers taken apart and put together. A run of a composed reader succeeds when its parts do; a
reader reads a value off some tokens when it does so whatever follows them.
-/

set_option autoImplicit false
set_option relaxedAutoImplicit false

namespace VectorImage

namespace Parser

variable {τ ε α β σ : Type}

theorem run_pure_eq_ok {a b : α} {i j : Input τ} :
    (pure a : Parser τ ε α).run i = .ok (b, j) ↔ a = b ∧ i = j := by
  rw [run_pure, Except.ok.injEq, Prod.mk.injEq]

theorem run_bind_eq_ok {p : Parser τ ε α} {f : α → Parser τ ε β} {i k : Input τ} {b : β} :
    (p >>= f).run i = .ok (b, k) ↔ ∃ a j, p.run i = .ok (a, j) ∧ (f a).run j = .ok (b, k) := by
  rw [run_bind]
  cases p.run i with
  | error e =>
    refine iff_of_false (fun h => (nomatch h)) ?_
    rintro ⟨a, j, ha, -⟩
    cases ha
  | ok r =>
    obtain ⟨a, j⟩ := r
    constructor
    · intro h
      exact ⟨a, j, rfl, h⟩
    · rintro ⟨a', j', ha, h⟩
      cases ha
      exact h

theorem run_bind_of {p : Parser τ ε α} {f : α → Parser τ ε β} {i j : Input τ} {a : α}
    (h : p.run i = .ok (a, j)) : (p >>= f).run i = (f a).run j := by
  rw [run_bind, h]

theorem run_map_eq_ok {f : α → β} {p : Parser τ ε α} {i j : Input τ} {b : β} :
    (f <$> p).run i = .ok (b, j) ↔ ∃ a, p.run i = .ok (a, j) ∧ f a = b := by
  refine (run_bind_eq_ok (p := p) (f := fun a => pure (f a))).trans ?_
  constructor
  · rintro ⟨a, k, ha, h⟩
    obtain ⟨rfl, rfl⟩ := run_pure_eq_ok.mp h
    exact ⟨a, ha, rfl⟩
  · rintro ⟨a, ha, rfl⟩
    exact ⟨a, j, ha, rfl⟩

theorem run_ofExcept_eq_ok {x : Except ε α} {a : α} {i j : Input τ} :
    (ofExcept x).run i = .ok (a, j) ↔ x = .ok a ∧ i = j := by
  cases x with
  | error e =>
    refine iff_of_false (fun h => (nomatch h)) ?_
    rintro ⟨ha, -⟩
    cases ha
  | ok v =>
    refine run_pure_eq_ok.trans ?_
    rw [Except.ok.injEq]

theorem run_mapError_eq_ok {f : ε → ε} {p : Parser τ ε α} {i j : Input τ} {a : α} :
    (p.mapError f).run i = .ok (a, j) ↔ p.run i = .ok (a, j) := by
  unfold mapError
  dsimp only
  cases p.run i with
  | error e => exact iff_of_false (fun h => nomatch h) fun h => nomatch h
  | ok r => exact Iff.rfl

theorem run_iterate (step : σ → Parser τ ε (Option σ)) (s : σ) (i : Input τ) :
    (iterate step s).run i = (iterateFrom step s i).map fun r => (r.1, r.2.1) := by
  simp only [iterate]
  cases iterateFrom step s i <;> rfl

theorem run_iterate_error {step : σ → Parser τ ε (Option σ)} {s : σ} {i : Input τ} {e : ε}
    (h : (step s).run i = .error e) : (iterate step s).run i = .error e := by
  have hfrom : iterateFrom step s i = .error e := by
    rw [iterateFrom]
    split
    · next he =>
      cases h.symm.trans he
      rfl
    · next hn => cases h.symm.trans hn
    · next hn => cases h.symm.trans hn
  rw [run_iterate, hfrom]
  rfl

theorem run_iterate_done {step : σ → Parser τ ε (Option σ)} {s : σ} {i j : Input τ}
    (h : (step s).run i = .ok (none, j)) : (iterate step s).run i = .ok (s, j) := by
  have hfrom : (iterateFrom step s i).map (fun r => (r.1, r.2.1)) = .ok (s, j) := by
    rw [iterateFrom]
    split
    · next he => cases h.symm.trans he
    · next hn =>
      cases h.symm.trans hn
      rfl
    · next hn => cases h.symm.trans hn
  rw [run_iterate, hfrom]

/-- A step that makes progress is followed by the others. -/
theorem run_iterate_next {step : σ → Parser τ ε (Option σ)} {s t : σ} {i j : Input τ}
    (h : (step s).run i = .ok (some t, j)) (hlt : i.offset < j.offset) :
    (iterate step s).run i = (iterate step t).run j := by
  have hfrom : (iterateFrom step s i).map (fun r => (r.1, r.2.1)) =
      (iterateFrom step t j).map fun r => (r.1, r.2.1) := by
    rw [iterateFrom]
    split
    · next he => cases h.symm.trans he
    · next hn => cases h.symm.trans hn
    · next hn =>
      cases h.symm.trans hn
      rw [dif_pos hlt]
      cases iterateFrom step t j <;> rfl
  rw [run_iterate, run_iterate, hfrom]

theorem parse_eq (p : Parser τ ε α) (tokens : List τ) :
    p.parse tokens = (p.run ⟨0, tokens⟩).map Prod.fst := rfl

theorem parse_eq_ok {p : Parser τ ε α} {tokens : List τ} {a : α} :
    p.parse tokens = .ok a ↔ ∃ j, p.run (.ofList tokens) = .ok (a, j) := by
  refine map_eq_ok.trans ?_
  constructor
  · rintro ⟨⟨a', j⟩, hrun, rfl⟩
    exact ⟨j, hrun⟩
  · rintro ⟨j, hrun⟩
    exact ⟨_, hrun, rfl⟩

/-- `p` reads `a` off `taken`, whatever follows. -/
def Reads (p : Parser τ ε α) (taken : List τ) (a : α) : Prop :=
  ∀ (offset : Nat) (rest : List τ),
    p.run ⟨offset, taken ++ rest⟩ = .ok (a, ⟨offset + taken.length, rest⟩)

namespace Reads

variable {p : Parser τ ε α} {f : α → Parser τ ε β} {first rest : List τ} {a : α} {b : β}

theorem pure (a : α) : (pure a : Parser τ ε α).Reads [] a := fun _ _ => rfl

theorem bind (hp : p.Reads first a) (hf : (f a).Reads rest b) :
    (p >>= f).Reads (first ++ rest) b := by
  intro offset after
  rw [List.append_assoc, List.length_append, ← Nat.add_assoc]
  exact run_bind_eq_ok.mpr ⟨a, _, hp offset _, hf _ after⟩

/-- A reader followed by one that takes nothing. -/
theorem bind_nil (hp : p.Reads first a) (hf : (f a).Reads [] b) : (p >>= f).Reads first b := by
  have h := hp.bind hf
  rwa [List.append_nil] at h

theorem map {g : α → β} (hp : p.Reads first a) : (g <$> p).Reads first (g a) :=
  fun offset after => run_map_eq_ok.mpr ⟨a, hp offset after, rfl⟩

theorem ofExcept {x : Except ε α} (h : x = .ok a) : (ofExcept x : Parser τ ε α).Reads [] a :=
  fun _ _ => run_ofExcept_eq_ok.mpr ⟨h, rfl⟩

/-- A value that is there already, and what is read after it. -/
theorem ofExcept_bind {x : Except ε α} (hx : x = .ok a) (hf : (f a).Reads rest b) :
    (Parser.ofExcept x >>= f).Reads rest b := bind (ofExcept hx) hf

theorem replicate {write : α → List τ} {as : List α} (h : ∀ a ∈ as, p.Reads (write a) a) :
    (replicate p as.length).Reads (as.flatMap write) as := by
  induction as with
  | nil => exact .pure []
  | cons a as ih =>
    rw [List.flatMap_cons]
    refine (h a List.mem_cons_self).bind (bind_nil (ih fun b hb => ?_) (.pure _))
    exact h b (List.mem_cons_of_mem a hb)

theorem takeExactly {short : Input τ → ε} (taken : List τ) :
    (takeExactly taken.length short).Reads taken taken := by
  intro offset after
  simp only [Parser.takeExactly, splitExactly_append]

theorem mapError {g : ε → ε} (hp : p.Reads first a) : (p.mapError g).Reads first a := by
  intro offset after
  simp only [Parser.mapError, hp offset after]

/-- Reading the whole of what a value writes gives the value. -/
theorem parse (hp : p.Reads first a) : p.parse first = .ok a := by
  have h := hp 0 []
  rw [List.append_nil] at h
  exact parse_eq_ok.mpr ⟨_, h⟩

end Reads

end Parser

end VectorImage
