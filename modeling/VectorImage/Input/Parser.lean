/-!
Readers of a list of tokens, with the offset reached. A reader carries the proof that it only
moves forward: what it leaves is a suffix of what it was given, and the offset grows by what it
took. `Parser.iterate` repeats a reader for as long as it makes progress, and is total for that
reason.
-/

set_option autoImplicit false
set_option relaxedAutoImplicit false

namespace VectorImage

/-- What is still to be read, and how much has been read before it. -/
structure Input (τ : Type) where
  offset : Nat
  rest : List τ

namespace Input

variable {τ : Type}

def ofList (rest : List τ) : Input τ := ⟨0, rest⟩

/-- `j` is what remains of `i` after some tokens were taken. -/
def Reaches (i j : Input τ) : Prop :=
  ∃ taken, i.rest = taken ++ j.rest ∧ j.offset = i.offset + taken.length

theorem Reaches.refl (i : Input τ) : i.Reaches i := ⟨[], rfl, rfl⟩

theorem Reaches.trans {i j k : Input τ} (hij : i.Reaches j) (hjk : j.Reaches k) : i.Reaches k := by
  obtain ⟨first, hi, hoi⟩ := hij
  obtain ⟨second, hj, hoj⟩ := hjk
  refine ⟨first ++ second, ?_, ?_⟩
  · rw [hi, hj, List.append_assoc]
  · rw [hoj, hoi, List.length_append]
    omega

theorem Reaches.length_lt {i j : Input τ} (h : i.Reaches j) (ho : i.offset < j.offset) :
    j.rest.length < i.rest.length := by
  obtain ⟨taken, hr, hj⟩ := h
  rw [hr, List.length_append]
  omega

end Input

/-- A reader of tokens `τ` that fails with `ε` or yields `α`, moving forward. -/
structure Parser (τ ε α : Type) where
  run : Input τ → Except ε (α × Input τ)
  reaches : ∀ {i : Input τ} {a : α} {j : Input τ}, run i = .ok (a, j) → i.Reaches j

namespace Parser

variable {τ ε α β σ : Type}

protected def pure (a : α) : Parser τ ε α where
  run i := .ok (a, i)
  reaches h := by
    cases h
    exact .refl _

protected def bind (p : Parser τ ε α) (f : α → Parser τ ε β) : Parser τ ε β where
  run i :=
    match p.run i with
    | .error e => .error e
    | .ok (a, j) => (f a).run j
  reaches {i b k} h := by
    split at h
    · cases h
    · next a j hp => exact (p.reaches hp).trans ((f a).reaches h)

instance : Monad (Parser τ ε) where
  pure := Parser.pure
  bind := Parser.bind

theorem run_pure (a : α) (i : Input τ) : (pure a : Parser τ ε α).run i = .ok (a, i) := rfl

theorem run_bind (p : Parser τ ε α) (f : α → Parser τ ε β) (i : Input τ) :
    (p >>= f).run i = match p.run i with
      | .error e => .error e
      | .ok (a, j) => (f a).run j := rfl

/-- Refuse the input. -/
def fail (e : ε) : Parser τ ε α where
  run _ := .error e
  reaches h := by cases h

/-- A result that needs no input. -/
def ofExcept : Except ε α → Parser τ ε α
  | .ok a => Parser.pure a
  | .error e => fail e

/-- The input still to be read, left in place. -/
def input : Parser τ ε (Input τ) where
  run i := .ok (i, i)
  reaches h := by
    cases h
    exact .refl _

/-- The next token, left in place. -/
def peek? : Parser τ ε (Option τ) where
  run i := .ok (i.rest.head?, i)
  reaches h := by
    cases h
    exact .refl _

/-- Take the next token, if there is one. -/
def next? : Parser τ ε (Option τ) where
  run
    | ⟨o, []⟩ => .ok (none, ⟨o, []⟩)
    | ⟨o, t :: rest⟩ => .ok (some t, ⟨o + 1, rest⟩)
  reaches {i a j} h := by
    obtain ⟨o, rest⟩ := i
    cases rest with
    | nil =>
      cases h
      exact .refl _
    | cons t rest =>
      cases h
      exact ⟨[t], rfl, rfl⟩

/-- Split off exactly `n` tokens, if there are as many. -/
def splitExactly : Nat → List τ → Option (List τ × List τ)
  | 0, rest => some ([], rest)
  | _ + 1, [] => none
  | n + 1, t :: rest => (splitExactly n rest).map fun p => (t :: p.1, p.2)

theorem splitExactly_eq_some {n : Nat} {rest taken left : List τ}
    (h : splitExactly n rest = some (taken, left)) : rest = taken ++ left ∧ taken.length = n := by
  induction n generalizing rest taken with
  | zero =>
    simp only [splitExactly, Option.some.injEq, Prod.mk.injEq] at h
    obtain ⟨rfl, rfl⟩ := h
    exact ⟨rfl, rfl⟩
  | succ n ih =>
    cases rest with
    | nil => simp [splitExactly] at h
    | cons t rest =>
      simp only [splitExactly, Option.map_eq_some_iff] at h
      obtain ⟨⟨taken', left'⟩, hs, he⟩ := h
      simp only [Prod.mk.injEq] at he
      obtain ⟨rfl, rfl⟩ := he
      obtain ⟨hr, hl⟩ := ih hs
      exact ⟨by rw [hr, List.cons_append], by rw [List.length_cons, hl]⟩

theorem splitExactly_append (taken left : List τ) :
    splitExactly taken.length (taken ++ left) = some (taken, left) := by
  induction taken with
  | nil => rfl
  | cons t taken ih => simp [splitExactly, ih]

/-- Take exactly `n` tokens; `short` gives the error when there are fewer. -/
def takeExactly (n : Nat) (short : Input τ → ε) : Parser τ ε (List τ) where
  run i :=
    match splitExactly n i.rest with
    | some (taken, left) => .ok (taken, ⟨i.offset + n, left⟩)
    | none => .error (short i)
  reaches {i a j} h := by
    split at h
    · next taken left hs =>
      cases h
      obtain ⟨hr, hl⟩ := splitExactly_eq_some hs
      exact ⟨a, hr, by rw [hl]⟩
    · cases h

/-- Take tokens for as long as they satisfy `p`. -/
def takeWhile (p : τ → Bool) : Parser τ ε (List τ) where
  run i :=
    let taken := i.rest.takeWhile p
    .ok (taken, ⟨i.offset + taken.length, i.rest.drop taken.length⟩)
  reaches {i a j} h := by
    cases h
    refine ⟨i.rest.takeWhile p, ?_, rfl⟩
    have htake := List.takeWhile_append_dropWhile (p := p) (l := i.rest)
    have hdrop : i.rest.drop (i.rest.takeWhile p).length = i.rest.dropWhile p := by
      conv => lhs; arg 2; rw [← htake]
      exact List.drop_left
    exact (hdrop ▸ htake).symm

/-- Run `n` readers one after the other. -/
def replicate (p : Parser τ ε α) : Nat → Parser τ ε (List α)
  | 0 => Parser.pure []
  | n + 1 => do
    let a ← p
    let rest ← replicate p n
    return a :: rest

/-- Replace the error of a reader. -/
def mapError (f : ε → ε) (p : Parser τ ε α) : Parser τ ε α where
  run i :=
    match p.run i with
    | .error e => .error (f e)
    | .ok r => .ok r
  reaches {i a j} h := by
    split at h
    · cases h
    · next r hp =>
      cases h
      exact p.reaches hp

/-- Run a reader; where it fails, take nothing. -/
def attempt (p : Parser τ ε α) : Parser τ ε (Option α) where
  run i :=
    match p.run i with
    | .ok (a, j) => .ok (some a, j)
    | .error _ => .ok (none, i)
  reaches {i a j} h := by
    split at h
    · next b k hp =>
      cases h
      exact p.reaches hp
    · cases h
      exact .refl _

/-- Repeat `step` from a state until it yields nothing or takes nothing. -/
def iterateFrom (step : σ → Parser τ ε (Option σ)) (s : σ) (i : Input τ) :
    Except ε (σ × { j : Input τ // i.Reaches j }) :=
  match h : (step s).run i with
  | .error e => .error e
  | .ok (none, j) => .ok (s, ⟨j, (step s).reaches h⟩)
  | .ok (some t, j) =>
    if _ho : i.offset < j.offset then
      match iterateFrom step t j with
      | .error e => .error e
      | .ok (u, k) => .ok (u, ⟨k.1, ((step s).reaches h).trans k.2⟩)
    else .ok (t, ⟨j, (step s).reaches h⟩)
termination_by i.rest.length
decreasing_by exact ((step s).reaches h).length_lt _ho

/-- Repeat `step` from a state until it yields nothing or takes nothing. -/
def iterate (step : σ → Parser τ ε (Option σ)) (s : σ) : Parser τ ε σ where
  run i :=
    match iterateFrom step s i with
    | .error e => .error e
    | .ok (t, j) => .ok (t, j.1)
  reaches {i a j} h := by
    split at h
    · cases h
    · next t k hk =>
      cases h
      exact k.2

/-- Read the whole of a list from its start and drop what is left. -/
def parse (p : Parser τ ε α) (tokens : List τ) : Except ε α :=
  (p.run (.ofList tokens)).map Prod.fst

end Parser

end VectorImage
