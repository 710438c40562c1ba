import VectorImage.Call.Backend
import VectorImage.Proofs.Call.Acceptance

/-!
Replays as runs. A run takes a position (the session and the answers to the gradient calls) along
a stream of calls, and a replay succeeds exactly when there is a run to a position that finishes.
A relation of positions that every step carries along carries a whole run of one backend to a run
of another.
-/

set_option autoImplicit false
set_option relaxedAutoImplicit false

namespace VectorImage

/-- The answers known after a reply. -/
def Reply.known (ids : Array GradientId) : Reply → Array GradientId
  | .done => ids
  | .gradient id => ids.push id

/-- A place in a replay: the answers to the gradient calls so far, and the session. -/
structure Position (σ : Type) where
  ids : Array GradientId
  session : Session σ

/-- Before the first call. -/
def Position.start {σ : Type} (state : σ) : Position σ := ⟨#[], .start state⟩

namespace Backend

variable {σ ω : Type} (b : Backend σ ω)

/-- One call of a replay. -/
inductive Advances (p : Position σ) (call : Call) : Position σ → Prop
  | step {renamed : Call} {nesting : Nesting} {state : σ} {reply : Reply}
      (hmap : call.mapGradients (lookup p.ids .gradient) = .ok renamed)
      (haccept : Nesting.Accepted (b.gradientCount p.session.state) p.session.nesting renamed
        nesting)
      (hperform : b.perform p.session.state renamed = .ok (state, reply)) :
    Advances p call ⟨reply.known p.ids, ⟨nesting, state⟩⟩

/-- The calls of a list, one after the other. -/
inductive Runs : Position σ → List Call → Position σ → Prop
  | nil (p : Position σ) : Runs p [] p
  | cons {p q r : Position σ} {call : Call} {rest : List Call} (hstep : b.Advances p call q)
      (hrest : Runs q rest r) : Runs p (call :: rest) r

variable {b}

theorem Runs.append {p q r : Position σ} {first rest : List Call} (h : b.Runs p first q)
    (hrest : b.Runs q rest r) : b.Runs p (first ++ rest) r := by
  induction h with
  | nil p => exact hrest
  | cons hfirst _ ih => exact .cons hfirst (ih hrest)

theorem Runs.split {p r : Position σ} {first rest : List Call} (h : b.Runs p (first ++ rest) r) :
    ∃ q, b.Runs p first q ∧ b.Runs q rest r := by
  induction first generalizing p with
  | nil => exact ⟨p, .nil p, h⟩
  | cons call first ih =>
    cases h with
    | cons hstep hafter =>
      obtain ⟨q, hfirst, hrest⟩ := ih hafter
      exact ⟨q, .cons hstep hfirst, hrest⟩

theorem Runs.single {p q : Position σ} {call : Call} (h : b.Advances p call q) :
    b.Runs p [call] q := .cons h (.nil q)

/-- A step has one outcome, and so has a run. -/
theorem Advances.unique {p q q' : Position σ} {call : Call} (h : b.Advances p call q)
    (h' : b.Advances p call q') : q = q' := by
  cases h with
  | step hmap haccept hperform =>
    cases h' with
    | step hmap' haccept' hperform' =>
      cases hmap.symm.trans hmap'
      cases haccept.accept.symm.trans haccept'.accept
      cases hperform.symm.trans hperform'
      rfl

theorem Runs.unique {p q q' : Position σ} {calls : List Call} (h : b.Runs p calls q)
    (h' : b.Runs p calls q') : q = q' := by
  induction h with
  | nil p =>
    cases h'
    rfl
  | cons hstep hrest ih =>
    cases h' with
    | cons hstep' hrest' =>
      obtain rfl := hstep.unique hstep'
      exact ih hrest'

/-- Issuing an accepted call that is performed gives its reply. -/
private theorem issue_eq_ok {s t : Session σ} {call : Call} {reply : Reply} :
    b.issue s call = (t, .ok reply) ↔
      Nesting.Accepted (b.gradientCount s.state) s.nesting call t.nesting ∧
        b.perform s.state call = .ok (t.state, reply) := by
  unfold issue
  rw [← Nesting.accept_eq_ok]
  cases s.nesting.accept (b.gradientCount s.state) call with
  | error e => simp
  | ok nesting =>
    dsimp only
    cases b.perform s.state call with
    | error e => simp
    | ok r =>
      obtain ⟨nesting', state'⟩ := t
      obtain ⟨state, reply'⟩ := r
      simp [and_assoc]

/-- A replay succeeds when a run of its calls reaches a session that finishes. -/
theorem replayFrom_eq_ok {ids : Array GradientId} {s : Session σ} {calls : List Call} {result : ω} :
    b.replayFrom ids s calls = .ok result ↔
      ∃ q, b.Runs ⟨ids, s⟩ calls q ∧ b.finish q.session = .ok result := by
  induction calls generalizing ids s with
  | nil =>
    constructor
    · intro h
      exact ⟨_, .nil _, h⟩
    · rintro ⟨q, hruns, hfinish⟩
      cases hruns
      exact hfinish
  | cons call rest ih =>
    rw [replayFrom, bind_eq_ok]
    constructor
    · rintro ⟨renamed, hmap, h⟩
      split at h
      · cases h
      · next t hissue =>
        obtain ⟨haccept, hperform⟩ := issue_eq_ok.mp hissue
        obtain ⟨q, hruns, hfinish⟩ := ih.mp h
        exact ⟨q, .cons (.step hmap haccept hperform) hruns, hfinish⟩
      · next t id hissue =>
        obtain ⟨haccept, hperform⟩ := issue_eq_ok.mp hissue
        obtain ⟨q, hruns, hfinish⟩ := ih.mp h
        exact ⟨q, .cons (.step hmap haccept hperform) hruns, hfinish⟩
    · rintro ⟨q, hruns, hfinish⟩
      cases hruns with
      | cons hstep hrest =>
        cases hstep with
        | @step renamed nesting state reply hmap haccept hperform =>
          refine ⟨renamed, hmap, ?_⟩
          rw [issue_eq_ok (t := ⟨nesting, state⟩) |>.mpr ⟨haccept, hperform⟩]
          cases reply with
          | done => exact ih.mpr ⟨q, hrest, hfinish⟩
          | gradient id => exact ih.mpr ⟨q, hrest, hfinish⟩

theorem replay_eq_ok {state : σ} {calls : List Call} {result : ω} :
    b.replay state calls = .ok result ↔
      ∃ q, b.Runs (.start state) calls q ∧ q.session.nesting.checkClosed = .ok () ∧
        b.complete q.session.state = .ok result := by
  refine replayFrom_eq_ok.trans ?_
  refine exists_congr fun q => and_congr_right fun _ => ?_
  rw [finish, bind_eq_ok]
  exact ⟨fun ⟨_, hclosed, h⟩ => ⟨hclosed, h⟩, fun ⟨hclosed, h⟩ => ⟨(), hclosed, h⟩⟩

/-- What every step keeps, every run keeps. -/
theorem Runs.preserves {P : Position σ → Prop}
    (hstep : ∀ {p q call}, P p → b.Advances p call q → P q) {p q : Position σ} {calls : List Call}
    (h : b.Runs p calls q) (hp : P p) : P q := by
  induction h with
  | nil p => exact hp
  | cons hfirst hrest ih => exact ih (hstep hp hfirst)

/-- What every step keeps of the calls so far, a run keeps of all of its calls. -/
theorem Runs.accumulates {R : List Call → Position σ → Prop}
    (hstep : ∀ {before call p q}, R before p → b.Advances p call q → R (before ++ [call]) q)
    {p q : Position σ} {before calls : List Call} (h : b.Runs p calls q) (hp : R before p) :
    R (before ++ calls) q := by
  induction h generalizing before with
  | nil p => rwa [List.append_nil]
  | cons hfirst hrest ih =>
    have hall := ih (hstep hp hfirst)
    rwa [List.append_assoc] at hall

/-- A run issues the calls as they are renamed on the way. -/
theorem Runs.issues {p q : Position σ} {calls : List Call} (h : b.Runs p calls q) :
    ∃ renamed, (b.issueAll p.session renamed).1 = q.session := by
  induction h with
  | nil p => exact ⟨[], rfl⟩
  | cons hstep hrest ih =>
    cases hstep with
    | @step renamed nesting state reply hmap haccept hperform =>
      obtain ⟨rest, hissued⟩ := ih
      refine ⟨renamed :: rest, ?_⟩
      have hissue := (issue_eq_ok (t := ⟨nesting, state⟩)).mpr ⟨haccept, hperform⟩
      rw [issueAll, hissue, ← hissued]

/-- A replay is a session that finishes. -/
theorem session_of_replay {state : σ} {calls : List Call} {result : ω}
    (h : b.replay state calls = .ok result) :
    ∃ renamed, b.finish (b.issueAll (.start state) renamed).1 = .ok result := by
  obtain ⟨q, hruns, hfinish⟩ := replayFrom_eq_ok.mp h
  obtain ⟨renamed, hissued⟩ := hruns.issues
  exact ⟨renamed, hissued ▸ hfinish⟩

/-- What every call that is issued keeps, a sequence of them keeps, whatever it answers. -/
theorem issueAll_keeps {P : Session σ → Prop} (hstep : ∀ {s} call, P s → P (b.issue s call).1)
    {s : Session σ} (hs : P s) (calls : List Call) : P (b.issueAll s calls).1 := by
  induction calls generalizing s with
  | nil => exact hs
  | cons call rest ih => exact ih (hstep call hs)

/-- What every performed call keeps, a sequence of calls keeps, whatever it answers. -/
theorem issueAll_preserves {P : σ → Prop}
    (hstep : ∀ {s t call reply}, P s → b.perform s call = .ok (t, reply) → P t) {s : Session σ}
    (hs : P s.state) (calls : List Call) : P (b.issueAll s calls).1.state := by
  refine issueAll_keeps (P := fun s => P s.state) ?_ hs calls
  intro s call hs
  unfold issue
  split
  · exact hs
  · split
    · exact hs
    · next hperform => exact hstep hs hperform

variable {σ' ω' : Type} {b' : Backend σ' ω'}

/-- A relation that every step of one backend carries along with a step of another on a call of
its own carries along whole runs. The relation may look at the calls behind it. -/
theorem Runs.simulate {f : Call → Call} {R : List Call → Position σ → Position σ' → Prop}
    {calls : List Call}
    (hstep : ∀ {before call after p q p'}, calls = before ++ call :: after → R before p p' →
      b.Advances p call q → ∃ q', b'.Advances p' (f call) q' ∧ R (before ++ [call]) q q')
    {p q : Position σ} {p' : Position σ'} (h : b.Runs p calls q) (hp : R [] p p') :
    ∃ q', b'.Runs p' (calls.map f) q' ∧ R calls q q' := by
  suffices key : ∀ {after before : List Call} {p : Position σ} {p' : Position σ'},
      b.Runs p after q → calls = before ++ after → R before p p' →
        ∃ q', b'.Runs p' (after.map f) q' ∧ R calls q q' from key h rfl hp
  clear h hp
  intro after before p p' hrun hcalls hp
  induction hrun generalizing before p' with
  | nil p =>
    rw [List.append_nil] at hcalls
    exact ⟨p', .nil p', hcalls ▸ hp⟩
  | @cons p r q call rest hfirst hrest ih =>
    obtain ⟨r', hfirst', hr⟩ := hstep hcalls hp hfirst
    obtain ⟨q', hrest', hq⟩ := ih (by rw [hcalls, List.append_assoc]; rfl) hr
    exact ⟨q', .cons hfirst' hrest', hq⟩

end Backend

end VectorImage
