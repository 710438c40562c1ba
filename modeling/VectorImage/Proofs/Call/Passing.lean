import VectorImage.Proofs.Call.Recording
import VectorImage.Proofs.Call.Streams

/-!
Streams that the nesting check passes while every gradient call registers one more gradient. What
a backend takes, passes, provided that it answers the gradients with ids and nothing else; and a
sketch and a recorder take whatever passes.
-/

set_option autoImplicit false
set_option relaxedAutoImplicit false

namespace VectorImage

namespace Nesting

/-- Calls that are accepted one after the other; the gradients that they register are counted. -/
inductive Passes : Nat → Nesting → List Call → Nesting → Prop
  | nil (gradients : Nat) (n : Nesting) : Passes gradients n [] n
  | cons {gradients : Nat} {n l m : Nesting} {call : Call} {rest : List Call}
      (hcall : Accepted gradients n call l)
      (hrest : Passes (gradients + call.isGradient.toNat) l rest m) :
    Passes gradients n (call :: rest) m

namespace Passes

variable {gradients : Nat} {n m : Nesting} {first rest : List Call}

theorem split (h : Passes gradients n (first ++ rest) m) :
    ∃ l, Passes gradients n first l ∧ Passes (gradients + first.countP Call.isGradient) l rest m := by
  induction first generalizing gradients n with
  | nil => exact ⟨n, .nil gradients n, h⟩
  | cons call first ih =>
    cases h with
    | cons hcall hafter =>
      obtain ⟨l, hfirst, hrest⟩ := ih hafter
      refine ⟨l, .cons hcall hfirst, ?_⟩
      rwa [countP_isGradient_cons, ← Nat.add_assoc]

theorem sound (h : Passes gradients n first m) (hn : n.Sound) : m.Sound := by
  induction h with
  | nil gradients n => exact hn
  | cons hcall hrest ih => exact ih (hn.step hcall)

end Passes

end Nesting

/-- A backend that answers the gradients, and nothing else, with an id. -/
def Backend.Answers {σ ω : Type} (b : Backend σ ω) : Prop :=
  ∀ {s t : σ} {call : Call} {reply : Reply}, b.perform s call = .ok (t, reply) →
    ∀ ids : Array GradientId, (reply.known ids).size = ids.size + call.isGradient.toNat

namespace Backend

variable {σ ω : Type} {b : Backend σ ω} {p q : Position σ} {calls : List Call}

/-- What a backend takes, passes the check. -/
theorem Runs.passes (h : b.Runs p calls q) (hb : b.Answers) :
    Nesting.Passes p.ids.size p.session.nesting calls q.session.nesting := by
  induction h with
  | nil p => exact .nil _ _
  | @cons p p' q call rest hstep hrest ih =>
    refine .cons hstep.accepted ?_
    cases hstep with
    | step hmap haccept hperform =>
      rw [← Call.isGradient_mapGradients hmap, ← hb hperform]
      exact ih

theorem passes_of_replay {state : σ} {result : ω} (h : b.replay state calls = .ok result)
    (hb : b.Answers) : ∃ m, Nesting.Passes 0 .start calls m ∧ m.checkClosed = .ok () := by
  obtain ⟨q, hruns, hclosed, -⟩ := replay_eq_ok.mp h
  exact ⟨_, hruns.passes hb, hclosed⟩

end Backend

namespace Sketch

theorem answers : backend.Answers := by
  intro s t call reply h ids
  rcases perform_gradients h with ⟨g, rfl, -, rfl, -⟩ | ⟨hne, rfl, -⟩
  · exact Array.size_push _
  · rw [Call.isGradient_eq_false.mpr hne]
    rfl

variable {q : Position Sketch} {calls : List Call} {m : Nesting}

/-- What passes, a sketch takes. -/
theorem Current.runs_of_passes (h : Current q) (hpasses : Nesting.Passes q.ids.size
    q.session.nesting calls m) (hroom : q.ids.size + calls.countP Call.isGradient ≤ 2 ^ 32) :
    ∃ r, backend.Runs q calls r ∧ Current r ∧ r.session.nesting = m := by
  induction calls generalizing q with
  | nil =>
    cases hpasses
    exact ⟨q, .nil q, h, rfl⟩
  | cons call rest ih =>
    cases hpasses with
    | @cons _ _ l _ _ _ hcall hrest =>
      obtain ⟨t, reply, hperform, hstep⟩ := h.advances hcall fun g hg => by
        rw [hg, List.countP_cons_of_pos rfl] at hroom
        omega
      obtain ⟨-, -, -, -, hcurrent⟩ := h.of_advances hstep
      have hsize := answers hperform q.ids
      rw [← hsize] at hrest
      obtain ⟨r, hruns, hr, hnesting⟩ := ih hcurrent hrest (by
        show (reply.known q.ids).size + _ ≤ _
        rwa [hsize, Nat.add_assoc, ← countP_isGradient_cons])
      exact ⟨r, .cons hstep hruns, hr, hnesting⟩

theorem replay_of_passes (hpasses : Nesting.Passes 0 .start calls m)
    (hclosed : m.checkClosed = .ok ()) (hroom : calls.countP Call.isGradient ≤ 2 ^ 32) :
    ∃ s, backend.replay .empty calls = .ok s := by
  obtain ⟨r, hruns, -, rfl⟩ := current_start.runs_of_passes hpasses
    ((Nat.zero_add _).symm ▸ hroom)
  exact ⟨_, Backend.replay_eq_ok.mpr ⟨r, hruns, hclosed, rfl⟩⟩

end Sketch

namespace Recorder

theorem answers : backend.Answers := by
  intro r r' call reply h ids
  cases hcall : call.isGradient with
  | false =>
    rw [perform_other r (Call.isGradient_eq_false.mp hcall)] at h
    cases h
    rfl
  | true =>
    obtain ⟨g, rfl⟩ := Call.isGradient_eq_true.mp hcall
    obtain ⟨id, -, h⟩ := bind_eq_ok.mp h
    cases h
    exact Array.size_push _

/-- A stream of no more gradients than there are ids is recorded exactly when it passes. -/
theorem record_iff {calls : List Call} (hroom : calls.countP Call.isGradient ≤ 2 ^ 32) :
    (∃ log, record calls = .ok log) ↔
      ∃ m, Nesting.Passes 0 .start calls m ∧ m.checkClosed = .ok () := by
  constructor
  · rintro ⟨log, h⟩
    exact Backend.passes_of_replay h answers
  · rintro ⟨m, hpasses, hclosed⟩
    obtain ⟨s, hs⟩ := Sketch.replay_of_passes hpasses hclosed hroom
    exact ⟨calls, record_of_sketch hs⟩

/-- What is recorded are the calls that were given. -/
theorem record_eq {calls log : List Call} (hroom : calls.countP Call.isGradient ≤ 2 ^ 32)
    (h : record calls = .ok log) : log = calls := by
  obtain ⟨m, hpasses, hclosed⟩ := (record_iff hroom).mp ⟨log, h⟩
  obtain ⟨s, hs⟩ := Sketch.replay_of_passes hpasses hclosed hroom
  exact Except.ok.inj (h.symm.trans (record_of_sketch hs))

/-- A recorder that has given every gradient so far an id. -/
structure Counted (before : List Call) (p : Position Recorder) : Prop where
  count : p.session.state.gradients = before.countP Call.isGradient
  room : p.session.state.gradients ≤ 2 ^ 32

private theorem Counted.step {before : List Call} {call : Call} {p q : Position Recorder}
    (h : Counted before p) (hstep : backend.Advances p call q) : Counted (before ++ [call]) q := by
  cases hstep with
  | @step renamed nesting state reply hmap haccept hperform =>
    have hcount : (before ++ [call]).countP Call.isGradient =
        p.session.state.gradients + renamed.isGradient.toNat := by
      rw [List.countP_append, countP_isGradient_cons, h.count, Call.isGradient_mapGradients hmap]
      rfl
    cases hgradient : renamed.isGradient with
    | false =>
      rw [hgradient] at hcount
      rw [perform_other _ (Call.isGradient_eq_false.mp hgradient)] at hperform
      cases hperform
      exact ⟨hcount.symm, h.room⟩
    | true =>
      rw [hgradient] at hcount
      obtain ⟨g, rfl⟩ := Call.isGradient_eq_true.mp hgradient
      obtain ⟨id, hid, hpure⟩ := bind_eq_ok.mp hperform
      cases hpure
      exact ⟨hcount.symm, (nextIndex_ok hid).1⟩

/-- A stream that is recorded has no more gradients than there are ids. -/
theorem countP_le_of_record {calls log : List Call} (h : record calls = .ok log) :
    calls.countP Call.isGradient ≤ 2 ^ 32 := by
  obtain ⟨q, hruns, -, -⟩ := Backend.replay_eq_ok.mp h
  have hstart : Counted [] (.start empty) := ⟨rfl, Nat.zero_le _⟩
  have hend : Counted ([] ++ calls) q := hruns.accumulates (fun hp hstep => hp.step hstep) hstart
  exact hend.count ▸ hend.room

end Recorder

end VectorImage
