import VectorImage.Call.Backend
import VectorImage.Proofs.Call.Renaming
import VectorImage.Proofs.Drawing.Sketch

/-!
Streams that a recorder takes. A recorder numbers gradients in the order of their calls, so a
stream that is numbered that way already is recorded as it is: one that has a sketch, or one whose
gradients come first and whose other calls the nesting check admits one after the other, while no
gradient is registered.
-/

set_option autoImplicit false
set_option relaxedAutoImplicit false

namespace VectorImage

namespace Nesting

/-- The steps of the check for a list of calls. -/
inductive Admits (gradients : Nat) : Nesting → List Call → Nesting → Prop
  | nil (n : Nesting) : Admits gradients n [] n
  | cons {n l m : Nesting} {call : Call} {rest : List Call}
      (hcall : Accepted gradients n call l) (hrest : Admits gradients l rest m) :
    Admits gradients n (call :: rest) m

variable {gradients gradients' : Nat} {n m : Nesting}

theorem admits_nil : Admits gradients n [] m ↔ m = n := by
  constructor
  · intro h
    cases h
    rfl
  · rintro rfl
    exact .nil m

theorem admits_cons {call : Call} {rest : List Call} :
    Admits gradients n (call :: rest) m ↔
      ∃ l, Accepted gradients n call l ∧ Admits gradients l rest m := by
  constructor
  · intro h
    cases h with
    | cons hcall hrest => exact ⟨_, hcall, hrest⟩
  · rintro ⟨l, hcall, hrest⟩
    exact .cons hcall hrest

theorem admits_append {first rest : List Call} :
    Admits gradients n (first ++ rest) m ↔
      ∃ l, Admits gradients n first l ∧ Admits gradients l rest m := by
  induction first generalizing n with
  | nil => simp [admits_nil]
  | cons call first ih =>
    simp only [List.cons_append, admits_cons, ih]
    constructor
    · rintro ⟨l, hcall, k, hfirst, hrest⟩
      exact ⟨k, ⟨l, hcall, hfirst⟩, hrest⟩
    · rintro ⟨k, ⟨l, hcall, hfirst⟩, hrest⟩
      exact ⟨l, hcall, k, hfirst, hrest⟩

theorem admits_singleton {call : Call} :
    Admits gradients n [call] m ↔ Accepted gradients n call m := by
  simp only [admits_cons, admits_nil, exists_eq_right']

/-- Calls are admitted under other names of their gradients just as they are under their own. -/
theorem admits_mapGradients {f : GradientId → Except Error GradientId}
    (hsource : ∀ i j : GradientId, f i = .ok j → i.toNat < gradients)
    (htarget : ∀ i j : GradientId, f i = .ok j → j.toNat < gradients') {calls calls' : List Call}
    (hmap : calls.mapM (Call.mapGradients f) = .ok calls') :
    Admits gradients' n calls' m ↔ Admits gradients n calls m := by
  induction calls generalizing n calls' with
  | nil =>
    obtain rfl := mapM_nil_eq_ok.mp hmap
    rw [admits_nil, admits_nil]
  | cons call rest ih =>
    obtain ⟨call', rest', hcall, hrest, rfl⟩ := mapM_cons_eq_ok.mp hmap
    simp only [admits_cons, ih hrest]
    refine exists_congr fun l => and_congr_left fun _ => ⟨?_, ?_⟩
    · exact Accepted.of_mapGradients hcall hsource
    · exact Accepted.mapGradients hcall htarget

end Nesting

namespace Recorder

theorem perform_gradient {r : Recorder} (hroom : r.gradients < 2 ^ 32) (g : Gradient) :
    backend.perform r (.gradient g) = .ok (⟨r.calls.push (.gradient g), r.gradients + 1⟩,
      .gradient (UInt32.ofNat r.gradients)) := by
  refine bind_eq_ok.mpr ⟨_, nextIndex_eq_ok hroom, ?_⟩
  simp [pure, Except.pure]

theorem perform_other (r : Recorder) {call : Call} (hcall : ∀ g, call ≠ .gradient g) :
    backend.perform r call = .ok (⟨r.calls.push call, r.gradients⟩, .done) := by
  cases call with
  | gradient g => exact absurd rfl (hcall g)
  | _ => simp [backend, perform]

/-- A recorder of the calls before, at the place of a sketch. -/
structure Keeps (before : List Call) (p : Position Sketch) (q : Position Recorder) : Prop where
  current : Sketch.Current p
  nesting : q.session.nesting = p.session.nesting
  ids : q.ids = p.ids
  state : q.session.state = ⟨before.toArray, p.ids.size⟩

private theorem Keeps.step {before : List Call} {p p' : Position Sketch} {q : Position Recorder}
    {call : Call} (h : Keeps before p q) (hstep : Sketch.backend.Advances p call p') :
    ∃ q', backend.Advances q call q' ∧ Keeps (before ++ [call]) p' q' := by
  obtain ⟨reply, haccept, hsketch, hids, hcurrent⟩ := h.current.of_advances hstep
  obtain ⟨renamed, hmap⟩ := haccept.mapGradients_progress (f := lookup q.ids .gradient) fun i hi => by
    obtain ⟨j, -, hj⟩ := Resources.lookup_progress .gradient (h.ids ▸ hi)
    exact ⟨j, hj⟩
  have hsame : renamed = call :=
    Call.eq_of_mapGradients (fun i j hij => h.current.numbered i j (h.ids ▸ hij)) hmap
  subst hsame
  have haccept' : Nesting.Accepted (backend.gradientCount q.session.state) q.session.nesting
      renamed p'.session.nesting := by
    rw [h.nesting, h.state]
    exact haccept
  have hcount := h.current.count
  rcases Sketch.perform_gradients hsketch with ⟨g, rfl, hlt, rfl, -⟩ | ⟨hne, rfl, -⟩
  · rw [← hcount] at hlt hids
    have hroom : q.session.state.gradients < 2 ^ 32 := by
      rw [h.state]
      exact hlt
    refine ⟨_, .step hmap haccept' (perform_gradient hroom g), hcurrent, rfl, ?_, ?_⟩
    · show q.ids.push _ = p'.ids
      rw [hids, h.ids, h.state]
      rfl
    · rw [hids, h.state]
      simp [Reply.known]
  · refine ⟨_, .step hmap haccept' (perform_other q.session.state hne), hcurrent, rfl, ?_, ?_⟩
    · exact h.ids.trans hids.symm
    · rw [hids, h.state]
      simp [Reply.known]

theorem record_of_sketch {calls : List Call} {s : Sketch}
    (h : Sketch.backend.replay .empty calls = .ok s) : record calls = .ok calls := by
  obtain ⟨p, hruns, hclosed, -⟩ := Backend.replay_eq_ok.mp h
  have hstart : Keeps [] (.start .empty) (.start empty) := ⟨Sketch.current_start, rfl, rfl, rfl⟩
  obtain ⟨q, hruns', hq⟩ := hruns.simulate (f := id) (R := Keeps)
    (fun _ hp hstep => hp.step hstep) hstart
  rw [List.map_id] at hruns'
  refine Backend.replay_eq_ok.mpr ⟨q, hruns', hq.nesting ▸ hclosed, ?_⟩
  rw [hq.state]
  rfl

/-- A recorder that has answered the gradient calls so far in order. -/
structure Numbered (p : Position Recorder) : Prop where
  count : p.ids.size = p.session.state.gradients
  numbered : ∀ i j, lookup p.ids .gradient i = .ok j → i = j

variable {p q : Position Recorder} {call : Call} {m : Nesting}

theorem numbered_start : Numbered (.start empty) := by
  refine ⟨rfl, ?_⟩
  intro i j hij
  have hnone := lookup_eq_ok_iff.mp hij
  simp [Position.start] at hnone

/-- An accepted call is issued under its own names. -/
private theorem Numbered.mapGradients (h : Numbered p)
    (haccept : Nesting.Accepted p.ids.size p.session.nesting call m) :
    call.mapGradients (lookup p.ids .gradient) = .ok call := by
  obtain ⟨renamed, hmap⟩ := haccept.mapGradients_progress
    (f := lookup p.ids .gradient) fun i hi => by
      obtain ⟨j, -, hj⟩ := Resources.lookup_progress .gradient hi
      exact ⟨j, hj⟩
  obtain rfl := Call.eq_of_mapGradients h.numbered hmap
  exact hmap

theorem Numbered.gradient (h : Numbered p) (hroom : p.ids.size < 2 ^ 32) {g : Gradient}
    (haccept : Nesting.Accepted p.ids.size p.session.nesting (.gradient g) m) :
    ∃ q, backend.Advances p (.gradient g) q ∧ Numbered q ∧ q.session.nesting = m ∧
      q.ids.size = p.ids.size + 1 := by
  have hmap := h.mapGradients haccept
  rw [h.count] at haccept
  have hperform := perform_gradient (r := p.session.state) (h.count ▸ hroom) g
  rw [← h.count] at hperform
  refine ⟨_, .step hmap haccept hperform, ⟨?_, ?_⟩, rfl, Array.size_push _⟩
  · exact Array.size_push _
  · exact Sketch.numbered_push hroom h.numbered

/-- A call that registers no gradient goes on exactly when it is accepted. -/
theorem Numbered.advances_iff (h : Numbered p) (hcall : call.isGradient = false) :
    (∃ q, backend.Advances p call q ∧ q.session.nesting = m) ↔
      Nesting.Accepted p.ids.size p.session.nesting call m := by
  constructor
  · rintro ⟨q, hstep, rfl⟩
    cases hstep with
    | step hmap haccept hperform =>
      obtain rfl := Call.eq_of_mapGradients h.numbered hmap
      rw [h.count]
      exact haccept
  · intro haccept
    have hmap := h.mapGradients haccept
    rw [h.count] at haccept
    have hperform := perform_other p.session.state (Call.isGradient_eq_false.mp hcall)
    exact ⟨_, .step hmap haccept hperform, rfl⟩

theorem Numbered.advance (h : Numbered p) (hcall : call.isGradient = false)
    (hstep : backend.Advances p call q) : Numbered q ∧ q.ids = p.ids := by
  cases hstep with
  | step hmap haccept hperform =>
    obtain rfl := Call.eq_of_mapGradients h.numbered hmap
    rw [perform_other p.session.state (Call.isGradient_eq_false.mp hcall)] at hperform
    cases hperform
    exact ⟨⟨h.count, h.numbered⟩, rfl⟩

/-- Calls that register no gradient run exactly when they are admitted. -/
theorem Numbered.runs_iff (h : Numbered p) {calls : List Call}
    (hcalls : ∀ call ∈ calls, call.isGradient = false) :
    (∃ q, backend.Runs p calls q ∧ q.session.nesting = m) ↔
      Nesting.Admits p.ids.size p.session.nesting calls m := by
  induction calls generalizing p with
  | nil =>
    rw [Nesting.admits_nil]
    constructor
    · rintro ⟨q, hruns, rfl⟩
      cases hruns
      rfl
    · rintro rfl
      exact ⟨p, .nil p, rfl⟩
  | cons call rest ih =>
    have hcall := hcalls call List.mem_cons_self
    have hrest := fun c hc => hcalls c (List.mem_cons_of_mem call hc)
    rw [Nesting.admits_cons]
    constructor
    · rintro ⟨q, hruns, hq⟩
      cases hruns with
      | @cons _ r _ _ _ hstep hlater =>
        obtain ⟨hnumbered, hids⟩ := h.advance hcall hstep
        refine ⟨_, (h.advances_iff hcall).mp ⟨r, hstep, rfl⟩, ?_⟩
        rw [← hids]
        exact (ih hnumbered hrest).mp ⟨q, hlater, hq⟩
    · rintro ⟨l, haccept, hadmits⟩
      obtain ⟨r, hstep, rfl⟩ := (h.advances_iff hcall).mpr haccept
      obtain ⟨hnumbered, hids⟩ := h.advance hcall hstep
      rw [← hids] at hadmits
      obtain ⟨q, hlater, hq⟩ := (ih hnumbered hrest).mpr hadmits
      exact ⟨q, .cons hstep hlater, hq⟩

end Recorder

end VectorImage
