import VectorImage.Proofs.Call.Replay

/-!
Sessions in which some calls are refused. A refused call may have begun the tree, and has done
nothing else: what is accepted after it is accepted without it, and leads to the same. So the calls
that were taken are taken again by a session that is given no others, with the same replies and the
same outcome, as long as every call that the nesting check accepts is performed.
-/

set_option autoImplicit false
set_option relaxedAutoImplicit false

namespace VectorImage

namespace Nesting

/-- What refused calls may make of a nesting: the tree may have begun after the tables. -/
inductive Begun (n : Nesting) : Nesting → Prop
  | same : Begun n n
  | entered (hphase : n.phase = .initialized) : Begun n { n with phase := .tree }

variable {n m m' : Nesting} {gradients : Nat} {call : Call}

theorem Begun.reject (h : n.Begun m) (call : Call) : n.Begun (m.reject call) := by
  unfold Nesting.reject
  split
  · next hcond =>
    cases h with
    | entered hphase => exact .entered hphase
    | same =>
      obtain ⟨phase, scopes, exported, images, strings, floatLists⟩ := n
      cases phase with
      | fresh => simp at hcond
      | initialized => exact .entered rfl
      | tree => exact .same
  · exact h

/-- What is accepted after refused calls is accepted without them. -/
theorem Begun.accepted (h : n.Begun m) (haccept : Accepted gradients m call m') :
    ∃ n', Accepted gradients n call n' ∧ n'.Begun m' := by
  cases h with
  | same => exact ⟨m', haccept, .same⟩
  | entered hphase =>
    have hstarted : n.phase ≠ .fresh := by
      rw [hphase]
      exact fun h => nomatch h
    cases haccept with
    | init tables hfresh => cases hfresh
    | document d hinitialized => cases hinitialized
    | gradient g _ hoffsets => exact ⟨_, .gradient g hstarted hoffsets, .same⟩
    | beginGroup attrs _ hfree =>
      refine ⟨_, .beginGroup attrs hstarted fun id hid => ?_, .same⟩
      exact ⟨(hfree id hid).inRange, (hfree id hid).notExported, (hfree id hid).notOpen⟩
    | endGroup exportId rest hscopes =>
      exact ⟨_, .endGroup exportId rest hscopes, .entered hphase⟩
    | clip c _ => exact ⟨_, .clip c hstarted, .same⟩
    | beginMask _ => exact ⟨_, .beginMask hstarted, .same⟩
    | maskContent rest hscopes => exact ⟨_, .maskContent rest hscopes, .entered hphase⟩
    | endMask rest hscopes => exact ⟨_, .endMask rest hscopes, .entered hphase⟩
    | shape s _ hpaint => exact ⟨_, .shape s hstarted hpaint, .same⟩
    | image leaf _ himage => exact ⟨_, .image leaf hstarted himage, .same⟩
    | text leaf _ hpaint htext hfamily =>
      exact ⟨_, .text leaf hstarted hpaint htext hfamily, .same⟩
    | use ref _ htarget =>
      exact ⟨_, .use ref hstarted ⟨htarget.inRange, htarget.notOpen, htarget.exported⟩, .same⟩

theorem Begun.checkClosed (h : n.Begun m) : n.checkClosed = m.checkClosed := by
  cases h with
  | same => rfl
  | entered hphase =>
    unfold Nesting.checkClosed
    rw [if_neg (by rw [hphase]; exact fun h => nomatch h), if_neg (fun h => nomatch h)]

end Nesting

/-- The calls of a list that were answered without an error. -/
def taken : List Call → List (Except Error Reply) → List Call
  | call :: rest, .ok _ :: answers => call :: taken rest answers
  | _ :: rest, .error _ :: answers => taken rest answers
  | _, _ => []

/-- The answers that are no errors. -/
def replies (answers : List (Except Error Reply)) : List (Except Error Reply) :=
  answers.filter Except.toBool

namespace Backend

variable {σ ω : Type} (b : Backend σ ω)

/-- Refused calls leave no trace: in a session from `state`, what the nesting check accepts is
performed; a session from `again` that is given only the calls that were taken takes them all, with
the same replies; and both sessions finish with outcomes that are alike. -/
structure Forgets (alike : ω → ω → Prop) (state again : σ) (calls : List Call) : Prop where
  performs : ∀ (before after : List Call) (call : Call) (s : Session σ) (m : Nesting),
    calls = before ++ call :: after → (b.issueAll (.start state) before).1 = s →
      s.nesting.accept (b.gradientCount s.state) call = .ok m → ∃ r, b.perform s.state call = .ok r
  retakes : ∀ (s : Session σ) (answers : List (Except Error Reply)),
    b.issueAll (.start state) calls = (s, answers) →
      ∃ t, b.issueAll (.start again) (taken calls answers) = (t, replies answers) ∧
        SameOutcome alike (b.finish s) (b.finish t)

/-- Two states that stay in step: what is accepted in the nesting of the first, both perform, with
the same reply. The relation knows the calls still to come. -/
structure InStep (R : List Call → Nesting → σ → σ → Prop) : Prop where
  count : ∀ {calls n s t}, R calls n s t → b.gradientCount s = b.gradientCount t
  reject : ∀ {call rest n s t}, R (call :: rest) n s t → R rest (n.reject call) s t
  perform : ∀ {call rest n m s t}, R (call :: rest) n s t →
    Nesting.Accepted (b.gradientCount s) n call m → ∃ s' t' reply,
      b.perform s call = .ok (s', reply) ∧ b.perform t call = .ok (t', reply) ∧ R rest m s' t'

variable {b} {R : List Call → Nesting → σ → σ → Prop}

/-- One call: refused, so that nothing happens but that the tree may begin, or taken on both
sides. -/
theorem InStep.issue (h : b.InStep R) {call : Call} {rest : List Call} {n n' : Nesting} {s t : σ}
    (hr : R (call :: rest) n s t) (hn : n'.Begun n) :
    (∃ e, b.issue ⟨n, s⟩ call = (⟨n.reject call, s⟩, .error e) ∧ R rest (n.reject call) s t ∧
      n'.Begun (n.reject call)) ∨
    ∃ m m' s' t' reply, b.issue ⟨n, s⟩ call = (⟨m, s'⟩, .ok reply) ∧
      b.issue ⟨n', t⟩ call = (⟨m', t'⟩, .ok reply) ∧ R rest m s' t' ∧ m'.Begun m := by
  cases haccept : n.accept (b.gradientCount s) call with
  | error e =>
    refine Or.inl ⟨e, ?_, h.reject hr, hn.reject call⟩
    rw [Backend.issue, haccept]
  | ok m =>
    have haccepted := Nesting.accept_eq_ok.mp haccept
    obtain ⟨s', t', reply, hs, ht, hr'⟩ := h.perform hr haccepted
    obtain ⟨m', haccepted', hm⟩ := hn.accepted haccepted
    rw [h.count hr] at haccepted'
    refine Or.inr ⟨m, m', s', t', reply, ?_, ?_, hr', hm⟩
    · rw [Backend.issue, haccept]
      dsimp only
      rw [hs]
    · rw [Backend.issue, haccepted'.accept]
      dsimp only
      rw [ht]

/-- A whole session and one of the calls that it takes. -/
theorem InStep.issueAll (h : b.InStep R) {calls later : List Call} {n n' : Nesting} {s t : σ}
    (hr : R (calls ++ later) n s t) (hn : n'.Begun n) : ∃ m m' s' t' answers,
      b.issueAll ⟨n, s⟩ calls = (⟨m, s'⟩, answers) ∧
      b.issueAll ⟨n', t⟩ (taken calls answers) = (⟨m', t'⟩, replies answers) ∧
      R later m s' t' ∧ m'.Begun m := by
  induction calls generalizing n n' s t with
  | nil => exact ⟨n, n', s, t, [], rfl, rfl, hr, hn⟩
  | cons call rest ih =>
    rcases h.issue hr hn with ⟨e, hissue, hr', hn'⟩ | ⟨m, m', s', t', reply, hs, ht, hr', hm⟩
    · obtain ⟨m, m', s', t', answers, hfull, hkept, hlast⟩ := ih hr' hn'
      refine ⟨m, m', s', t', .error e :: answers, ?_, hkept, hlast⟩
      rw [Backend.issueAll, hissue]
      dsimp only
      rw [hfull]
    · obtain ⟨m₁, m₁', s₁, t₁, answers, hfull, hkept, hlast⟩ := ih hr' hm
      refine ⟨m₁, m₁', s₁, t₁, .ok reply :: answers, ?_, ?_, hlast⟩
      · rw [Backend.issueAll, hs]
        dsimp only
        rw [hfull]
      · rw [taken, Backend.issueAll, ht]
        dsimp only
        rw [hkept]
        rfl

/-- States in step, of which the last finish alike, forget refused calls. -/
theorem InStep.forgets (h : b.InStep R) {alike : ω → ω → Prop}
    (hcomplete : ∀ {n s t}, R [] n s t → n.checkClosed = .ok () →
      SameOutcome alike (b.complete s) (b.complete t))
    {state again : σ} {calls : List Call} (hr : R calls .start state again) :
    b.Forgets alike state again calls := by
  refine ⟨?_, ?_⟩
  · rintro before after call s m rfl rfl hm
    obtain ⟨n, _, s, t, answers, hbefore, -, hlater, -⟩ := h.issueAll hr .same
    have hsession : (b.issueAll (.start state) before).1 = ⟨n, s⟩ := congrArg Prod.fst hbefore
    rw [hsession] at hm ⊢
    obtain ⟨s', _, reply, hs, -⟩ := h.perform hlater (Nesting.accept_eq_ok.mp hm)
    exact ⟨(s', reply), hs⟩
  · intro s answers hanswers
    rw [← List.append_nil calls] at hr
    obtain ⟨m, m', s', t, _, hfull, hkept, hlast, hm⟩ := h.issueAll hr .same
    cases hanswers.symm.trans hfull
    refine ⟨_, hkept, ?_⟩
    rw [finish, finish, hm.checkClosed]
    cases hclosed : m.checkClosed with
    | error e => exact .error e
    | ok u => exact hcomplete hlast hclosed

end Backend

end VectorImage
