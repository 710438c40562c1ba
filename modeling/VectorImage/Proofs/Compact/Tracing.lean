import VectorImage.Proofs.Compact.Traversal
import VectorImage.Proofs.Input.Reading

/-!
A sketch of a validated stream. The calls that the validation took in are performed by a sketch,
which then holds, scope by scope, the steps that the entries spell. So the entries spell the
steps of the sketch, and drawing the image from its stream paints what the sketch says.
-/

set_option autoImplicit false
set_option relaxedAutoImplicit false

namespace VectorImage

namespace Compact

variable {t : TableSet} {r : Resources} {contents : Contents} {es fs : List Entry}

/-- The calls of a stream describe the tree. -/
theorem readOperands_ofTree {code : UInt8} {i j : Input UInt8} {call : Call}
    (h : (readOperands t code).run i = .ok (call, j)) : call.OfTree := by
  unfold readOperands at h
  split at h
  case h_8 =>
    obtain ⟨path, k, -, h⟩ := Parser.run_bind_eq_ok.mp h
    obtain ⟨s, -, rfl⟩ := Parser.run_map_eq_ok.mp h
    trivial
  case h_9 | h_10 =>
    obtain ⟨floats, k, -, h⟩ := Parser.run_bind_eq_ok.mp h
    obtain ⟨geometry, l, -, h⟩ := Parser.run_bind_eq_ok.mp h
    obtain ⟨s, -, rfl⟩ := Parser.run_map_eq_ok.mp h
    trivial
  case h_11 =>
    obtain ⟨geometry, k, -, h⟩ := Parser.run_bind_eq_ok.mp h
    obtain ⟨s, -, rfl⟩ := Parser.run_map_eq_ok.mp h
    trivial
  case h_15 => cases h
  all_goals first
    | (obtain ⟨s, -, rfl⟩ := Parser.run_map_eq_ok.mp h; trivial)
    | (obtain ⟨rfl, -⟩ := Parser.run_pure_eq_ok.mp h; trivial)

theorem readCall_ofTree {i j : Input UInt8} {offset : Nat} {call : Call}
    (h : (readCall t).run i = .ok (some (offset, call), j)) : call.OfTree := by
  obtain ⟨i', k, -, h⟩ := Parser.run_bind_eq_ok.mp h
  obtain ⟨code, l, -, h⟩ := Parser.run_bind_eq_ok.mp h
  cases code with
  | none =>
    obtain ⟨hnone, -⟩ := Parser.run_pure_eq_ok.mp h
    cases hnone
  | some code =>
    obtain ⟨call', m, hcall, h⟩ := Parser.run_bind_eq_ok.mp h
    obtain ⟨hsome, -⟩ := Parser.run_pure_eq_ok.mp h
    cases hsome
    exact readOperands_ofTree hcall

theorem Decodes.ofTree {i : Input UInt8} (h : Decodes t i es) : ∀ e ∈ es, e.call.OfTree := by
  induction h with
  | nil hread =>
    intro e he
    cases he
  | cons hread hrest ih =>
    intro e he
    rcases List.mem_cons.mp he with rfl | he
    · exact readCall_ofTree hread
    · exact ih e he

/-- A group that lies whole in a list of entries, under its name and with its steps. -/
inductive HasGroup (r : Resources) (contents : Contents) (id : StringId) :
    List Entry → List PaintStep → Prop
  | group {before inner after : List Entry} {start stop : Nat} {attrs : GroupAttrs}
      {inner' : List PaintStep} (hname : attrs.exportId = some id)
      (hinner : Spells r contents inner inner') :
    HasGroup r contents id (before ++ (groupEntries start attrs inner stop ++ after))
      (groupSteps attrs inner')

theorem HasGroup.append {id : StringId} {steps : List PaintStep}
    (h : HasGroup r contents id es steps) (fs : List Entry) :
    HasGroup r contents id (es ++ fs) steps := by
  cases h with
  | group hname hinner =>
    rw [List.append_assoc, List.append_assoc]
    exact .group hname hinner

/-- The entries so far, cut at the openings of the scopes of a sketch, spell what it holds. -/
inductive Layout (r : Resources) (contents : Contents) :
    List Entry → List PaintStep → List SketchFrame → Prop
  | root {es : List Entry} {steps : List PaintStep} (h : Spells r contents es steps) :
    Layout r contents es steps []
  | group {outer inner : List Entry} {start : Nat} {attrs : GroupAttrs}
      {root inner' : List PaintStep} {frames : List SketchFrame}
      (houter : Layout r contents outer root frames) (hinner : Spells r contents inner inner') :
    Layout r contents (outer ++ ⟨start, .beginGroup attrs⟩ :: inner) root
      (⟨.group attrs.exportId, .beginGroup attrs.transform attrs.alpha :: inner'⟩ :: frames)
  | mask {outer inner : List Entry} {scope : Scope} {root inner' : List PaintStep}
      {frames : List SketchFrame} (hscope : ∀ id, scope ≠ .group id)
      (houter : Layout r contents outer root frames) (hinner : Spells r contents inner inner') :
    Layout r contents (outer ++ inner) root (⟨scope, inner'⟩ :: frames)

theorem Layout.spells {steps : List PaintStep} (h : Layout r contents es steps []) :
    Spells r contents es steps := by
  cases h with
  | root h => exact h

/-- What a sketch holds after entries: its scopes and its closed groups. -/
structure Holds (r : Resources) (contents : Contents) (es : List Entry) (s : Sketch) : Prop where
  layout : Layout r contents es s.root s.frames
  groups : ∀ x ∈ s.exports, HasGroup r contents x.1 es x.2

namespace Holds

variable {s s' : Sketch} {e : Entry} {reply : Reply}

/-- Entries that spell steps come behind what a sketch holds when it draws the steps. -/
private theorem draw (h : Holds r contents es s) {steps : List PaintStep}
    (hspells : Spells r contents fs steps) : Holds r contents (es ++ fs) (s.draw steps) := by
  refine ⟨?_, fun x hx => (h.groups x (by rwa [Sketch.draw_exports] at hx)).append fs⟩
  have hlayout := h.layout
  unfold Sketch.draw
  split
  · next hframes =>
    rw [hframes] at hlayout
    dsimp only
    rw [hframes]
    cases hlayout with
    | root hroot => exact .root (hroot.append hspells)
  · next f rest hframes =>
    rw [hframes] at hlayout
    cases hlayout with
    | group houter hinner =>
      rw [List.append_assoc]
      exact .group houter (hinner.append hspells)
    | mask hscope houter hinner =>
      rw [List.append_assoc]
      exact .mask hscope houter (hinner.append hspells)

private theorem openMask (h : Holds r contents es s) {scope : Scope} {step : PaintStep}
    (hscope : ∀ id, scope ≠ .group id) (he : Draws r e.call [step]) :
    Holds r contents (es ++ [e]) (s.openScope scope step) :=
  ⟨.mask hscope h.layout (.single he), fun x hx => (h.groups x hx).append [e]⟩

/-- A sketch whose innermost scope is closed, and the group that it was. -/
private theorem closeGroup (h : Holds r contents es s) {exportId : Option StringId}
    {steps : List PaintStep} {rest : List SketchFrame} {stop : Nat}
    (hframes : s.frames = ⟨.group exportId, steps⟩ :: rest) :
    Holds r contents (es ++ [⟨stop, .endGroup⟩])
      ({ s with
        frames := rest
        exports := exportId.toList.map (fun id => (id, steps ++ [.endGroup])) ++ s.exports
        : Sketch }.draw (steps ++ [.endGroup])) := by
  have hlayout := h.layout
  rw [hframes] at hlayout
  cases hlayout with
  | @group outer inner start attrs root inner' frames houter hinner =>
    have hgroup : Spells r contents (groupEntries start attrs inner stop)
        (groupSteps attrs inner') := by
      have happend : Spells r contents (groupEntries start attrs inner stop ++ [])
          (groupSteps attrs inner' ++ []) := .group hinner .nil
      rw [List.append_nil, List.append_nil] at happend
      exact happend
    have hentries : outer ++ ⟨start, .beginGroup attrs⟩ :: inner ++ [⟨stop, .endGroup⟩] =
        outer ++ groupEntries start attrs inner stop := by
      simp [groupEntries]
    have hgroups := h.groups
    rw [hentries]
    have houterDraw := draw (s := { s with frames := rest, exports := [] })
      ⟨houter, fun x hx => absurd hx List.not_mem_nil⟩ hgroup
    refine ⟨?_, ?_⟩
    · have := houterDraw.layout
      unfold Sketch.draw at this ⊢
      cases rest <;> exact this
    · intro x hx
      rw [Sketch.draw_exports] at hx
      rcases List.mem_append.mp hx with hx | hx
      · obtain ⟨id, hid, rfl⟩ := List.mem_map.mp hx
        have hhas : HasGroup r contents id (outer ++ (groupEntries start attrs inner stop ++ []))
            (groupSteps attrs inner') := .group (Option.mem_toList.mp hid) hinner
        rw [List.append_nil] at hhas
        exact hhas
      · rw [← hentries]
        exact (hgroups x hx).append _
  | mask hscope houter hinner => exact absurd rfl (hscope _)

/-- A use of a group that lies whole before it spells the group. -/
private theorem spells_use {ops : Bytes} (hread : contents.Read t ops) {u : UseRef}
    {group : List PaintStep} (hgroup : HasGroup r contents u.target es group) {offset : Nat}
    {after : List Entry} (hentries : contents.entries = es ++ ⟨offset, .use u⟩ :: after) :
    Spells r contents [⟨offset, .use u⟩]
      (.beginUse u.transform :: (group ++ [.endUse])) := by
  cases hgroup with
  | @group before inner behind start stop attrs inner' hname hinner =>
    have hordered := hread.increasing
    have hmem : (⟨start, .beginGroup attrs⟩ : Entry) ∈ contents.entries := by
      rw [hentries]
      simp [groupEntries]
    have hsplit : contents.entries =
        before ++ (groupEntries start attrs inner stop ++
          (behind ++ ⟨offset, .use u⟩ :: after)) := by
      rw [hentries]
      simp only [List.append_assoc]
    rw [hsplit] at hordered
    have hfirst := (List.pairwise_append.mp hordered).2.2
    have hbehind := (List.pairwise_append.mp (List.pairwise_append.mp hordered).2.1).2.2
    have hseek : (contents.entries.dropWhile fun e => e.offset < start) =
        groupEntries start attrs inner stop ++ (behind ++ ⟨offset, .use u⟩ :: after) := by
      rw [hsplit, List.dropWhile_append_of_pos]
      · simp [groupEntries]
      · intro e he
        exact decide_eq_true (hfirst e he ⟨start, .beginGroup attrs⟩ (by simp [groupEntries]))
    exact .use hname (hread.lookup_export hmem rfl hname) hseek
      (fun e he => hbehind e he ⟨offset, .use u⟩ (by simp)) hinner .nil

/-- A sketch goes on holding what the entries spell. -/
theorem step {ops : Bytes} (hread : contents.Read t ops) (h : Holds r contents es s)
    {after : List Entry} (hentries : contents.entries = es ++ e :: after)
    (hresources : s.resources.ExtendedBy r) (htree : e.call.OfTree)
    (hperform : s.perform e.call = .ok (s', reply)) : Holds r contents (es ++ [e]) s' := by
  obtain ⟨offset, call⟩ := e
  cases call with
  | init tables | document d => cases htree
  | gradient g =>
    obtain ⟨id, -, hperform⟩ := bind_eq_ok.mp hperform
    cases hperform
    have hdraw := h.draw (.single (e := ⟨offset, .gradient g⟩) (.gradient g))
    rw [Sketch.draw_nil] at hdraw
    exact ⟨hdraw.layout, hdraw.groups⟩
  | beginGroup attrs =>
    cases hperform
    exact ⟨.group h.layout .nil, fun x hx => (h.groups x hx).append _⟩
  | endGroup =>
    obtain ⟨exportId, steps, rest, hframes, rfl, -⟩ := Sketch.perform_endGroup_eq_ok.mp hperform
    exact h.closeGroup hframes
  | clip c =>
    cases hperform
    exact h.draw (.single (.clip c))
  | beginMask =>
    cases hperform
    refine h.openMask (fun id hid => ?_) .beginMask
    cases hid
  | maskContent =>
    obtain ⟨steps, rest, hframes, rfl, -⟩ := Sketch.perform_maskContent_eq_ok.mp hperform
    have hlayout := h.layout
    rw [hframes] at hlayout
    refine ⟨?_, fun x hx => (h.groups x hx).append _⟩
    cases hlayout with
    | mask hscope houter hinner =>
      rw [List.append_assoc]
      refine .mask (fun id hid => ?_) houter (hinner.append (.single .maskContent))
      cases hid
  | endMask =>
    obtain ⟨steps, rest, hframes, rfl, -⟩ := Sketch.perform_endMask_eq_ok.mp hperform
    have hlayout := h.layout
    rw [hframes] at hlayout
    cases hlayout with
    | @mask outer inner scope root inner' frames hscope houter hinner =>
      have hdraw := draw (s := { s with frames := rest, exports := [] })
        ⟨houter, fun x hx => absurd hx List.not_mem_nil⟩
        (hinner.append (.single (e := ⟨offset, .endMask⟩) .endMask))
      rw [← List.append_assoc] at hdraw
      refine ⟨?_, fun x hx => (h.groups x (by rwa [Sketch.draw_exports] at hx)).append _⟩
      have := hdraw.layout
      unfold Sketch.draw at this ⊢
      cases rest <;> exact this
  | shape leaf =>
    obtain ⟨step, hstep, hperform⟩ := bind_eq_ok.mp hperform
    cases hperform
    exact h.draw (.single (.shape (Resources.shapeStep_mono hresources hstep)))
  | image leaf =>
    obtain ⟨step, hstep, hperform⟩ := bind_eq_ok.mp hperform
    cases hperform
    exact h.draw (.single (.image (Resources.imageStep_mono hresources hstep)))
  | text leaf =>
    obtain ⟨step, hstep, hperform⟩ := bind_eq_ok.mp hperform
    cases hperform
    exact h.draw (.single (.text (Resources.textStep_mono hresources hstep)))
  | use u =>
    obtain ⟨group, hgroup, rfl, -⟩ := Sketch.perform_use_eq_ok.mp hperform
    exact h.draw (spells_use hread (h.groups _ (mem_of_lookup hgroup)) hentries)

end Holds

/-- A validation and a replay into a sketch, the same entries behind them. -/
structure Traced (r : Resources) (contents : Contents) (es : List Entry) (s : Scan)
    (p : Position Sketch) : Prop where
  current : Sketch.Current p
  sound : s.nesting.Sound
  nesting : p.session.nesting = { s.nesting with phase := .tree }
  resources : p.session.state.resources = { r with gradients := s.gradients }
  holds : Holds r contents es p.session.state

/-- The sketch takes the call that the validation takes. -/
theorem Traced.step {ops : Bytes} (hread : contents.Read t ops)
    (hgradients : r.gradients.size ≤ 2 ^ 32) {s : Scan} {p : Position Sketch} {e : Entry}
    {after : List Entry} {n : Nesting} (h : Traced r contents es s p)
    (hentries : contents.entries = es ++ e :: after)
    (haccept : Nesting.Accepted s.gradients.size s.nesting e.call n)
    (hgrow : (s.add n e).gradients.toList <+: r.gradients.toList) :
    ∃ q, Sketch.backend.Advances p e.call q ∧ Traced r contents (es ++ [e]) (s.add n e) q ∧
      q.session.state.document = p.session.state.document := by
  have htree : e.call.OfTree := hread.decodes.ofTree e (by simp [hentries])
  have hcount : p.ids.size = s.gradients.size := by
    rw [h.current.count, h.resources]
  have hroom : ∀ g, e.call = .gradient g → p.ids.size < 2 ^ 32 := by
    intro g hg
    have hadd : (s.add n e).gradients = s.gradients.push g := by
      simp only [Scan.add, hg]
    have hlength := hgrow.length_le
    rw [hadd, Array.length_toList, Array.length_toList, Array.size_push] at hlength
    omega
  have haccept' := haccept.inTree htree
  rw [← h.nesting, ← hcount] at haccept'
  obtain ⟨s', reply, hperform, hstep⟩ := h.current.advances haccept' hroom
  obtain ⟨-, -, -, -, hcurrent⟩ := h.current.of_advances hstep
  obtain ⟨hdocument, hresources⟩ := Sketch.perform_resources htree hperform
  have hadded : s'.resources.gradients = (s.add n e).gradients := by
    have hcall := Sketch.perform_gradients hperform
    rw [h.resources] at hcall
    unfold Scan.add
    dsimp only
    split
    · next g hg =>
      rcases hcall with ⟨g', hg', -, -, hpush⟩ | ⟨hne, -, -⟩
      · cases hg.symm.trans hg'
        exact hpush
      · exact absurd hg (hne g)
    · next hne =>
      rcases hcall with ⟨g, hg, -, -, -⟩ | ⟨-, -, hsame⟩
      · exact absurd hg (hne g)
      · exact hsame
  have hextended : p.session.state.resources.ExtendedBy r := by
    rw [h.resources]
    refine Resources.extendedBy_gradients (List.IsPrefix.trans ?_ hgrow)
    exact (Scan.Takes.cons haccept (.nil _)).gradients_grow
  refine ⟨_, hstep, ⟨hcurrent, h.sound.step haccept, rfl, ?_, ?_⟩, hdocument⟩
  · show s'.resources = _
    rw [hresources, hadded, h.resources]
  · exact h.holds.step hread hentries hextended htree hperform

/-- The sketch takes all the calls that the validation takes. -/
private theorem Traced.run {ops : Bytes} (hread : contents.Read t ops)
    (hgradients : r.gradients.size ≤ 2 ^ 32) {s u : Scan} (htakes : s.Takes fs u)
    (hgrow : u.gradients.toList <+: r.gradients.toList) {p : Position Sketch}
    (h : Traced r contents es s p) (hentries : contents.entries = es ++ fs) :
    ∃ q, Sketch.backend.Runs p (fs.map Entry.call) q ∧ Traced r contents (es ++ fs) u q ∧
      q.session.state.document = p.session.state.document := by
  induction htakes generalizing es p with
  | nil s =>
    rw [List.append_nil]
    exact ⟨p, .nil p, h, rfl⟩
  | @cons s u e rest n haccept hrest ih =>
    obtain ⟨q, hstep, hq, hdocument⟩ :=
      h.step hread hgradients hentries haccept (hrest.gradients_grow.trans hgrow)
    rw [List.append_cons] at hentries ⊢
    obtain ⟨q', hruns, hq', hdocument'⟩ := ih hgrow hq hentries
    exact ⟨q', .cons hstep hruns, hq', hdocument'.trans hdocument⟩

end Compact

open VectorImage.Compact in
/-- A validated image of gradients that all have an id has a sketch, and its entries spell the
steps of the sketch. -/
theorem CompactImage.sketch {c : CompactImage} (h : c.contents.gradients.size ≤ 2 ^ 32) :
    ∃ s, Sketch.backend.replay .empty c.calls = .ok s ∧
      Spells c.resources c.contents c.contents.entries s.root ∧ s.document = c.document ∧
        s.resources = c.resources := by
  have hread := read_of_scan c.valid
  obtain ⟨u, htakes, hclosed, hgradients, -⟩ := hread.takes
  obtain ⟨p, hp⟩ : ∃ p, p = (⟨#[], ⟨{ (Scan.start c.tables.value).nesting with phase := .tree },
    { Sketch.empty with
      document := c.document
      resources := { c.resources with gradients := #[] } }⟩⟩ : Position Sketch) := ⟨_, rfl⟩
  have hfirst : Sketch.backend.Runs (.start .empty)
      [.init c.tables.value.tables, .document c.document] p := by
    rw [hp]
    refine .cons (.step rfl (.init _ rfl) rfl) (.cons (.step rfl (.document _ rfl) rfl) ?_)
    exact .nil _
  have hcurrent : Sketch.Current p := hfirst.preserves
    (fun hq hstep => (hq.of_advances hstep).choose_spec.2.2.2) Sketch.current_start
  have hstart : Traced c.resources c.contents [] (.start c.tables.value) p := by
    rw [hp] at hcurrent ⊢
    exact ⟨hcurrent, Nesting.sound_initialized _ _ _, rfl, rfl,
      ⟨.root .nil, fun x hx => nomatch hx⟩⟩
  obtain ⟨q, hruns, hq, hdocument⟩ := hstart.run hread h htakes
    (by rw [← hgradients]; exact List.prefix_rfl) rfl
  have hscopes : q.session.nesting.scopes = [] := by
    rw [hq.nesting]
    exact (Nesting.checkClosed_eq_ok.mp hclosed).2
  have hframes : q.session.state.frames = [] :=
    List.map_eq_nil_iff.mp (hq.current.follows.scopes.trans hscopes)
  have hlayout := hq.holds.layout
  rw [hframes] at hlayout
  refine ⟨q.session.state, Backend.replay_eq_ok.mpr ⟨q, hfirst.append hruns, ?_, rfl⟩, ?_, ?_, ?_⟩
  · refine Nesting.checkClosed_eq_ok.mpr ⟨?_, hscopes⟩
    rw [hq.nesting]
    exact nofun
  · exact hlayout.spells
  · rw [hdocument, hp]
  · rw [hq.resources, ← hgradients]
    rfl

end VectorImage
