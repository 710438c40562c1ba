import VectorImage.Proofs.Compact.Traversal

/-!
Drawing straight from the bytes. A lazy walk decodes one instruction at a time and seeks to the
stored offset of a group when it meets a use; it keeps no calls and needs no bound on where it
stops. Over entries that spell steps it follows the steps, as the walk over the entries does.
-/

set_option autoImplicit false
set_option relaxedAutoImplicit false

namespace VectorImage

namespace Compact

variable {t : TableSet} {r : Resources} {contents : Contents} {ops : Bytes}

/-- The stream from an offset on. -/
def seek (ops : Bytes) (offset : Nat) : Input UInt8 := ⟨offset, ops.drop offset⟩

/-- A walk over bytes, from a painter to a painter. `single` says that only one group is walked,
`depth` counts the groups open in it. A step that cannot be decoded, a name that leads nowhere and
an index that names nothing have no walk. -/
inductive LazyWalk (t : TableSet) (r : Resources) (exports : List (StringId × Nat)) (ops : Bytes) :
    Bool → Nat → Input UInt8 → Painter → Painter → Prop
  | finish {single : Bool} {depth : Nat} {i : Input UInt8} {p : Painter}
      (hread : (readCall t).run i = .ok (none, i)) : LazyWalk t r exports ops single depth i p p
  | draw {single : Bool} {depth : Nat} {i j : Input UInt8} {call : Call} {steps : List PaintStep}
      {p q : Painter} (hread : (readCall t).run i = .ok (some (i.offset, call), j))
      (hdraws : Draws r call steps)
      (hrest : LazyWalk t r exports ops single depth j (p.follow steps) q) :
    LazyWalk t r exports ops single depth i p q
  | beginGroup {single : Bool} {depth : Nat} {i j : Input UInt8} {attrs : GroupAttrs}
      {p q : Painter} (hread : (readCall t).run i = .ok (some (i.offset, .beginGroup attrs), j))
      (hrest : LazyWalk t r exports ops single (depth + 1) j
        (p.beginGroup attrs.transform attrs.alpha) q) :
    LazyWalk t r exports ops single depth i p q
  | endGroup {single : Bool} {depth : Nat} {i j : Input UInt8} {p q : Painter}
      (hread : (readCall t).run i = .ok (some (i.offset, .endGroup), j))
      (hopen : (single && depth - 1 == 0) = false)
      (hrest : LazyWalk t r exports ops single (depth - 1) j p.endGroup q) :
    LazyWalk t r exports ops single depth i p q
  | endSingle {single : Bool} {depth : Nat} {i j : Input UInt8} {p : Painter}
      (hread : (readCall t).run i = .ok (some (i.offset, .endGroup), j))
      (hlast : (single && depth - 1 == 0) = true) :
    LazyWalk t r exports ops single depth i p p.endGroup
  | use {single : Bool} {depth start : Nat} {i j : Input UInt8} {u : UseRef} {p p' q : Painter}
      (hread : (readCall t).run i = .ok (some (i.offset, .use u), j))
      (hexport : exports.lookup u.target = some start)
      (hgroup : LazyWalk t r exports ops true 0 (seek ops start) (p.beginUse u.transform) p')
      (hrest : LazyWalk t r exports ops single depth j p'.endUse q) :
    LazyWalk t r exports ops single depth i p q

theorem Draws.unique {call : Call} {steps steps' : List PaintStep} (h : Draws r call steps)
    (h' : Draws r call steps') : steps = steps' := by
  cases h with
  | shape h => cases h' with | shape h' => rw [Except.ok.inj (h.symm.trans h')]
  | image h => cases h' with | image h' => rw [Except.ok.inj (h.symm.trans h')]
  | text h => cases h' with | text h' => rw [Except.ok.inj (h.symm.trans h')]
  | _ => cases h'; rfl

/-- Decoding from the offset of an entry gives the entries from there on. -/
theorem Decodes.seek {before after : List Entry} {e : Entry}
    (h : Decodes t (.ofList ops) (before ++ e :: after)) :
    Decodes t (seek ops e.offset) (e :: after) := by
  suffices key : ∀ {es : List Entry} {i : Input UInt8}, Decodes t i es →
      ∀ {before : List Entry}, es = before ++ e :: after → i = Compact.seek ops i.offset →
        Decodes t (Compact.seek ops e.offset) (e :: after) from key h rfl rfl
  clear h
  intro es i h
  induction h with
  | nil hread =>
    intro before hes _
    simp at hes
  | @cons i j call rest hread hrest ih =>
    intro before hes hi
    cases before with
    | nil =>
      cases hes
      rw [← hi]
      exact .cons hread hrest
    | cons f before =>
      obtain ⟨taken, hrest', hoffset⟩ := (readCall t).reaches hread
      refine ih (List.cons.inj hes).2 ?_
      obtain ⟨o, bytes⟩ := j
      have hbytes : i.rest = ops.drop i.offset := congrArg Input.rest hi
      have hdrop : bytes = ops.drop (i.offset + taken.length) := by
        rw [← List.drop_drop, ← hbytes, hrest', List.drop_left]
      rw [hdrop]
      exact congrArg (fun k => (⟨o, ops.drop k⟩ : Input UInt8)) hoffset.symm

theorem Decodes.cons_inv {i : Input UInt8} {e : Entry} {rest : List Entry}
    (h : Decodes t i (e :: rest)) :
    ∃ j, e.offset = i.offset ∧ (readCall t).run i = .ok (some (i.offset, e.call), j) ∧
      Decodes t j rest := by
  cases h with
  | cons hread hrest => exact ⟨_, rfl, hread, hrest⟩

/-- Bytes that decode to entries that spell steps are walked by following the steps. -/
theorem lazyWalk_spells (hentries : Decodes t (.ofList ops) contents.entries) {es : List Entry}
    {steps : List PaintStep} (h : Spells r contents es steps) :
    ∀ {single : Bool} {depth : Nat} {i : Input UInt8} {rest : List Entry} {p q : Painter},
      Decodes t i (es ++ rest) → (single = true → 0 < depth) →
        (∀ j, Decodes t j rest →
          LazyWalk t r contents.exports ops single depth j (p.follow steps) q) →
        LazyWalk t r contents.exports ops single depth i p q := by
  induction h with
  | nil =>
    intro single depth i rest p q hdecodes _ hrest
    exact hrest i hdecodes
  | call he hrest ih =>
    intro single depth i rest p q hdecodes hdepth hafter
    obtain ⟨j, -, hread, hdecodes⟩ := hdecodes.cons_inv
    refine .draw hread he (ih hdecodes hdepth fun k hk => ?_)
    rw [← Painter.follow_append]
    exact hafter k hk
  | @group start stop attrs inner rest' inner' steps' hinner hrest ihinner ihrest =>
    intro single depth i rest p q hdecodes hdepth hafter
    simp only [groupEntries, List.cons_append, List.append_assoc, List.nil_append] at hdecodes
    obtain ⟨j, -, hopen, hdecodes⟩ := hdecodes.cons_inv
    refine .beginGroup hopen (ihinner hdecodes (fun _ => Nat.succ_pos depth) fun k hk => ?_)
    obtain ⟨l, -, hclose, hdecodes⟩ := hk.cons_inv
    have hcontinue : (single && depth + 1 - 1 == 0) = false := by
      cases single with
      | false => rfl
      | true =>
        have := hdepth rfl
        simp only [Nat.add_sub_cancel, Bool.true_and, beq_eq_false_iff_ne]
        omega
    refine .endGroup hclose hcontinue (ihrest hdecodes hdepth fun m hm => ?_)
    have hwalk := hafter m hm
    simp only [groupSteps, List.cons_append, Painter.follow_cons, Painter.follow_append,
      List.append_assoc, List.nil_append] at hwalk
    exact hwalk
  | @use offset start stop u attrs inner after rest' inner' steps' hname hexport hgroup hbefore
      hinner hrest ihinner ihrest =>
    intro single depth i rest p q hdecodes hdepth hafter
    obtain ⟨j, -, hread, hdecodes⟩ := hdecodes.cons_inv
    have hsplit := List.takeWhile_append_dropWhile (p := fun e : Entry => decide (e.offset < start))
      (l := contents.entries)
    rw [hgroup] at hsplit
    simp only [groupEntries, List.cons_append, List.append_assoc, List.nil_append] at hsplit
    have htarget : Decodes t (seek ops start)
        (⟨start, .beginGroup attrs⟩ :: (inner ++ ⟨stop, .endGroup⟩ :: after)) := by
      rw [← hsplit] at hentries
      exact hentries.seek
    have hwalk : LazyWalk t r contents.exports ops true 0 (seek ops start)
        (p.beginUse u.transform) ((p.beginUse u.transform).follow (groupSteps attrs inner')) := by
      obtain ⟨k, -, hopen, htarget⟩ := htarget.cons_inv
      refine .beginGroup hopen (ihinner htarget (fun _ => Nat.succ_pos 0) fun l hl => ?_)
      obtain ⟨m, -, hclose, -⟩ := hl.cons_inv
      have hend : LazyWalk t r contents.exports ops true (0 + 1) l
          (((p.beginUse u.transform).beginGroup attrs.transform attrs.alpha).follow inner') _ :=
        .endSingle hclose rfl
      simpa [groupSteps, Painter.step] using hend
    refine .use hread hexport hwalk (ihrest hdecodes hdepth fun k hk => ?_)
    have hlast := hafter k hk
    simpa [Painter.step] using hlast

/-- A stream whose entries spell steps is walked to its end by following them. -/
theorem lazyWalk_of_spells (hread : contents.Read t ops) {steps : List PaintStep}
    (h : Spells r contents contents.entries steps) :
    LazyWalk t r contents.exports ops false 0 (.ofList ops) .start (Painter.start.follow steps) := by
  have hdecodes : Decodes t (.ofList ops) (contents.entries ++ []) := by
    rw [List.append_nil]
    exact hread.decodes
  refine lazyWalk_spells hread.decodes h hdecodes (fun he => nomatch he) fun j hj => ?_
  cases hj with
  | nil hread => exact .finish hread

/-- A walk over bytes has one end. -/
theorem LazyWalk.unique {exports : List (StringId × Nat)} {single : Bool} {depth : Nat}
    {i : Input UInt8} {p q : Painter} (h : LazyWalk t r exports ops single depth i p q)
    {q' : Painter} (h' : LazyWalk t r exports ops single depth i p q') : q = q' := by
  induction h generalizing q' with
  | finish hread =>
    cases h' with
    | finish _ => rfl
    | _ => cases hread.symm.trans ‹(readCall t).run _ = .ok (some _, _)›
  | draw hread hdraws hrest ih =>
    cases h' with
    | finish hread' => cases hread.symm.trans hread'
    | draw hread' hdraws' hrest' =>
      cases hread.symm.trans hread'
      cases hdraws.unique hdraws'
      exact ih hrest'
    | _ =>
      cases hread.symm.trans ‹(readCall t).run _ = .ok (some _, _)›
      cases hdraws
  | beginGroup hread hrest ih =>
    cases h' with
    | finish hread' => cases hread.symm.trans hread'
    | draw hread' hdraws' hrest' =>
      cases hread.symm.trans hread'
      cases hdraws'
    | beginGroup hread' hrest' =>
      cases hread.symm.trans hread'
      exact ih hrest'
    | _ => cases hread.symm.trans ‹(readCall t).run _ = .ok (some _, _)›
  | endGroup hread hopen hrest ih =>
    cases h' with
    | finish hread' => cases hread.symm.trans hread'
    | draw hread' hdraws' hrest' =>
      cases hread.symm.trans hread'
      cases hdraws'
    | endGroup hread' hopen' hrest' =>
      cases hread.symm.trans hread'
      exact ih hrest'
    | endSingle hread' hlast => cases hopen.symm.trans hlast
    | _ => cases hread.symm.trans ‹(readCall t).run _ = .ok (some _, _)›
  | endSingle hread hlast =>
    cases h' with
    | finish hread' => cases hread.symm.trans hread'
    | draw hread' hdraws' hrest' =>
      cases hread.symm.trans hread'
      cases hdraws'
    | endGroup hread' hopen hrest' => cases hopen.symm.trans hlast
    | endSingle hread' _ => rfl
    | _ => cases hread.symm.trans ‹(readCall t).run _ = .ok (some _, _)›
  | use hread hexport hgroup hrest ihgroup ihrest =>
    cases h' with
    | finish hread' => cases hread.symm.trans hread'
    | draw hread' hdraws' hrest' =>
      cases hread.symm.trans hread'
      cases hdraws'
    | use hread' hexport' hgroup' hrest' =>
      cases hread.symm.trans hread'
      cases hexport.symm.trans hexport'
      cases ihgroup hgroup'
      exact ihrest hrest'
    | _ => cases hread.symm.trans ‹(readCall t).run _ = .ok (some _, _)›

end Compact

end VectorImage
