import VectorImage.Compact.Image
import VectorImage.Proofs.Call.Acceptance

/-!
What the one validation of a stream finds. The instructions decode one after the other from the
first byte to the last, each call is accepted after the ones before it, and what is kept (the
calls with their offsets, the gradients, where exported groups begin) is read off the calls.
-/

set_option autoImplicit false
set_option relaxedAutoImplicit false

namespace VectorImage

namespace Compact

/-- The instructions of an input, one after the other up to its end. -/
inductive Decodes (t : TableSet) : Input UInt8 → List Entry → Prop
  | nil {i : Input UInt8} (hread : (readCall t).run i = .ok (none, i)) : Decodes t i []
  | cons {i j : Input UInt8} {call : Call} {rest : List Entry}
      (hread : (readCall t).run i = .ok (some (i.offset, call), j))
      (hrest : Decodes t j rest) : Decodes t i (⟨i.offset, call⟩ :: rest)

/-- Entries that the validation takes in, one after the other. -/
inductive Scan.Takes : Scan → List Entry → Scan → Prop
  | nil (s : Scan) : Takes s [] s
  | cons {s u : Scan} {e : Entry} {rest : List Entry} {n : Nesting}
      (haccept : Nesting.Accepted s.gradients.size s.nesting e.call n)
      (hrest : Takes (s.add n e) rest u) : Takes s (e :: rest) u

variable {t : TableSet}

/-- Reading a call takes its opcode at least; there is none only at the end. -/
theorem readCall_cases {i j : Input UInt8} {found : Option (Nat × Call)}
    (h : (readCall t).run i = .ok (found, j)) :
    (found = none ∧ j = i ∧ i.rest = []) ∨
      ∃ call, found = some (i.offset, call) ∧ i.offset < j.offset := by
  obtain ⟨o, rest⟩ := i
  cases rest with
  | nil =>
    cases h
    exact Or.inl ⟨rfl, rfl, rfl⟩
  | cons code rest =>
    right
    change (Parser.bind (readOperands t code) fun call => pure (some (o, call))).run
      ⟨o + 1, rest⟩ = .ok (found, j) at h
    have hread := h
    unfold Parser.bind at hread
    dsimp only at hread
    split at hread
    · cases hread
    · next call k hcall =>
      cases hread
      obtain ⟨taken, -, hoffset⟩ := (readOperands t code).reaches hcall
      refine ⟨call, rfl, ?_⟩
      rw [hoffset]
      exact Nat.lt_of_lt_of_le (Nat.lt_succ_self o) (Nat.le_add_right _ _)

theorem Decodes.unique {i : Input UInt8} {es es' : List Entry} (h : Decodes t i es)
    (h' : Decodes t i es') : es = es' := by
  induction h generalizing es' with
  | nil hread =>
    cases h' with
    | nil _ => rfl
    | cons hread' _ => cases hread.symm.trans hread'
  | cons hread hrest ih =>
    cases h' with
    | nil hread' => cases hread.symm.trans hread'
    | cons hread' hrest' =>
      cases hread.symm.trans hread'
      rw [ih hrest']

/-- Every entry of an input stands at or after its offset and before its end. -/
theorem Decodes.offset_bounds {i : Input UInt8} {es : List Entry} (h : Decodes t i es) :
    ∀ e ∈ es, i.offset ≤ e.offset ∧ e.offset < i.offset + i.rest.length := by
  induction h with
  | nil hread =>
    intro e he
    cases he
  | @cons i j call rest hread hrest ih =>
    obtain ⟨taken, hi, hj⟩ := (readCall t).reaches hread
    have hlength := congrArg List.length hi
    rw [List.length_append] at hlength
    rcases readCall_cases hread with ⟨hnone, -⟩ | ⟨_, -, hlt⟩
    · cases hnone
    · intro e he
      rcases List.mem_cons.mp he with rfl | he
      · exact ⟨Nat.le_refl _, by show i.offset < _; omega⟩
      · have hbounds := ih e he
        omega

/-- Entries come in the order of their offsets. -/
theorem Decodes.increasing {i : Input UInt8} {es : List Entry} (h : Decodes t i es) :
    es.Pairwise fun e f => e.offset < f.offset := by
  induction h with
  | nil hread => exact .nil
  | @cons i j call rest hread hrest ih =>
    refine .cons (fun e he => ?_) ih
    rcases readCall_cases hread with ⟨hnone, -⟩ | ⟨_, -, hlt⟩
    · cases hnone
    · exact Nat.lt_of_lt_of_le hlt (hrest.offset_bounds e he).1

/-- What one step of the validation is. -/
private theorem scanStep_cases {s : Scan} {i j : Input UInt8} {found : Option Scan}
    (h : (scanStep t s).run i = .ok (found, j)) :
    (found = none ∧ j = i ∧ (readCall t).run i = .ok (none, i)) ∨
      ∃ call n, (readCall t).run i = .ok (some (i.offset, call), j) ∧
        Nesting.Accepted s.gradients.size s.nesting call n ∧
        found = some (s.add n ⟨i.offset, call⟩) := by
  unfold scanStep at h
  rw [Parser.run_bind] at h
  split at h
  · cases h
  · next a k hread =>
    rcases readCall_cases hread with ⟨rfl, rfl, -⟩ | ⟨call, rfl, -⟩
    · cases h
      exact Or.inl ⟨rfl, rfl, hread⟩
    · dsimp only at h
      cases haccept : s.nesting.accept s.gradients.size call with
      | error e =>
        rw [haccept] at h
        cases h
      | ok n =>
        rw [haccept] at h
        cases h
        exact Or.inr ⟨call, n, hread, Nesting.accept_eq_ok.mp haccept, rfl⟩

private theorem iterate_takes {s u : Scan} {i : Input UInt8} {j : Input UInt8}
    {hj : i.Reaches j} (h : Parser.iterateFrom (scanStep t) s i = .ok (u, ⟨j, hj⟩)) :
    ∃ es, Decodes t i es ∧ s.Takes es u := by
  fun_induction Parser.iterateFrom (scanStep t) s i generalizing u j with
  | case1 => cases h
  | case2 s i k hstep =>
    cases h
    rcases scanStep_cases hstep with ⟨-, -, hread⟩ | ⟨_, _, -, -, hnone⟩
    · exact ⟨[], .nil hread, .nil _⟩
    · cases hnone
  | case3 => cases h
  | case4 s i v k hstep hlt w l hrest ih =>
    cases h
    rcases scanStep_cases hstep with ⟨hnone, -⟩ | ⟨call, n, hread, haccept, hsome⟩
    · cases hnone
    · cases hsome
      obtain ⟨es, hdecodes, htakes⟩ := ih hrest
      exact ⟨_, .cons hread hdecodes, .cons haccept htakes⟩
  | case5 s i v k hstep hlt =>
    rcases scanStep_cases hstep with ⟨hnone, -⟩ | ⟨call, n, hread, haccept, hsome⟩
    · cases hnone
    · rcases readCall_cases hread with ⟨hnone, -⟩ | ⟨_, -, hoffset⟩
      · cases hnone
      · exact absurd hoffset hlt

namespace Scan.Takes

variable {s u : Scan} {es : List Entry}

theorem reversed (h : s.Takes es u) : u.reversed = es.reverse ++ s.reversed := by
  induction h with
  | nil s => rfl
  | cons haccept hrest ih =>
    rw [ih, List.reverse_cons, List.append_assoc]
    rfl

theorem sound (h : s.Takes es u) (hs : s.nesting.Sound) : u.nesting.Sound := by
  induction h with
  | nil s => exact hs
  | cons haccept hrest ih => exact ih (hs.step haccept)

/-- Every gradient call registers its gradient. -/
theorem gradients_eq (h : s.Takes es u) :
    u.gradients.toList = s.gradients.toList ++ registered (es.map Entry.call) := by
  induction h with
  | nil s => exact (List.append_nil _).symm
  | @cons s u e rest n haccept hrest ih =>
    have hadd : (s.add n e).gradients.toList = s.gradients.toList ++ registered [e.call] := by
      obtain ⟨offset, call⟩ := e
      cases call with
      | gradient g => exact Array.toList_push
      | _ => exact (List.append_nil _).symm
    rw [ih, hadd, List.append_assoc, registered, registered, ← List.filterMap_append]
    rfl

theorem gradients_grow (h : s.Takes es u) : s.gradients.toList <+: u.gradients.toList := by
  rw [h.gradients_eq]
  exact List.prefix_append _ _

/-- An exported group is entered under its name and its offset. -/
theorem mem_exports (h : s.Takes es u) :
    ∀ x, x ∈ u.exports ↔ x ∈ s.exports ∨
      ∃ e ∈ es, ∃ attrs : GroupAttrs, e.call = .beginGroup attrs ∧ attrs.exportId = some x.1 ∧
        e.offset = x.2 := by
  induction h with
  | nil s => simp
  | @cons s u e rest n haccept hrest ih =>
    intro x
    rw [ih]
    have hadd : x ∈ (s.add n e).exports ↔ x ∈ s.exports ∨
        ∃ attrs : GroupAttrs, e.call = .beginGroup attrs ∧ attrs.exportId = some x.1 ∧
          e.offset = x.2 := by
      unfold Scan.add
      dsimp only
      split
      · next transform alpha id hcall =>
        rw [List.mem_cons, hcall]
        constructor
        · rintro (rfl | hx)
          · exact Or.inr ⟨_, rfl, rfl, rfl⟩
          · exact Or.inl hx
        · rintro (hx | ⟨attrs, hattrs, hid, hoffset⟩)
          · exact Or.inr hx
          · cases hattrs
            cases hid
            exact Or.inl (Prod.ext rfl hoffset.symm)
      · next hcall =>
        refine ⟨Or.inl, ?_⟩
        rintro (hx | ⟨⟨transform, alpha, exportId⟩, hattrs, hid, -⟩)
        · exact hx
        · cases hid
          exact absurd hattrs (hcall transform alpha _)
    rw [hadd]
    simp only [List.mem_cons, exists_eq_or_imp, or_assoc]

/-- The names of the groups entered so far are those of the open and of the closed groups. -/
theorem names_perm (h : s.Takes es u)
    (hs : (s.exports.map Prod.fst).Perm (s.nesting.openNames ++ s.nesting.exported)) :
    (u.exports.map Prod.fst).Perm (u.nesting.openNames ++ u.nesting.exported) := by
  induction h with
  | nil s => exact hs
  | @cons s u e rest n haccept hrest ih =>
    have hadd : (s.add n e).exports.map Prod.fst =
        e.call.exportId?.toList ++ s.exports.map Prod.fst := by
      unfold Scan.add
      dsimp only
      split
      · next hcall =>
        rw [hcall]
        rfl
      · next hcall =>
        obtain ⟨offset, call⟩ := e
        cases call with
        | beginGroup attrs =>
          obtain ⟨transform, alpha, exportId⟩ := attrs
          cases exportId with
          | none => rfl
          | some id => exact absurd rfl (hcall transform alpha id)
        | _ => rfl
    refine ih ?_
    rw [hadd]
    exact (hs.append_left _).trans haccept.names_perm.symm

end Scan.Takes

/-- What the validation of a stream tells about its contents. -/
structure Contents.Read (t : TableSet) (ops : Bytes) (contents : Contents) : Prop where
  decodes : Decodes t (.ofList ops) contents.entries
  takes : ∃ u, (Scan.start t).Takes contents.entries u ∧ u.nesting.checkClosed = .ok () ∧
    contents.gradients = u.gradients ∧ contents.exports = u.exports

theorem read_of_scan {ops : Bytes} {contents : Contents} (h : scan t ops = .ok contents) :
    contents.Read t ops := by
  obtain ⟨u, hparse, h⟩ := bind_eq_ok.mp h
  obtain ⟨_, hclosed, h⟩ := bind_eq_ok.mp h
  cases h
  obtain ⟨⟨u', j⟩, hrun, rfl⟩ := map_eq_ok.mp hparse
  unfold Parser.iterate at hrun
  dsimp only at hrun
  split at hrun
  · cases hrun
  · next v k hiterate =>
    cases hrun
    obtain ⟨es, hdecodes, htakes⟩ := iterate_takes hiterate
    have hentries : u'.reversed.reverse = es := by
      rw [htakes.reversed]
      simp [Scan.start]
    rw [← hentries] at hdecodes htakes
    exact ⟨hdecodes, _, htakes, hclosed, rfl, rfl⟩

namespace Contents.Read

variable {ops : Bytes} {contents : Contents}

theorem increasing (h : contents.Read t ops) :
    contents.entries.Pairwise fun e f => e.offset < f.offset := h.decodes.increasing

theorem offset_lt (h : contents.Read t ops) {e : Entry} (he : e ∈ contents.entries) :
    e.offset < ops.length := by
  have hbounds := (h.decodes.offset_bounds e he).2
  simpa [Input.ofList] using hbounds

theorem gradients_eq (h : contents.Read t ops) :
    contents.gradients.toList = registered (contents.entries.map Entry.call) := by
  obtain ⟨u, htakes, -, hgradients, -⟩ := h.takes
  rw [hgradients, htakes.gradients_eq]
  rfl

theorem gradients_size (h : contents.Read t ops) :
    contents.gradients.size = (contents.entries.map Entry.call).countP Call.isGradient := by
  rw [← Array.length_toList, h.gradients_eq, length_registered]

/-- The name of an exported group leads to its opcode. -/
theorem lookup_export (h : contents.Read t ops) {e : Entry} (he : e ∈ contents.entries)
    {attrs : GroupAttrs} (hcall : e.call = .beginGroup attrs) {id : StringId}
    (hid : attrs.exportId = some id) : contents.exports.lookup id = some e.offset := by
  obtain ⟨u, htakes, -, -, hexports⟩ := h.takes
  have hmem : (id, e.offset) ∈ u.exports :=
    (htakes.mem_exports _).mpr (Or.inr ⟨e, he, attrs, hcall, hid, rfl⟩)
  have hsound := htakes.sound (Nesting.sound_initialized _ _ _)
  have hperm := htakes.names_perm List.Perm.nil
  have hdistinct : (u.exports.map Prod.fst).Nodup := hperm.nodup_iff.mpr hsound.distinct
  rw [hexports]
  obtain ⟨before, after, hsplit⟩ := List.append_of_mem hmem
  rw [hsplit, List.map_append, List.map_cons] at hdistinct
  refine List.lookup_eq_some_iff.mpr ⟨before, after, hsplit, fun p hp => ?_⟩
  refine bne_iff_ne.mpr fun heq => ?_
  have hdisjoint := (List.nodup_append.mp hdistinct).2.2
  exact hdisjoint p.1 (List.mem_map_of_mem hp) id List.mem_cons_self heq.symm

end Contents.Read

end Compact

namespace CompactImage

open VectorImage.Compact

/-- The parts of the stored form, their instructions not yet looked at. -/
def readParts : Reader (Header × TableSet × Document × Bytes) := do
  let header ← Header.read
  let tables ← readSection .tables
  let tables ← Parser.ofExcept ((readTables header.width).parse tables)
  let document ← readSection .document
  let document ← Parser.ofExcept (readDocument.parse document)
  let ops ← readSection .ops
  skipSections
  return (header, tables, document, ops)

/-- All parts are read before the instructions are looked at. -/
theorem ofBytes_eq (stamp : Nat) (bytes : Bytes) : ofBytes stamp bytes = (do
    let (header, tables, document, ops) ← readParts.parse bytes
    ofParts header document ⟨⟨stamp, []⟩, tables⟩ ops) := rfl

/-- Parts whose instructions are valid make an image. -/
theorem ofParts_of_scan (header : Header) (document : Document) (tables : Shared TableSet)
    {ops : Bytes} {contents : Contents} (h : scan tables.value ops = .ok contents) :
    ofParts header document tables ops = .ok ⟨header, document, tables, ops, contents, h⟩ := by
  unfold ofParts
  split
  · next found hfound =>
    cases h.symm.trans hfound
    rfl
  · next hfound => cases h.symm.trans hfound

theorem ofParts_of_error (header : Header) (document : Document) {tables : Shared TableSet}
    {ops : Bytes} {e : Error} (h : scan tables.value ops = .error e) :
    ofParts header document tables ops = .error e := by
  unfold ofParts
  split
  · next hfound => cases h.symm.trans hfound
  · next hfound =>
    cases h.symm.trans hfound
    rfl

theorem ofParts_eq_ok {header : Header} {document : Document} {tables : Shared TableSet}
    {ops : Bytes} {c : CompactImage} (h : ofParts header document tables ops = .ok c) :
    c.header = header ∧ c.document = document ∧ c.tables = tables ∧ c.ops = ops := by
  unfold ofParts at h
  split at h
  · cases h
    exact ⟨rfl, rfl, rfl, rfl⟩
  · cases h

end CompactImage

end VectorImage
