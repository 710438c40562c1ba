import VectorImage.Proofs.Call.Passing
import VectorImage.Proofs.Graph.Likeness
import VectorImage.Proofs.Graph.Portrayal
import VectorImage.Proofs.Graph.Replaying

/-!
A tree issues the stream it was built from again. While a stream is built, the finished nodes and
the open scopes stand for the calls so far, under the indices that the builder answered for the
gradients, and its table holds the gradients registered so far, each once. So the calls of the
finished image are those of the stream, but that of the gradients only those in use are registered.
-/

set_option autoImplicit false
set_option relaxedAutoImplicit false

namespace VectorImage

/-- The tables and the document once a call has given them. -/
def Call.heading (h : Tables × Document) : Call → Tables × Document
  | .init t => (t, h.2)
  | .document d => (h.1, d)
  | _ => h

/-- The gradients that the paints of a stream refer to. -/
def referenced (calls : List Call) : List Gradient :=
  ((calls.filterMap Call.paint?).flatMap Paint.gradientIds).filterMap fun id =>
    (registered calls)[id.toNat]?

/-- The distinct gradients, told apart by their keys, that the paints of a stream refer to, in the
order in which they are registered first. -/
def gradientsInUse (calls : List Call) : List Gradient :=
  ((registered calls).eraseDupsBy fun a b => Keyed.key a == Keyed.key b).filter fun a =>
    (referenced calls).contains a

/-- Indices of gradients that stand for one definition in two lists; every other index stands for
itself. -/
def Renaming.registering (first second : List Gradient) : Renaming :=
  { Renaming.identity with
    gradients := fun i j => ∃ a, first[i.toNat]? = some a ∧ second[j.toNat]? = some a }

namespace Call

variable {f : GradientId → Except Error GradientId} {call call' : Call}

/-- What does not depend on paints is the same of a call whose gradients are renamed. -/
theorem same_of_mapGradients {α : Type} {k : Call → α} (h : call.mapGradients f = .ok call')
    (hshape : ∀ s p, k (.shape { s with paint := p }) = k (.shape s))
    (htext : ∀ t p, k (.text { t with paint := p }) = k (.text t)) : k call' = k call := by
  cases call with
  | shape s =>
    obtain ⟨p, -, rfl⟩ := map_eq_ok.mp h
    exact hshape s p
  | text t =>
    obtain ⟨p, -, rfl⟩ := map_eq_ok.mp h
    exact htext t p
  | _ => rw [← Except.ok.inj h]

end Call

/-- The calls that an open scope stands for: the one that opened it and what is in it so far. -/
def GraphFrame.said (f : GraphFrame) : List Call :=
  match f.scope with
  | .group attrs => .beginGroup attrs :: Node.callsAll f.children.toList
  | .mask => .beginMask :: Node.callsAll f.children.toList
  | .maskContent mask =>
    .beginMask :: (Node.callsAll mask ++ .maskContent :: Node.callsAll f.children.toList)

namespace GraphBuilder

/-- The calls that the nodes and the open scopes of a builder stand for. -/
def said (b : GraphBuilder) : List Call :=
  Node.callsAll b.root.toList ++ b.frames.reverse.flatMap GraphFrame.said

variable {b b' : GraphBuilder}

@[simp]
theorem said_attach (b : GraphBuilder) (node : Node) :
    (b.attach node).said = b.said ++ Node.calls node := by
  unfold attach
  split
  · next hframes => simp [said, hframes]
  · next f rest hframes =>
    have hf : GraphFrame.said { f with children := f.children.push node } =
        f.said ++ Node.calls node := by
      obtain ⟨scope, children⟩ := f
      cases scope <;> simp [GraphFrame.said]
    simp [said, hframes, hf]

/-- The innermost scope stands for what was said last. -/
theorem said_of_frames {f : GraphFrame} {rest : List GraphFrame} (hframes : b.frames = f :: rest) :
    b.said = ({ b with frames := rest } : GraphBuilder).said ++ f.said := by
  simp [said, hframes]

@[simp]
theorem said_remember (b : GraphBuilder) (exportId : Option StringId) (node : Node) :
    (b.remember exportId node).said = b.said := by
  cases exportId <;> rfl

/-- After a call that describes a part of the tree the builder stands for that call besides. -/
theorem Builds.said_eq {call : Call} {reply : Reply} (h : b.Builds call b' reply) :
    b'.said = b.said ++ [call].filter Call.isPart := by
  have hkeep (s : Sharing) : ({ b with sharing := s } : GraphBuilder).said = b.said := rfl
  cases h with
  | init t s => exact (List.append_nil _).symm
  | document d => exact (List.append_nil _).symm
  | gradient hintern => exact (List.append_nil _).symm
  | beginGroup attrs =>
    rw [said_of_frames rfl]
    simp [GraphFrame.said]
    rfl
  | endGroup hframes s i htransform hnode =>
    rw [said_remember, said_attach, said_of_frames hframes, hnode, Node.calls, htransform]
    simp [GraphFrame.said]
    rfl
  | clip s i hpath htransform =>
    rw [said_attach, Node.calls, hpath, htransform, hkeep]
    rfl
  | beginMask =>
    rw [said_of_frames rfl]
    simp [GraphFrame.said]
    rfl
  | maskContent hframes =>
    rw [said_of_frames rfl, said_of_frames hframes]
    simp [GraphFrame.said]
    rfl
  | endMask hframes s i =>
    rw [said_attach, said_of_frames hframes, Node.calls]
    simp [GraphFrame.said]
    rfl
  | shape s i hgeometry hpaint htransform =>
    rw [said_attach, Node.calls, hgeometry, hpaint, htransform, hkeep]
    rfl
  | image leaf s i =>
    rw [said_attach, Node.calls, hkeep]
    rfl
  | text leaf s i =>
    rw [said_attach, Node.calls, hkeep]
    rfl
  | use htarget s i htransform =>
    rw [said_attach, Node.calls, htransform, hkeep]
    rfl

/-- A builder takes the tables and the document from the calls that give them. -/
theorem Builds.heading_eq {call : Call} {reply : Reply} (h : b.Builds call b' reply) :
    (b'.tables, b'.document) = call.heading (b.tables, b.document) := by
  have hattach (c : GraphBuilder) (node : Node) : (c.attach node).document = c.document := by
    unfold attach
    split <;> rfl
  have hremember (c : GraphBuilder) (exportId : Option StringId) (node : Node) :
      (c.remember exportId node).tables = c.tables ∧
        (c.remember exportId node).document = c.document := by
    cases exportId <;> exact ⟨rfl, rfl⟩
  cases h with
  | endGroup hframes s i htransform hnode =>
    rw [(hremember _ _ _).1, (hremember _ _ _).2, tables_attach, hattach]
    rfl
  | init => rfl
  | document => rfl
  | gradient => rfl
  | beginGroup => rfl
  | beginMask => rfl
  | maskContent => rfl
  | _ =>
    rw [tables_attach, hattach]
    rfl

/-- A gradient is interned and answered by its index; no other call registers or answers any. -/
theorem Builds.registers {call : Call} {reply : Reply} (h : b.Builds call b' reply) :
    (∃ g id, call.gradient? = some g ∧ b.gradients.intern g = .ok (b'.gradients, id) ∧
        reply = .gradient id) ∨
      (call.gradient? = none ∧ b'.gradients = b.gradients ∧ reply = .done) := by
  cases h with
  | gradient hintern => exact Or.inl ⟨_, _, rfl, hintern, rfl⟩
  | @endGroup attrs children rest hframes s node i transform htransform hnode =>
    refine Or.inr ⟨rfl, ?_, rfl⟩
    have hremember (c : GraphBuilder) : (c.remember attrs.exportId node).gradients = c.gradients := by
      unfold remember
      cases attrs.exportId <;> rfl
    rw [hremember, gradients_attach]
  | init => exact Or.inr ⟨rfl, rfl, rfl⟩
  | document => exact Or.inr ⟨rfl, rfl, rfl⟩
  | beginGroup => exact Or.inr ⟨rfl, rfl, rfl⟩
  | beginMask => exact Or.inr ⟨rfl, rfl, rfl⟩
  | maskContent => exact Or.inr ⟨rfl, rfl, rfl⟩
  | _ => exact Or.inr ⟨rfl, gradients_attach _ _, rfl⟩

/-- A builder after the calls `before` of a replay. -/
structure Recites (stamps : List Nat) (before : List Call) (p : Position GraphBuilder) : Prop where
  coherent : ∃ items, p.session.state.Coherent stamps items
  said : List.Forall₂ (Call.Renames (.gradientsBy (lookup p.ids .gradient)))
    (before.filter Call.isPart) p.session.state.said
  holds : p.session.state.gradients.Holds (registered before)
  ids : List.Forall₂ (fun g id => p.session.state.gradients.entries[id.toNat]? = some g)
    (registered before) p.ids.toList
  heading : (p.session.state.tables, p.session.state.document) =
    before.foldl Call.heading (.empty, .empty)

private theorem lookup_known {ids : Array GradientId} (reply : Reply) {i j : GradientId}
    (h : lookup ids .gradient i = .ok j) : lookup (reply.known ids) .gradient i = .ok j := by
  cases reply with
  | done => exact h
  | gradient id => exact (Extends.push ids id).lookup_eq_ok h

theorem Recites.step {stamps : List Nat} {before : List Call} {p q : Position GraphBuilder}
    {call : Call} (h : Recites stamps before p) (hstep : backend.Advances p call q) :
    Recites stamps (before ++ [call]) q := by
  cases hstep with
  | @step renamed nesting state reply hmap haccept hperform =>
    obtain ⟨items, hcoherent⟩ := h.coherent
    obtain ⟨hbuilds, hcoherent'⟩ := perform_spec hcoherent hperform
    have hpart : renamed.isPart = call.isPart :=
      Call.same_of_mapGradients hmap (fun _ _ => rfl) (fun _ _ => rfl)
    have hgradient : renamed.gradient? = call.gradient? :=
      Call.same_of_mapGradients hmap (fun _ _ => rfl) (fun _ _ => rfl)
    have hheading (d : Tables × Document) : renamed.heading d = call.heading d :=
      Call.same_of_mapGradients hmap (fun _ _ => rfl) (fun _ _ => rfl)
    have hwithin : (Renaming.gradientsBy (lookup p.ids .gradient)).Within
        (.gradientsBy (lookup (reply.known p.ids) .gradient)) :=
      ⟨fun _ _ he => he, fun _ _ he => he, fun _ _ he => he, fun _ _ => lookup_known reply⟩
    have hsaid : List.Forall₂ (Call.Renames (.gradientsBy (lookup (reply.known p.ids) .gradient)))
        ((before ++ [call]).filter Call.isPart) state.said := by
      rw [List.filter_append, hbuilds.said_eq]
      refine List.rel_append (h.said.imp fun _ _ => hwithin.call) ?_
      cases hcall : call.isPart with
      | false => simp [hpart, hcall]
      | true =>
        rw [List.filter_cons_of_pos hcall, List.filter_cons_of_pos (hpart.trans hcall)]
        exact .cons (hwithin.call (Call.mapGradients_renames (Call.ofTree_of_isPart hcall) hmap)) .nil
    have hlast : registered (before ++ [call]) = registered before ++ call.gradient?.toList := by
      rw [registered, List.filterMap_append]
      cases hcall : call.gradient? <;> simp [registered, hcall]
    have hdeclares : (state.tables, state.document) =
        (before ++ [call]).foldl Call.heading (.empty, .empty) := by
      rw [hbuilds.heading_eq, hheading, h.heading, List.foldl_append]
      rfl
    rcases hbuilds.registers with ⟨g, id, hg, hintern, rfl⟩ | ⟨hnone, hsame, rfl⟩
    · rw [hgradient] at hg
      have hregistered : registered (before ++ [call]) = registered before ++ [g] := by
        rw [hlast, hg]
        rfl
      obtain ⟨hextends, hentry, -, -⟩ := CanonicalTable.intern_ok h.holds.size_le hintern
      refine ⟨hcoherent', hsaid, ?_, ?_, hdeclares⟩
      · rw [hregistered]
        exact h.holds.intern hintern
      · show List.Forall₂ _ _ (p.ids.push id).toList
        rw [hregistered, Array.toList_push]
        exact List.rel_append (h.ids.imp fun _ _ he => hextends he) (.cons hentry .nil)
    · rw [hgradient] at hnone
      have hregistered : registered (before ++ [call]) = registered before := by
        rw [hlast, hnone]
        exact List.append_nil _
      refine ⟨hcoherent', hsaid, ?_, ?_, hdeclares⟩
      · show state.gradients.Holds _
        rw [hsame, hregistered]
        exact h.holds
      · show List.Forall₂ (fun g id => state.gradients.entries[id.toNat]? = some g) _ p.ids.toList
        rw [hsame, hregistered]
        exact h.ids

end GraphBuilder

/-- A sublist of distinct elements is what a filter leaves that keeps its elements only. -/
private theorem eq_filter_of_sublist {α : Type} {l r : List α} (h : l.Sublist r) (hr : r.Nodup)
    {p : α → Bool} (hp : ∀ a ∈ r, a ∈ l ↔ p a = true) : l = r.filter p := by
  have hall : l.filter p = l := List.filter_eq_self.mpr fun a ha => (hp a (h.subset ha)).mp ha
  have hsub : l.Sublist (r.filter p) := hall ▸ h.filter p
  refine hsub.eq_of_length_le (List.Nodup.subperm (hr.filter p) ?_).length_le
  intro a ha
  obtain ⟨hmem, hkept⟩ := List.mem_filter.mp ha
  exact (hp a hmem).mpr hkept

/-- What stands at ascending indices of an array is a sublist of it. -/
private theorem sublist_of_lookups {α : Type} {xs : Array α} {kind : TableKind} {is : List UInt32}
    {vs : List α} (his : is.Pairwise fun i j => i.toNat < j.toNat)
    (h : List.Forall₂ (fun i v => lookup xs kind i = .ok v) is vs) : vs.Sublist xs.toList := by
  have hlt : ∀ i ∈ is, i.toNat < xs.toList.length := by
    intro i hi
    obtain ⟨v, -, hv⟩ := exists_related h hi
    exact (Array.getElem?_eq_some_iff.mp (lookup_eq_ok_iff.mp hv)).1
  have hvs : vs = (is.pmap (fun i hi => ⟨i.toNat, hi⟩) hlt : List (Fin xs.toList.length)).map
      fun k => xs.toList[k] := by
    clear his
    induction h with
    | nil => rfl
    | cons hv _ ih =>
      obtain ⟨hi, hentry⟩ := Array.getElem?_eq_some_iff.mp (lookup_eq_ok_iff.mp hv)
      rw [List.pmap_cons, List.map_cons, ← ih]
      congr 1
      exact hentry.symm
  rw [hvs]
  refine List.map_getElem_sublist ?_
  exact List.Pairwise.pmap his _ fun _ _ _ _ hij => hij

namespace GraphImage

variable {g : GraphImage}

/-- The gradients in use are in ascending order. -/
private theorem liveGradients_ascending (g : GraphImage) :
    g.liveGradients.Pairwise fun i j => i.toNat < j.toNat := by
  have hsorted : g.liveGradients.Pairwise fun i j => decide (i.toNat ≤ j.toNat) = true :=
    List.pairwise_mergeSort (fun i j k hij hjk => by simp at hij hjk ⊢; omega)
      (fun i j => by simp; omega) _
  have hdistinct : g.liveGradients.Nodup :=
    (List.mergeSort_perm _ _).nodup_iff.mpr (nodup_eraseDups _)
  refine (hsorted.and hdistinct).imp fun hij => ?_
  obtain ⟨hle, hne⟩ := hij
  exact Nat.lt_of_le_of_ne (of_decide_eq_true hle) fun he => hne (UInt32.toNat_inj.mp he)

/-- Some leaf is painted with the gradient. -/
def paintsWith (g : GraphImage) (a : Gradient) : Bool :=
  g.visited.any fun n => n.paint?.any fun p => p.gradientIds.any fun id =>
    g.gradients[id.toNat]? == some a

theorem paintsWith_eq_true {a : Gradient} :
    g.paintsWith a = true ↔ ∃ id ∈ g.liveGradients, g.gradients[id.toNat]? = some a := by
  simp only [paintsWith, List.any_eq_true, Option.any_eq_true, beq_iff_eq, mem_liveGradients,
    ← paints_visited, List.mem_filterMap]
  constructor
  · rintro ⟨n, hn, p, hp, id, hid, hentry⟩
    exact ⟨id, ⟨p, ⟨n, hn, hp⟩, hid⟩, hentry⟩
  · rintro ⟨id, ⟨p, ⟨n, hn, hp⟩, hid⟩, hentry⟩
    exact ⟨n, hn, p, hp, id, hid, hentry⟩

/-- Images that are alike are painted with the same gradients. -/
theorem Alike.paintsWith {g' : GraphImage} (h : g.Alike g') : g.paintsWith = g'.paintsWith := by
  funext a
  have hplain (g : GraphImage) : g.paintsWith a = (g.visited.map Node.plain).any fun n =>
      n.paint?.any fun p => p.gradientIds.any fun id => g.gradients[id.toNat]? == some a := by
    rw [List.any_map]
    simp only [Function.comp_def, Node.paint?_plain]
    rfl
  rw [hplain, hplain, h.visited, h.gradients]

/-- Of distinct gradients those in use are the ones that some leaf is painted with, in order. -/
theorem eq_filter_of_live (hdistinct : g.gradients.toList.Nodup) {gradients : List Gradient}
    (hgradients : List.Forall₂ (fun id a => lookup g.gradients .gradient id = .ok a)
      g.liveGradients gradients) : gradients = g.gradients.toList.filter g.paintsWith := by
  refine eq_filter_of_sublist (sublist_of_lookups g.liveGradients_ascending hgradients) hdistinct
    fun a _ => ?_
  rw [paintsWith_eq_true]
  constructor
  · intro hmem
    obtain ⟨id, hid, hentry⟩ := exists_related hgradients.flip hmem
    exact ⟨id, hid, lookup_eq_ok_iff.mp hentry⟩
  · rintro ⟨id, hid, hentry⟩
    obtain ⟨b, hb, hlookup⟩ := exists_related hgradients hid
    cases hentry.symm.trans (lookup_eq_ok_iff.mp hlookup)
    exact hb

private theorem registered_eraseDups (calls : List Call) :
    ((registered calls).eraseDupsBy fun a b => Keyed.key a == Keyed.key b) =
      (registered calls).eraseDups := by
  have hkey : (fun a b : Gradient => Keyed.key a == Keyed.key b) = fun a b => a == b := by
    funext a b
    rw [Bool.eq_iff_iff, beq_iff_eq, beq_iff_eq]
    exact ⟨LawfulKeyed.eq_of_key, fun he => he ▸ rfl⟩
  rw [hkey]
  rfl

/-- An image and the stream it was built from, `ids` being what the gradient calls answered. -/
structure Recites (calls : List Call) (ids : Array GradientId) (g : GraphImage) : Prop where
  said : List.Forall₂ (Call.Renames (.gradientsBy (lookup ids .gradient)))
    (calls.filter Call.isPart) (Node.callsAll g.root.children)
  gradients : g.gradients.toList = (registered calls).eraseDups
  ids : List.Forall₂ (fun a id => g.gradients[id.toNat]? = some a) (registered calls) ids.toList
  heading : (g.tables, g.document) = calls.foldl Call.heading (.empty, .empty)

/-- An image and the stream it was built from, from whatever cache. -/
theorem recites_of_ofCalls {stamps : List Nat} {seed : NodeCache} (hseed : seed.Grown stamps)
    {stamp : Nat} (hstamp : stamp ∉ stamps) {shareNodes : Bool} {calls : List Call}
    (h : GraphImage.ofCalls stamp shareNodes seed calls = .ok g) : ∃ ids, g.Recites calls ids := by
  obtain ⟨items, hfounded⟩ := hseed.founded
  obtain ⟨p, hruns, -, hcomplete⟩ := Backend.replay_eq_ok.mp h
  have hstart : GraphBuilder.Recites (stamp :: stamps) []
      (.start (.start stamp shareNodes seed)) :=
    ⟨⟨items, GraphBuilder.coherent_start hfounded hstamp shareNodes⟩, .nil,
      CanonicalTable.holds_nil, .nil, rfl⟩
  have hrecites := hruns.accumulates (R := GraphBuilder.Recites (stamp :: stamps))
    (fun hp hstep => hp.step hstep) hstart
  rw [List.nil_append] at hrecites
  obtain ⟨hframes, rfl⟩ := GraphBuilder.complete_eq_ok.mp hcomplete
  have hsaid : p.session.state.said = Node.callsAll p.session.state.root.toList := by
    simp [GraphBuilder.said, hframes]
  exact ⟨p.ids, hsaid ▸ hrecites.said, hrecites.holds.entries, hrecites.ids, hrecites.heading⟩

variable {calls : List Call} {ids : Array GradientId}

/-- A renamed index stands for the gradient that its call registered. -/
private theorem Recites.lookup (h : g.Recites calls ids) {i j : GradientId}
    (hij : VectorImage.lookup ids .gradient i = .ok j) :
    ∃ a, (registered calls)[i.toNat]? = some a ∧ g.gradients[j.toNat]? = some a := by
  have hentry := lookup_eq_ok_iff.mp hij
  rw [← Array.getElem?_toList] at hentry
  exact related_getElem? h.ids hentry

/-- The gradients in use are those that the paints of the stream refer to. -/
private theorem Recites.mem_referenced (h : g.Recites calls ids) {a : Gradient} :
    a ∈ referenced calls ↔ ∃ id ∈ g.liveGradients, g.gradients[id.toNat]? = some a := by
  simp only [mem_liveGradients, referenced, List.mem_filterMap, List.mem_flatMap]
  constructor
  · rintro ⟨i, ⟨p, ⟨call, hcall, hp⟩, hi⟩, ha⟩
    have hpart : call.isPart = true := by
      cases call <;> first | rfl | cases hp
    obtain ⟨call', hcall', hrenames⟩ := exists_related h.said (List.mem_filter.mpr ⟨hcall, hpart⟩)
    have hpaint := hrenames.paint
    rw [hp] at hpaint
    generalize hq : call'.paint? = o at hpaint
    cases hpaint with
    | @some _ q hpq =>
      obtain ⟨j, hj, hij⟩ := hpq.gradientIds_left hi
      obtain ⟨b, hb, hentry⟩ := h.lookup hij
      cases ha.symm.trans hb
      exact ⟨j, ⟨q, ⟨call', hcall', hq⟩, hj⟩, hentry⟩
  · rintro ⟨j, ⟨q, ⟨call', hcall', hq⟩, hj⟩, hentry⟩
    obtain ⟨call, hcall, hrenames⟩ := exists_related h.said.flip hcall'
    have hpaint := hrenames.paint
    rw [hq] at hpaint
    generalize hp : call.paint? = o at hpaint
    cases hpaint with
    | @some p _ hpq =>
      obtain ⟨i, hi, hij⟩ := hpq.gradientIds_right hj
      obtain ⟨b, hb, hentry'⟩ := h.lookup hij
      cases hentry.symm.trans hentry'
      exact ⟨i, ⟨p, ⟨call, List.mem_of_mem_filter hcall, hp⟩, hi⟩, hb⟩

/-- The calls of an image register the gradients in use of the stream it was built from. -/
private theorem Recites.gradients_eq (h : g.Recites calls ids) {gradients : List Gradient}
    (hgradients : List.Forall₂ (fun id a => VectorImage.lookup g.gradients .gradient id = .ok a)
      g.liveGradients gradients) : gradients = gradientsInUse calls := by
  have hdistinct : g.gradients.toList.Nodup := h.gradients ▸ nodup_eraseDups _
  rw [eq_filter_of_live hdistinct hgradients, gradientsInUse, registered_eraseDups, ← h.gradients]
  refine List.filter_congr fun a _ => ?_
  rw [Bool.eq_iff_iff, paintsWith_eq_true, List.contains_iff_mem, h.mem_referenced]

/-- The calls of an image are those of the stream it was built from, under new indices. -/
private theorem Recites.calls_renames (h : g.Recites calls ids) {gradients : List Gradient}
    (hgradients : List.Forall₂ (fun id a => VectorImage.lookup g.gradients .gradient id = .ok a)
      g.liveGradients gradients) {tree : List Call}
    (htree : (Node.callsAll g.root.children).mapM (Call.mapGradients (renumber g.liveGradients)) =
      .ok tree) :
    List.Forall₂ (Call.Renames (.registering (registered calls) gradients))
      (calls.filter Call.isPart) tree := by
  have hwithin : ((Renaming.gradientsBy (VectorImage.lookup ids .gradient)).comp
      (.gradientsBy (renumber g.liveGradients))).Within
        (.registering (registered calls) gradients) := by
    refine ⟨?_, ?_, ?_, ?_⟩
    · rintro i k ⟨j, rfl, rfl⟩
      rfl
    · rintro i k ⟨j, rfl, rfl⟩
      rfl
    · rintro i k ⟨j, rfl, rfl⟩
      rfl
    · rintro i k ⟨j, hij, hjk⟩
      obtain ⟨a, ha, hentry⟩ := h.lookup hij
      obtain ⟨b, hb, hlookup⟩ := related_getElem? hgradients.flip
        (renumber_entry g.length_liveGradients_le hjk)
      cases hentry.symm.trans (lookup_eq_ok_iff.mp hlookup)
      exact ⟨a, ha, hb⟩
  refine forall₂_comp (fun _ _ _ hab hbc => ?_) h.said (forall₂_of_mapM htree)
  exact hwithin.call (hab.comp (Call.mapGradients_renames hab.ofTree.2 hbc))

/-- A recorder takes the calls of a regular image as they are. -/
theorem Regular.records (hg : g.Regular) {log : List Call} (hlog : g.calls = .ok log) :
    Recorder.record log = .ok log := by
  obtain ⟨gradients, tree, hcalls, hlength, -, htree⟩ := hg.toInRange.calls
  cases hcalls.symm.trans hlog
  obtain ⟨log', recorded, hlog', hrecord⟩ := hg.toInRange.records_iff.mpr hg.grounded.resolved
  cases hlog.symm.trans hlog'
  have hnone : tree.countP Call.isGradient = 0 := by
    rw [List.countP_eq_zero]
    intro call hcall
    obtain ⟨source, hsource, hmap⟩ := mem_of_mapM htree hcall
    rw [Call.isGradient_mapGradients hmap, Call.isGradient_of_isPart (Node.isPart_callsAll hsource)]
    exact Bool.false_ne_true
  have hroom : (Call.init g.tables :: .document g.document ::
      (gradients.map .gradient ++ tree)).countP Call.isGradient ≤ 2 ^ 32 := by
    rw [List.countP_cons_of_neg Bool.false_ne_true, List.countP_cons_of_neg Bool.false_ne_true,
      List.countP_append, hnone, Nat.add_zero]
    refine Nat.le_trans List.countP_le_length ?_
    rw [List.length_map, hlength]
    exact g.length_liveGradients_le
  rw [hrecord, Recorder.record_eq hroom hrecord]

/-- The calls of a tree leave the tables and the document as they are. -/
private theorem heading_of_tree {tree : List Call} (htree : ∀ call ∈ tree, call.OfTree)
    (h : Tables × Document) : tree.foldl Call.heading h = h := by
  induction tree with
  | nil => rfl
  | cons call rest ih =>
    obtain ⟨hof, hrest⟩ := List.forall_mem_cons.mp htree
    have hcall : call.heading h = h := by
      cases call with
      | init t => cases hof
      | document d => cases hof
      | _ => rfl
    rw [List.foldl_cons, hcall, ih hrest]

private theorem isPart_of_tree {call : Call} (htree : call.OfTree) :
    call.isPart = !call.isGradient := by
  cases call with
  | init t => cases htree
  | document d => cases htree
  | _ => rfl

/-- A stream, taken apart into its head and its tree. -/
theorem parts_of_stream (tables : Tables) (declared : Option Document) {tree : List Call}
    (htree : ∀ call ∈ tree, call.OfTree) {calls : List Call}
    (hcalls : calls = .init tables :: (declared.toList.map Call.document ++ tree)) :
    registered calls = registered tree ∧ gradientsInUse calls = gradientsInUse tree ∧
      calls.filter Call.isPart = tree.filter (fun call => !call.isGradient) ∧
      calls.foldl Call.heading (.empty, .empty) = (tables, declared.getD .empty) := by
  have hregistered : registered calls = registered tree := by
    rw [hcalls]
    cases declared <;> rfl
  have hpaints : calls.filterMap Call.paint? = tree.filterMap Call.paint? := by
    rw [hcalls]
    cases declared <;> rfl
  have hparts : calls.filter Call.isPart = tree.filter Call.isPart := by
    rw [hcalls]
    cases declared <;> rfl
  refine ⟨hregistered, ?_, ?_, ?_⟩
  · rw [gradientsInUse, referenced, hpaints, hregistered]
    rfl
  · rw [hparts]
    exact List.filter_congr fun call hcall => isPart_of_tree (htree call hcall)
  · rw [hcalls, List.foldl_cons, List.foldl_append, heading_of_tree htree]
    cases declared <;> rfl

/-- An image issues the stream it was built from again, from whatever cache and with nodes shared
or not: its tables, its document, the gradients in use, and all other calls in order, the same but
that the gradients have other indices. A recorder takes what it issues. -/
theorem reissues {stamps : List Nat} {seed : NodeCache} (hseed : seed.Grown stamps) {stamp : Nat}
    (hstamp : stamp ∉ stamps) {shareNodes : Bool} {calls : List Call}
    (h : GraphImage.ofCalls stamp shareNodes seed calls = .ok g) :
    ∃ (tables : Tables) (declared : Option Document) (tree log said : List Call),
      calls = .init tables :: (declared.toList.map Call.document ++ tree) ∧
      (∀ call ∈ tree, call.OfTree) ∧ g.calls = .ok log ∧ Recorder.record log = .ok log ∧
      log = .init tables :: .document (declared.getD .empty) ::
        ((gradientsInUse tree).map .gradient ++ said) ∧
      List.Forall₂ (Call.Renames (.registering (registered tree) (gradientsInUse tree)))
        (tree.filter fun call => !call.isGradient) said := by
  have hregular := regular_of_ofCalls hseed hstamp h
  obtain ⟨ids, hrecites⟩ := recites_of_ofCalls hseed hstamp h
  obtain ⟨p, hruns, hclosed, -⟩ := Backend.replay_eq_ok.mp h
  obtain ⟨tables, declared, tree, hcalls, htree⟩ :=
    hruns.of_start (Nesting.checkClosed_eq_ok.mp hclosed).1
  obtain ⟨hregistered, hinUse, hparts, hheading⟩ := parts_of_stream tables declared htree hcalls
  obtain ⟨_, _, hlog, -⟩ := hregular.toInRange.calls
  have hrecord := hregular.records hlog
  obtain ⟨gradients, hgradients, hrest⟩ := bind_eq_ok.mp hlog
  obtain ⟨said, hsaid, hrest⟩ := bind_eq_ok.mp hrest
  have hlive := forall₂_of_mapM hgradients
  have hgradients := hrecites.gradients_eq hlive
  have hrenames := hrecites.calls_renames hlive hsaid
  have hhead := hrecites.heading.trans hheading
  rw [hgradients, hinUse, hregistered, hparts] at hrenames
  refine ⟨tables, declared, tree, _, said, hcalls, htree, hlog, hrecord, ?_, hrenames⟩
  rw [← Except.ok.inj hrest, hgradients, hinUse, (Prod.mk.inj hhead).1, (Prod.mk.inj hhead).2]

end GraphImage

namespace Swatches

private def fade (spread : SpreadMethod) : Gradient :=
  ⟨.linear ⟨.zero, .zero⟩ ⟨.one, .zero⟩, 0, [⟨0, 0, 0, 255⟩, ⟨255, 255, 255, 255⟩], spread, none⟩

/-- A gradient that is not used, one that is registered twice, and in a group a square that is
filled with the second of the twins. -/
private def tree : List Call :=
  [.gradient (fade .reflect), .gradient (fade .pad), .gradient (fade .pad),
    .beginGroup ⟨none, 255, none⟩,
    .shape ⟨.rect ⟨⟨.zero, .zero, .one, .one⟩, .zero, .zero⟩, ⟨some ⟨.gradient 2, .nonZero⟩, none⟩,
      none⟩,
    .endGroup]

private def calls : List Call := .init ⟨[], [], [[.zero, .one]]⟩ :: tree

private theorem ofCalls_calls : ∃ g, GraphImage.ofCalls 0 true .empty calls = .ok g := by
  have htaken : (Sketch.backend.replay .empty calls).toBool = true := by decide +kernel
  obtain ⟨s, hsketch⟩ := toBool_eq_true.mp htaken
  obtain ⟨g, hg, -⟩ := GraphImage.ofCalls_of_sketch hsketch .empty List.not_mem_nil true
  exact ⟨g, hg⟩

end Swatches

namespace GraphImage

/-- Of the three gradients one is registered again. -/
theorem reissues_swatches : ∃ g said, ofCalls 0 true .empty Swatches.calls = .ok g ∧
    g.calls = .ok (.init ⟨[], [], [[.zero, .one]]⟩ :: .document .empty ::
      .gradient (Swatches.fade .pad) :: said) ∧
    List.Forall₂ (Call.Renames (.registering (registered Swatches.tree) [Swatches.fade .pad]))
      (Swatches.tree.filter fun call => !call.isGradient) said := by
  obtain ⟨g, hg⟩ := Swatches.ofCalls_calls
  obtain ⟨tables, declared, tree, log, said, hcalls, -, hlog, -, rfl, hsaid⟩ :=
    reissues .empty (List.not_mem_nil : 0 ∉ []) hg
  cases declared with
  | some d => cases hcalls
  | none =>
    obtain ⟨hinit, htree⟩ := List.cons.inj hcalls
    cases hinit
    obtain rfl : tree = Swatches.tree := htree.symm
    have hinUse : gradientsInUse Swatches.tree = [Swatches.fade .pad] := by
      rw [gradientsInUse, registered_eraseDups]
      decide
    rw [hinUse] at hlog hsaid
    exact ⟨g, said, hg, hlog, hsaid⟩

end GraphImage

end VectorImage
