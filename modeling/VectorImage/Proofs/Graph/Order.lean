import VectorImage.Graph.Image

/-!
The order in which the nodes of a tree end: a group ends after what is in it, a masked node after
its mask and its content. Groups are told apart by their names here, and a list of nodes is
grounded when every use in it comes after the group it refers to.
-/

set_option autoImplicit false
set_option relaxedAutoImplicit false

namespace VectorImage

/-! The nodes in the order in which they end; use targets are not entered. -/

mutual
def Node.finished : Node → List Node
  | .group inst transform alpha exportId children =>
    Node.finishedAll children ++ [.group inst transform alpha exportId children]
  | .masked inst mask content =>
    Node.finishedAll mask ++ Node.finishedAll content ++ [.masked inst mask content]
  | .clip inst path rule transform => [.clip inst path rule transform]
  | .shape inst geometry paint transform => [.shape inst geometry paint transform]
  | .image inst leaf => [.image inst leaf]
  | .text inst leaf => [.text inst leaf]
  | .use inst targetId target transform => [.use inst targetId target transform]

def Node.finishedAll : List Node → List Node
  | [] => []
  | n :: rest => Node.finished n ++ Node.finishedAll rest
end

namespace Node

@[simp]
theorem finishedAll_nil : finishedAll [] = [] := by rw [finishedAll]

@[simp]
theorem finishedAll_cons (n : Node) (rest : List Node) :
    finishedAll (n :: rest) = finished n ++ finishedAll rest := by rw [finishedAll]

@[simp]
theorem finishedAll_append (first rest : List Node) :
    finishedAll (first ++ rest) = finishedAll first ++ finishedAll rest := by
  induction first with
  | nil => simp
  | cons n first ih => simp [ih]

@[simp]
theorem callsAll_nil : callsAll [] = [] := by rw [callsAll]

@[simp]
theorem callsAll_cons (n : Node) (rest : List Node) :
    callsAll (n :: rest) = calls n ++ callsAll rest := by rw [callsAll]

@[simp]
theorem callsAll_append (first rest : List Node) :
    callsAll (first ++ rest) = callsAll first ++ callsAll rest := by
  induction first with
  | nil => simp
  | cons n first ih => simp [ih]

/-- A node ends itself, after its parts. -/
theorem mem_finished_self (n : Node) : n ∈ finished n := by
  cases n <;> simp [finished]

/-- A masked node's mask ends before it does. -/
theorem finishedAll_mask_subset (inst : Instance) (mask content : List Node) :
    finishedAll mask ⊆ finished (.masked inst mask content) := by
  intro m hm
  rw [finished, List.append_assoc]
  exact List.mem_append_left _ hm

/-- The name of an exported group. -/
def exportId? : Node → Option StringId
  | .group _ _ _ exportId _ => exportId
  | _ => none

/-- The groups that have ended under the name of a use are the group that the use refers to. -/
def TargetsNamed (ended : List Node) : Prop :=
  ∀ inst id target transform, .use inst id target transform ∈ ended →
    ∀ m ∈ ended, m.exportId? = some id → m = target

/-- The names of the exported groups in a list of nodes, in order. -/
def names (nodes : List Node) : List StringId := nodes.filterMap exportId?

@[simp]
theorem names_nil : names [] = [] := rfl

@[simp]
theorem names_append (first rest : List Node) : names (first ++ rest) = names first ++ names rest :=
  List.filterMap_append

theorem names_cons (n : Node) (rest : List Node) :
    names (n :: rest) = n.exportId?.toList ++ names rest := by
  unfold names
  rw [List.filterMap_cons]
  cases n.exportId? <;> rfl

@[simp]
theorem names_singleton (n : Node) : names [n] = n.exportId?.toList := by
  rw [names_cons, names_nil, List.append_nil]

theorem names_finished_group (inst : Instance) (transform : Option (Shared Affine)) (alpha : UInt8)
    (exportId : Option StringId) (children : List Node) :
    names (finished (.group inst transform alpha exportId children)) =
      names (finishedAll children) ++ exportId.toList := by
  rw [finished, names_append, names_singleton, exportId?]

theorem names_finished_masked (inst : Instance) (mask content : List Node) :
    names (finished (.masked inst mask content)) =
      names (finishedAll mask) ++ names (finishedAll content) := by
  rw [finished, names_append, names_append]
  exact List.append_nil _

theorem mem_names {nodes : List Node} {id : StringId} :
    id ∈ names nodes ↔ ∃ n ∈ nodes, n.exportId? = some id := List.mem_filterMap

theorem names_subset {first rest : List Node} (h : first ⊆ rest) : names first ⊆ names rest := by
  intro id hid
  obtain ⟨n, hn, hname⟩ := mem_names.mp hid
  exact mem_names.mpr ⟨n, h hn, hname⟩

/-- Where no name is used twice, a name stands for one group. -/
theorem eq_of_name {nodes : List Node} (hdistinct : (names nodes).Nodup) {m n : Node}
    (hm : m ∈ nodes) (hn : n ∈ nodes) {id : StringId} (hmid : m.exportId? = some id)
    (hnid : n.exportId? = some id) : m = n := by
  induction nodes with
  | nil => cases hm
  | cons first rest ih =>
    rw [names_cons, List.nodup_append] at hdistinct
    obtain ⟨-, hrest, hapart⟩ := hdistinct
    have hself {k : Node} (hk : k ∈ rest) (hfirst : first.exportId? = some id)
        (hkid : k.exportId? = some id) : False := by
      refine hapart id ?_ id (mem_names.mpr ⟨k, hk, hkid⟩) rfl
      rw [hfirst]
      exact List.mem_singleton_self id
    rcases List.mem_cons.mp hm with hm | hm
    · rcases List.mem_cons.mp hn with hn | hn
      · rw [hm, hn]
      · exact (hself hn (hm ▸ hmid) hnid).elim
    · rcases List.mem_cons.mp hn with hn | hn
      · exact (hself hm (hn ▸ hnid) hmid).elim
      · exact ih hrest hm hn

end Node

/-! What has ended are the nodes from a node on. -/

mutual
theorem Node.mem_finished {m n : Node} : m ∈ Node.finished n ↔ m ∈ Node.visited n := by
  cases n with
  | group inst transform alpha exportId children =>
    rw [Node.finished, Node.visited, List.mem_append, List.mem_singleton, List.mem_cons,
      Node.mem_finishedAll]
    exact or_comm
  | masked inst mask content =>
    rw [Node.finished, Node.visited, List.mem_append, List.mem_singleton, List.mem_cons,
      List.mem_append, List.mem_append, Node.mem_finishedAll, Node.mem_finishedAll]
    exact or_comm
  | clip inst path rule transform => rw [Node.finished, Node.visited]
  | shape inst geometry paint transform => rw [Node.finished, Node.visited]
  | image inst leaf => rw [Node.finished, Node.visited]
  | text inst leaf => rw [Node.finished, Node.visited]
  | use inst targetId target transform => rw [Node.finished, Node.visited]

theorem Node.mem_finishedAll {m : Node} {nodes : List Node} :
    m ∈ Node.finishedAll nodes ↔ m ∈ Node.visitedAll nodes := by
  cases nodes with
  | nil => rw [Node.finishedAll, Node.visitedAll]
  | cons n rest =>
    rw [Node.finishedAll, Node.visitedAll, List.mem_append, List.mem_append, Node.mem_finished,
      Node.mem_finishedAll]
end

/-! What a node says is said by every node that it is in. -/

mutual
theorem Node.calls_subset {m n : Node} (h : m ∈ Node.visited n) : Node.calls m ⊆ Node.calls n := by
  cases n with
  | group inst transform alpha exportId children =>
    rw [Node.visited, List.mem_cons] at h
    rcases h with rfl | h
    · exact List.Subset.refl _
    · intro call hcall
      rw [Node.calls]
      exact List.mem_cons_of_mem _ (List.mem_append_left _ (Node.calls_subset_callsAll h hcall))
  | masked inst mask content =>
    rw [Node.visited, List.mem_cons, List.mem_append] at h
    rcases h with rfl | h | h
    · exact List.Subset.refl _
    · intro call hcall
      rw [Node.calls]
      exact List.mem_cons_of_mem _ (List.mem_append_left _ (Node.calls_subset_callsAll h hcall))
    · intro call hcall
      rw [Node.calls]
      exact List.mem_cons_of_mem _ (List.mem_append_right _ (List.mem_cons_of_mem _
        (List.mem_append_left _ (Node.calls_subset_callsAll h hcall))))
  | _ =>
    rw [Node.visited, List.mem_singleton] at h
    exact h ▸ List.Subset.refl _

theorem Node.calls_subset_callsAll {m : Node} {nodes : List Node} (h : m ∈ Node.visitedAll nodes) :
    Node.calls m ⊆ Node.callsAll nodes := by
  cases nodes with
  | nil =>
    rw [Node.visitedAll] at h
    cases h
  | cons n rest =>
    rw [Node.visitedAll, List.mem_append] at h
    rw [Node.callsAll]
    rcases h with h | h
    · exact List.subset_append_of_subset_left _ (Node.calls_subset h)
    · exact List.subset_append_of_subset_right _ (Node.calls_subset_callsAll h)
end

/-! What is in a node that has ended has ended. -/

mutual
theorem Node.finished_subset {m n : Node} (h : m ∈ Node.finished n) :
    Node.finished m ⊆ Node.finished n := by
  cases n with
  | group inst transform alpha exportId children =>
    rw [Node.finished, List.mem_append, List.mem_singleton] at h
    rcases h with h | rfl
    · intro k hk
      rw [Node.finished]
      exact List.mem_append_left _ (Node.finishedAll_subset h hk)
    · exact fun k hk => hk
  | masked inst mask content =>
    rw [Node.finished, List.mem_append, List.mem_append, List.mem_singleton] at h
    rcases h with (h | h) | rfl
    · intro k hk
      rw [Node.finished]
      exact List.mem_append_left _ (List.mem_append_left _ (Node.finishedAll_subset h hk))
    · intro k hk
      rw [Node.finished]
      exact List.mem_append_left _ (List.mem_append_right _ (Node.finishedAll_subset h hk))
    · exact fun k hk => hk
  | clip inst path rule transform =>
    rw [Node.finished, List.mem_singleton] at h
    exact h ▸ fun k hk => hk
  | shape inst geometry paint transform =>
    rw [Node.finished, List.mem_singleton] at h
    exact h ▸ fun k hk => hk
  | image inst leaf =>
    rw [Node.finished, List.mem_singleton] at h
    exact h ▸ fun k hk => hk
  | text inst leaf =>
    rw [Node.finished, List.mem_singleton] at h
    exact h ▸ fun k hk => hk
  | use inst targetId target transform =>
    rw [Node.finished, List.mem_singleton] at h
    exact h ▸ fun k hk => hk

theorem Node.finishedAll_subset {m : Node} {nodes : List Node} (h : m ∈ Node.finishedAll nodes) :
    Node.finished m ⊆ Node.finishedAll nodes := by
  cases nodes with
  | nil =>
    rw [Node.finishedAll] at h
    cases h
  | cons n rest =>
    rw [Node.finishedAll, List.mem_append] at h
    intro k hk
    rw [Node.finishedAll, List.mem_append]
    rcases h with h | h
    · exact Or.inl (Node.finished_subset h hk)
    · exact Or.inr (Node.finishedAll_subset h hk)
end

namespace Node

/-- Every use comes after the group it refers to, which has the name that the use gives. -/
def Grounded (nodes : List Node) : Prop :=
  ∀ before inst targetId target transform after,
    nodes = before ++ .use inst targetId target transform :: after →
      target ∈ before ∧ target.exportId? = some targetId

theorem grounded_nil : Grounded [] := by
  intro before inst targetId target transform after h
  cases before <;> cases h

/-- One more node ends. -/
theorem Grounded.snoc {nodes : List Node} (h : Grounded nodes) {n : Node}
    (hn : ∀ inst targetId target transform, n = .use inst targetId target transform →
      target ∈ nodes ∧ target.exportId? = some targetId) : Grounded (nodes ++ [n]) := by
  intro before inst targetId target transform after heq
  rcases List.eq_nil_or_concat after with rfl | ⟨after, last, rfl⟩
  · obtain ⟨rfl, hlast⟩ := List.append_inj' heq rfl
    exact hn inst targetId target transform (List.cons.inj hlast).1
  · rw [List.concat_eq_append, ← List.cons_append, ← List.append_assoc] at heq
    obtain ⟨hnodes, -⟩ := List.append_inj' heq rfl
    exact h before inst targetId target transform after hnodes

/-- The name of every use is among the names given or the groups that have ended before it. -/
def Resolved (known : List StringId) : List Node → Prop
  | [] => True
  | n :: rest =>
    (∀ id, n.targetId? = some id → id ∈ known) ∧ Resolved (n.exportId?.toList ++ known) rest

theorem resolved_append {known : List StringId} {first rest : List Node} :
    Resolved known (first ++ rest) ↔
      Resolved known first ∧ Resolved ((names first).reverse ++ known) rest := by
  induction first generalizing known with
  | nil => simp [Resolved]
  | cons n first ih =>
    have hnames : (names first).reverse ++ (n.exportId?.toList ++ known) =
        (names (n :: first)).reverse ++ known := by
      rw [names_cons, List.reverse_append, List.append_assoc]
      cases n.exportId? <;> rfl
    rw [List.cons_append, Resolved, Resolved, ih, hnames, and_assoc]

/-- A list is resolved when each use of it is, where it stands. -/
theorem resolved_iff {known : List StringId} {nodes : List Node} :
    Resolved known nodes ↔ ∀ before n after, nodes = before ++ n :: after →
      ∀ id, n.targetId? = some id → id ∈ names before ∨ id ∈ known := by
  constructor
  · rintro h before n after rfl id hid
    obtain ⟨hknown, -⟩ := (resolved_append.mp h).2
    simpa using hknown id hid
  · intro h
    induction nodes generalizing known with
    | nil => trivial
    | cons n rest ih =>
      refine ⟨fun id hid => ?_, ih ?_⟩
      · simpa using h [] n rest rfl id hid
      · rintro before m after rfl id hid
        have hmem := h (n :: before) m after rfl id hid
        rw [names_cons, List.mem_append] at hmem
        rw [List.mem_append, or_left_comm, ← or_assoc]
        exact hmem

/-- Where every use comes after its group, its name is known. -/
theorem Grounded.resolved {nodes : List Node} (h : Grounded nodes) : Resolved [] nodes := by
  refine resolved_iff.mpr fun before n after hsplit id hid => Or.inl ?_
  cases n with
  | use inst targetId target transform =>
    obtain rfl : targetId = id := Option.some.inj hid
    obtain ⟨htarget, hname⟩ := h before inst targetId target transform after hsplit
    exact mem_names.mpr ⟨target, htarget, hname⟩
  | _ => cases hid

end Node

end VectorImage
