import VectorImage.Image
import VectorImage.Proofs.Compact.Fidelity
import VectorImage.Proofs.Compact.Registering
import VectorImage.Proofs.Compact.Storing
import VectorImage.Proofs.Compact.Validation
import VectorImage.Proofs.Graph.Reissue
import VectorImage.Proofs.Graph.Sketching
import VectorImage.Proofs.View.Likeness
import VectorImage.Proofs.View.Targets
import VectorImage.Proofs.View.Trimming

/-!
Pruning an image that stays compact. The tree that is pruned is made of values of the image, and
what is left of it is still: encoded into the tables of the image it meets no value that is not
there, so the tables remain the instance they are and nothing is rounded again. So the pruned image
draws what the pruned tree draws; only gradients that are still in use are registered, each
definition once.
-/

set_option autoImplicit false
set_option relaxedAutoImplicit false

namespace VectorImage

namespace CompactImage

open VectorImage.Compact

variable {c p : CompactImage} {g v : GraphImage} {stamp : Nat} {viewport : Rect}
  {tolerance : Binary64}

/-- A tree over the tables and the gradients of an image whose calls are calls of the image, but
that gradients have other indices. -/
structure Provides (c : CompactImage) (g : GraphImage) : Prop where
  tables : g.tables = c.tables.value.tables
  gradients : g.gradients.toList = c.contents.gradients.toList.eraseDups
  offsets : ∀ a ∈ g.gradients, a.offsets.toNat < g.tables.floatLists.length
  said : ∀ call ∈ Node.callsAll g.root.children,
    ∃ e ∈ c.contents.entries, ∃ f, e.call.Renames (.gradientsBy f) call
  length_le : (Node.callsAll g.root.children).length ≤ c.contents.entries.length

/-- The calls of such a tree have values of the image. -/
private theorem Provides.held (hg : c.Provides g) {call : Call}
    (hcall : call ∈ Node.callsAll g.root.children) : call.HeldBy c.tables.value := by
  obtain ⟨e, he, _, hrenames⟩ := hg.said call hcall
  exact ((read_of_scan c.valid).decodes.held e he).of_renames hrenames

/-- The calls of an image are those of its tree after the tables and the document. -/
private theorem calls_cons {tables : Tables} {declared : Option Document} {tree : List Call}
    (h : c.calls = .init tables :: (declared.toList.map Call.document ++ tree))
    (htree : ∀ call ∈ tree, call.OfTree) :
    tables = c.tables.value.tables ∧ declared = some c.document ∧
      tree = c.contents.entries.map Entry.call := by
  obtain ⟨hinit, hrest⟩ := List.cons.inj h
  cases hinit
  cases declared with
  | none =>
    -- the document would be a call of the tree
    obtain rfl : Call.document c.document :: c.contents.entries.map Entry.call = tree := hrest
    exact (htree _ List.mem_cons_self).elim
  | some d =>
    obtain ⟨hdocument, htail⟩ := List.cons.inj hrest
    cases hdocument
    exact ⟨rfl, rfl, htail.symm⟩

/-- The tree of an image is made of the image. -/
theorem provides_of_toGraph {shareNodes : Bool} (h : c.toGraph stamp shareNodes = .ok g) :
    c.Provides g := by
  have hread := read_of_scan c.valid
  have hregular := GraphImage.regular_of_ofCalls .empty List.not_mem_nil h
  obtain ⟨ids, hrecites⟩ := GraphImage.recites_of_ofCalls .empty List.not_mem_nil h
  obtain ⟨q, hruns, hclosed, -⟩ := Backend.replay_eq_ok.mp h
  obtain ⟨tables, declared, tree, hcalls, htree⟩ :=
    hruns.of_start (Nesting.checkClosed_eq_ok.mp hclosed).1
  obtain ⟨rfl, rfl, rfl⟩ := calls_cons hcalls htree
  obtain ⟨hregistered, -, hparts, hheading⟩ := GraphImage.parts_of_stream _ _ htree hcalls
  refine ⟨congrArg Prod.fst (hrecites.heading.trans hheading), ?_, hregular.offsets, ?_, ?_⟩
  · rw [hrecites.gradients, hregistered, hread.gradients_eq]
  · intro call hcall
    obtain ⟨source, hsource, hrenames⟩ := exists_related hrecites.said.flip hcall
    rw [hparts] at hsource
    obtain ⟨e, he, rfl⟩ := List.mem_map.mp (List.mem_of_mem_filter hsource)
    exact ⟨e, he, _, hrenames⟩
  · rw [← hrecites.said.length_eq, hparts, ← List.length_map Entry.call]
    exact List.length_filter_le _ _

/-- What pruning leaves of the tree is made of the image. -/
private theorem Provides.pruned (hg : c.Provides g) (hregular : g.Regular)
    (h : g.withViewport stamp viewport true tolerance = .ok v) :
    c.Provides v ∧ Node.TargetsNamed (Node.finishedAll v.root.children) := by
  obtain ⟨root, pruning, -, hv, hprunes, hpinned⟩ :=
    hregular.withViewport_spec stamp viewport tolerance
  cases hv.symm.trans h
  have hsub := hprunes.calls_sublist
  exact ⟨⟨hg.tables, hg.gradients, hg.offsets, fun call hcall => hg.said call (hsub.subset hcall),
    Nat.le_trans hsub.length_le hg.length_le⟩, hregular.targetsNamed hprunes hpinned⟩

/-- The gradients of an image have values of the image. -/
private theorem held_gradient {a : Gradient} (ha : a ∈ c.contents.gradients) :
    (Call.gradient a).HeldBy c.tables.value := by
  have hread := read_of_scan c.valid
  rw [← Array.mem_toList_iff, hread.gradients_eq] at ha
  obtain ⟨call, hcall, hgradient⟩ := List.mem_filterMap.mp ha
  obtain ⟨e, he, rfl⟩ := List.mem_map.mp hcall
  have hheld := hread.decodes.held e he
  generalize e.call = call at hheld hgradient
  cases call with
  | gradient g =>
    cases hgradient
    exact hheld
  | _ => cases hgradient

/-- Each gradient of an image is registered by an entry. -/
private theorem gradients_size_le (c : CompactImage) :
    c.contents.gradients.size ≤ c.contents.entries.length := by
  rw [(read_of_scan c.valid).gradients_size, ← List.length_map Entry.call]
  exact List.countP_le_length

/-- What a tree that is made of an image issues: gradients in use, one for each, and calls with
values of the image. -/
structure Issues (c : CompactImage) (v : GraphImage) (gradients : List Gradient)
    (tree : List Call) : Prop where
  live : gradients = (c.contents.gradients.toList.filter v.paintsWith).eraseDups
  room : gradients.length ≤ 2 ^ 32
  length_le : tree.length ≤ c.contents.entries.length
  parts : ∀ call ∈ tree, call.isPart = true
  held : ∀ call ∈ gradients.map .gradient ++ tree, call.OfTree ∧ call.HeldBy c.tables.value

private theorem Provides.issues (hv : c.Provides v) {log : List Call} (hlog : v.calls = .ok log) :
    ∃ gradients tree, log = .init c.tables.value.tables :: .document v.document ::
      (gradients.map .gradient ++ tree) ∧ c.Issues v gradients tree := by
  obtain ⟨gradients, hgradients, hrest⟩ := bind_eq_ok.mp hlog
  obtain ⟨tree, htree, hrest⟩ := bind_eq_ok.mp hrest
  have hdistinct : v.gradients.toList.Nodup := hv.gradients ▸ nodup_eraseDups _
  have hlive : gradients = (c.contents.gradients.toList.filter v.paintsWith).eraseDups := by
    rw [v.eq_filter_of_live hdistinct (forall₂_of_mapM hgradients), hv.gradients, filter_eraseDups]
  have hparts : ∀ call ∈ tree, call.isPart = true ∧ call.HeldBy c.tables.value := by
    intro call hcall
    obtain ⟨source, hsource, hmap⟩ := mem_of_mapM htree hcall
    have hpart := Node.isPart_callsAll hsource
    have hrenames := Call.mapGradients_renames (Call.ofTree_of_isPart hpart) hmap
    exact ⟨(Call.same_of_mapGradients hmap (fun _ _ => rfl) fun _ _ => rfl).trans hpart,
      (hv.held hsource).of_renames hrenames⟩
  refine ⟨gradients, tree, ?_, hlive, ?_, ?_, fun call hcall => (hparts call hcall).1, ?_⟩
  · rw [← hv.tables]
    exact (Except.ok.inj hrest).symm
  · rw [mapM_length hgradients]
    exact v.length_liveGradients_le
  · rw [mapM_length htree]
    exact hv.length_le
  · intro call hcall
    rcases List.mem_append.mp hcall with hcall | hcall
    · obtain ⟨a, ha, rfl⟩ := List.mem_map.mp hcall
      rw [hlive, List.mem_eraseDups] at ha
      exact ⟨trivial, held_gradient (Array.mem_toList_iff.mp (List.mem_of_mem_filter ha))⟩
    · obtain ⟨hpart, hheld⟩ := hparts call hcall
      exact ⟨Call.ofTree_of_isPart hpart, hheld⟩

private theorem define_resources (c : CompactImage) :
    c.resources.define = c.tables.value.define := by
  funext a
  unfold TableSet.define Resources.define Resources.floatList resources Resources.ofTables
  rw [TableSet.tables, Array.toArray_toList]

/-- The gradients in use are defined. -/
private theorem Provides.defines (hv : c.Provides v) :
    ∃ used, (c.contents.gradients.toList.filter v.paintsWith).mapM c.tables.value.define =
      .ok used := by
  refine mapM_succeeds.mpr fun a ha => ?_
  have hmem : a ∈ v.gradients := by
    rw [← Array.mem_toList_iff, hv.gradients, List.mem_eraseDups]
    exact List.mem_of_mem_filter ha
  have hlt := hv.offsets a hmem
  rw [hv.tables] at hlt
  have hsize : a.offsets.toNat < c.tables.value.floatLists.entries.size := hlt
  obtain ⟨offsets, -, hoffsets⟩ := Resources.lookup_progress .floatList hsize
  exact ⟨_, TableSet.define_eq_ok.mpr ⟨offsets, hoffsets, rfl⟩⟩

namespace Issues

variable {gradients : List Gradient} {tree : List Call}

/-- What a tree issues is rounded already. -/
private theorem map_round (h : c.Issues v gradients tree) (ht : c.Storable) (d : Document) :
    (Call.init c.tables.value.tables :: .document d :: (gradients.map .gradient ++ tree)).map
        (Call.round c.header.width) =
      .init c.tables.value.tables :: .document d :: (gradients.map .gradient ++ tree) := by
  have hrest : (gradients.map Call.gradient ++ tree).map (Call.round c.header.width) =
      gradients.map Call.gradient ++ tree := by
    refine (List.map_congr_left fun call hcall => ?_).trans (List.map_id _)
    obtain ⟨htree, hheld⟩ := h.held call hcall
    exact hheld.round ht htree
  rw [List.map_cons, List.map_cons, hrest, Call.round, ht.tables_round]
  rfl

private theorem countP_isGradient (h : c.Issues v gradients tree) (d : Document) :
    (Call.init c.tables.value.tables :: .document d ::
      (gradients.map .gradient ++ tree)).countP Call.isGradient ≤ 2 ^ 32 := by
  have hnone : tree.countP Call.isGradient = 0 := by
    rw [List.countP_eq_zero]
    intro call hcall
    rw [Call.isGradient_of_isPart (h.parts call hcall)]
    exact Bool.false_ne_true
  rw [List.countP_cons_of_neg Bool.false_ne_true, List.countP_cons_of_neg Bool.false_ne_true,
    List.countP_append, hnone, Nat.add_zero]
  refine Nat.le_trans List.countP_le_length ?_
  rw [List.length_map]
  exact h.room

/-- What a tree issues finds room where the calls of the image do. -/
private theorem hasRoom (h : c.Issues v gradients tree) {b : Nat} (htidy : c.tables.value.Tidy b)
    (hroom : 4 * b + 6 * c.contents.entries.length + 3 < 2 ^ 32) (d : Document) :
    Encoder.HasRoom b (.init c.tables.value.tables :: .document d ::
      (gradients.map .gradient ++ tree)) := by
  have hsubset : gradients ⊆ c.contents.gradients.toList := by
    intro a ha
    rw [h.live, List.mem_eraseDups] at ha
    exact List.mem_of_mem_filter ha
  have hdistinct : gradients.Nodup := h.live ▸ nodup_eraseDups _
  have hfew : gradients.length ≤ c.contents.entries.length :=
    Nat.le_trans (hdistinct.subperm hsubset).length_le c.gradients_size_le
  have hshort := h.length_le
  have hsum : Encoder.totalCost (Call.document d :: (gradients.map .gradient ++ tree)) =
      3 * (1 + gradients.length + tree.length) := by
    rw [Encoder.totalCost_eq]
    · simp only [List.length_cons, List.length_append, List.length_map]
      omega
    · rintro call hcall t rfl
      rcases List.mem_cons.mp hcall with hcall | hcall
      · cases hcall
      · exact (h.held _ hcall).1
  have hcost : Encoder.cost (.init c.tables.value.tables) ≤ 3 * b := by
    have himages : c.tables.value.tables.images.length ≤ b := htidy.images.size_le
    have hstrings : c.tables.value.tables.strings.length ≤ b := htidy.strings.size_le
    have hlists : c.tables.value.tables.floatLists.length ≤ b := htidy.floatLists.size_le
    rw [Encoder.cost]
    omega
  refine ⟨?_, fun g hg => ?_⟩
  · rw [Encoder.totalCost, hsum]
    omega
  · rcases List.mem_cons.mp hg with hg | hg
    · cases hg
    rcases List.mem_cons.mp hg with hg | hg
    · cases hg
    exact (h.held _ hg).2.2.2

end Issues

/-- A tree that is made of an image, encoded into the tables of the image: nothing is added to the
tables, what is drawn is what the calls of the tree draw, and the gradients in use are registered,
each definition once. -/
private theorem Provides.encoded (hc : c.Reachable) (hv : c.Provides v) {log : List Call}
    (hlog : v.calls = .ok log)
    (h : Encoder.backend.replay (.seeded stamp c.header.width c.tables) log = .ok p) :
    p.header.width = c.header.width ∧ p.tables = c.tables ∧
      (∃ s, Sketch.backend.replay .empty log = .ok s ∧ p.primitives = .ok s.primitives) ∧
      ∃ used, (c.contents.gradients.toList.filter v.paintsWith).mapM c.resources.define = .ok used ∧
        p.contents.gradients.toList.mapM p.resources.define = .ok used.eraseDups := by
  have ht := hc.storable
  obtain ⟨gradients, tree, rfl, hissues⟩ := hv.issues hlog
  obtain ⟨q, hruns, hclosed, hcomplete⟩ := Backend.replay_eq_ok.mp h
  obtain ⟨hheader, -, htables, -⟩ := ofParts_eq_ok hcomplete
  have hparts : Encoder.backend.Runs _ ([Call.init c.tables.value.tables, .document v.document] ++
      (gradients.map .gradient ++ tree)) q := hruns
  obtain ⟨p₁, hopening, hlater⟩ := hparts.split
  have hstart : (Encoder.start c.header.width (.seeded stamp c.tables)).Seeded
      (Interner.seeded stamp c.tables).shared.value := Encoder.seeded_start ht
  obtain ⟨hopened, hseeded, hinterner⟩ := Encoder.Seeded.opening hstart hc.addressable hopening
  obtain ⟨htrail, hinterner'⟩ := hseeded.trail hlater hissues.held
  have hsame : p.tables = c.tables := by
    rw [htables, hinterner', hinterner]
    rfl
  have hwhole : Encoder.Trail p.tables.value
      (.start (.start c.header.width (.seeded stamp c.tables)))
      (.init c.tables.value.tables :: .document v.document ::
        (gradients.map .gradient ++ tree)) q := by
    rw [hsame]
    exact hopened.append htrail
  have hwidth : p.header.width = c.header.width := by
    rw [hheader]
    exact hwhole.width
  obtain ⟨s, hsketch, hprimitives, hgradients, -⟩ := sketch_of_trail hwhole hclosed hcomplete
    (hissues.countP_isGradient v.document)
  rw [hissues.map_round ht] at hsketch
  refine ⟨hwidth, hsame, ⟨s, hsketch, hprimitives⟩, ?_⟩
  obtain ⟨used, hused⟩ := hv.defines
  obtain ⟨ds, hds, hfirst⟩ := mapM_eraseDups hused
  rw [← hissues.live] at hds
  obtain ⟨p₂, hregisters, htree⟩ := htrail.split
  have hbefore : p₁.session.state.gradients.Registers c.tables.value [] := by
    rw [hopened.gradients_eq (by simp [Call.isGradient])]
    exact .empty _
  have hregistered := hregisters.registers hseeded.stored hseeded.floatLists (fun a ha =>
    (hissues.held _ (List.mem_append_left _ (List.mem_map_of_mem ha))).2) hbefore
    (forall₂_of_mapM hds)
  refine ⟨used, by rw [define_resources, hused], ?_⟩
  rw [define_resources, hsame, hgradients, ← hfirst,
    htree.gradients_eq fun call hcall => Call.isGradient_of_isPart (hissues.parts call hcall)]
  exact mapM_of_forall₂ hregistered.defined

/-- An image whose tables repeat no entry, and have room, can be pruned exactly when every use that
is left in its tree finds its group. -/
theorem withViewport_iff {b : Nat} (htidy : c.tables.value.Tidy b)
    (hroom : 4 * b + 6 * c.contents.entries.length + 3 < 2 ^ 32)
    (hg : c.toGraph stamp true = .ok g)
    (hv : g.withViewport stamp viewport true tolerance = .ok v) :
    (∃ p, c.withViewport stamp viewport true tolerance = .ok p) ↔
      Node.Resolved [] (Node.finishedAll v.root.children) := by
  have hregular := GraphImage.regular_of_ofCalls .empty List.not_mem_nil hg
  obtain ⟨hprovides, -⟩ := (provides_of_toGraph hg).pruned hregular hv
  obtain ⟨root, pruning, -, hroot, hprunes, -⟩ :=
    hregular.withViewport_spec stamp viewport tolerance
  cases hroot.symm.trans hv
  have hinRange := hregular.toInRange.pruned hprunes (g.document.showing viewport)
  obtain ⟨_, _, hlog, -⟩ := hinRange.calls
  obtain ⟨gradients, tree, hcalls, hissues⟩ := hprovides.issues hlog
  rw [hcalls] at hlog
  have hcount := hissues.countP_isGradient (g.document.showing viewport)
  have hstart : (Interner.seeded stamp c.tables).shared.value.Tidy b := htidy
  have hencodes : (∃ p, c.withViewport stamp viewport true tolerance = .ok p) ↔
      ∃ p, Encoder.backend.replay (.seeded stamp c.header.width c.tables)
        (.init c.tables.value.tables :: .document (g.document.showing viewport) ::
          (gradients.map .gradient ++ tree)) = .ok p := by
    rw [withViewport, if_pos rfl]
    simp only [bind_eq_ok]
    constructor
    · rintro ⟨p, g', hg', v', hv', log, hlog', h⟩
      cases hg.symm.trans hg'
      cases hv.symm.trans hv'
      cases hlog.symm.trans hlog'
      exact ⟨p, h⟩
    · rintro ⟨p, h⟩
      exact ⟨p, g, hg, _, hv, _, hlog, h⟩
  rw [hencodes, ← hinRange.records_iff]
  refine (replay_iff _ hstart (hissues.hasRoom htidy hroom _)).trans ?_
  rw [← Recorder.record_iff hcount]
  constructor
  · rintro ⟨⟨log, hrecord⟩, -⟩
    exact ⟨_, log, hlog, hrecord⟩
  · rintro ⟨_, log, hlog', hrecord⟩
    cases hlog.symm.trans hlog'
    obtain ⟨m, hpasses, -⟩ := (Recorder.record_iff hcount).mp ⟨log, hrecord⟩
    exact ⟨⟨log, hrecord⟩, hpasses.nodup_exportNames htidy.strings.distinct⟩

/-- An image without uses, whose tables repeat no entry and have room, can be pruned to any area. -/
theorem withViewport_progress {b : Nat} (htidy : c.tables.value.Tidy b)
    (hroom : 4 * b + 6 * c.contents.entries.length + 3 < 2 ^ 32)
    (hnone : ∀ e ∈ c.contents.entries, ∀ u, e.call ≠ .use u) (stamp : Nat) (viewport : Rect)
    (tolerance : Binary64) : ∃ p, c.withViewport stamp viewport true tolerance = .ok p := by
  have hfew : c.contents.gradients.size ≤ 2 ^ 32 := by
    have := c.gradients_size_le
    omega
  obtain ⟨s, hsketch, -⟩ := sketch hfew
  obtain ⟨g, hg, -⟩ := GraphImage.ofCalls_of_sketch hsketch .empty List.not_mem_nil true
  have hregular := GraphImage.regular_of_ofCalls .empty List.not_mem_nil hg
  obtain ⟨root, -, -, hv, -⟩ := hregular.withViewport_spec stamp viewport tolerance
  obtain ⟨hprovides, -⟩ := (provides_of_toGraph hg).pruned hregular hv
  refine (withViewport_iff htidy hroom hg hv).mpr (Node.resolved_iff.mpr ?_)
  rintro before n after hsplit id hid
  have hn : n ∈ Node.visitedAll root.children :=
    Node.mem_finishedAll.mp (hsplit ▸ List.mem_append_right _ List.mem_cons_self)
  cases n with
  | use inst targetId target transform =>
    have hcall : Call.use ⟨targetId, sharedValue transform⟩ ∈ Node.callsAll root.children := by
      refine Node.calls_subset_callsAll hn ?_
      rw [Node.calls]
      exact List.mem_singleton_self _
    obtain ⟨e, he, _, hrenames⟩ := hprovides.said _ hcall
    generalize hentry : e.call = call at hrenames
    cases hrenames
    exact (hnone e he _ hentry).elim
  | _ => cases hid

/-- A compact image that is pruned draws what its shared tree pruned to the same area draws, whoever
builds and prunes the tree. It keeps its width and the very instance of its tables, and of the
gradients that a leaf that is left is painted with it registers one for each definition, in the
order in which they come first. -/
theorem prunes_as_graph (hc : c.Reachable)
    (h : c.withViewport stamp viewport true tolerance = .ok p) :
    ∃ (primitives : List Primitive) (used : List ResolvedGradient),
      (∀ (copies copies' : Nat) (shareNodes : Bool), ∃ g v : GraphImage,
        c.toGraph copies shareNodes = .ok g ∧
        g.withViewport copies' viewport true tolerance = .ok v ∧
        v.primitives = .ok primitives ∧
        (c.contents.gradients.toList.filter v.paintsWith).mapM c.resources.define = .ok used) ∧
      p.primitives = .ok primitives ∧ p.header.width = c.header.width ∧ p.tables = c.tables ∧
      p.sharesTables c = true ∧
      p.contents.gradients.toList.mapM p.resources.define = .ok used.eraseDups := by
  rw [withViewport, if_pos rfl] at h
  obtain ⟨g, hg, h⟩ := bind_eq_ok.mp h
  obtain ⟨v, hv, h⟩ := bind_eq_ok.mp h
  obtain ⟨log, hlog, h⟩ := bind_eq_ok.mp h
  have hregular := GraphImage.regular_of_ofCalls .empty List.not_mem_nil hg
  obtain ⟨hprovides, hnames⟩ := (provides_of_toGraph hg).pruned hregular hv
  have hreachable : v.Reachable := .viewed (.replayed .empty List.not_mem_nil hg) hv
  obtain ⟨steps, hsteps⟩ := hreachable.steps_progress
  obtain ⟨hwidth, htables, ⟨s, hsketch, hprimitives⟩, used, hused, hregistered⟩ :=
    hprovides.encoded hc hlog h
  have hroot := GraphImage.root_of_sketch hnames hsteps hlog hsketch
  rw [Sketch.primitives, hroot] at hprimitives
  refine ⟨_, used, fun copies copies' shareNodes => ?_, hprimitives, hwidth, htables, ?_,
    hregistered⟩
  · obtain ⟨g', hg', halike⟩ := GraphImage.alike_of_ofCalls .empty .empty List.not_mem_nil
      (List.not_mem_nil : copies ∉ []) hg shareNodes
    have hregular' := GraphImage.regular_of_ofCalls .empty List.not_mem_nil hg'
    obtain ⟨_, -, -, hv', -⟩ := hregular'.withViewport_spec copies' viewport tolerance
    have hleft := halike.withViewport hv hv'
    exact ⟨g', _, hg', hv', hleft.primitives ▸ GraphImage.primitives_of_steps hsteps,
      hleft.paintsWith ▸ hused⟩
  · rw [sharesTables, htables]
    exact decide_eq_true rfl

end CompactImage

/-! Two squares at the origin, whose gradients are equal, and one far off, stored. -/

namespace StoredSwatches

open VectorImage.Compact

private def bytes : Bytes :=
  [0x56, 0x47, 0x43, 0x49, 1, 0, 0, 0, 0, 0, 0] ++
    ([72, 0, 0, 0, 0, 0, 3] ++
      [4, 0, 0, 0, 0, 0, 0, 0, 0, 0, 0, 0x80, 0x3f, 0, 0, 0, 0] ++
      [6, 0, 0, 0, 0, 0, 0, 0, 0, 0, 0, 0x80, 0x3f, 0, 0, 0x80, 0x3f, 0, 0, 0, 0, 0, 0, 0, 0] ++
      [6, 0, 0, 0xb4, 0x42, 0, 0, 0, 0, 0, 0, 0xb6, 0x42, 0, 0, 0x80, 0x3f,
        0, 0, 0, 0, 0, 0, 0, 0] ++ [0, 0]) ++
    [1, 0, 0, 0, 0] ++
    ([54, 0, 0, 0] ++ [3, 0, 0, 0, 1, 0, 0, 0, 255, 0, 0] ++ [3, 0, 0, 0, 1, 0, 0, 0, 255, 1, 0] ++
      [3, 0, 0, 0, 1, 0, 0, 0, 255, 0, 0] ++ [17, 1, 1, 1, 0, 0, 0] ++ [17, 1, 1, 1, 2, 0, 0] ++
      [17, 2, 1, 1, 1, 0, 0])

private def fade (spread : SpreadMethod) : Gradient :=
  ⟨.linear ⟨.zero, .zero⟩ ⟨.one, .zero⟩, 0, [⟨0, 0, 0, 255⟩], spread, none⟩

private def square (left right : Binary64) (i : GradientId) : Call :=
  .shape ⟨.rect ⟨⟨left, .zero, right, .one⟩, .zero, .zero⟩, ⟨some ⟨.gradient i, .nonZero⟩, none⟩,
    none⟩

private def tables : Tables :=
  ⟨[], [], [[.zero, .zero, .one, .zero], [.zero, .zero, .one, .one, .zero, .zero],
    [.ofNat 90, .zero, .ofNat 91, .one, .zero, .zero]]⟩

private def calls : List Call :=
  [.init tables, .document .empty, .gradient (fade .pad), .gradient (fade .reflect),
    .gradient (fade .pad), square .zero .one 0, square .zero .one 2,
    square (.ofNat 90) (.ofNat 91) 1]

private def window : Rect := ⟨.zero, .zero, .ofNat 10, .ofNat 10⟩

private theorem ofBytes_bytes : ∃ c, CompactImage.ofBytes 0 bytes = .ok c ∧ c.calls = calls ∧
    c.tables.value.transforms.entries = #[] ∧ c.tables.value.paths.entries = #[] := by
  have hvalues : (CompactImage.ofBytes 0 bytes).toOption.map (fun c =>
      (c.calls, c.tables.value.transforms.entries, c.tables.value.paths.entries)) =
        some (calls, #[], #[]) := by decide +kernel
  cases h : CompactImage.ofBytes 0 bytes with
  | error e =>
    rw [h] at hvalues
    cases hvalues
  | ok c =>
    rw [h] at hvalues
    injection hvalues with hvalues
    injection hvalues with hcalls hrest
    injection hrest with htransforms hpaths
    exact ⟨c, rfl, hcalls, htransforms, hpaths⟩

/-- The image has few values, and no two are equal. -/
private theorem tidy_of_calls {c : CompactImage} (hc : c.Reachable) (hcalls : c.calls = calls)
    (htransforms : c.tables.value.transforms.entries = #[])
    (hpaths : c.tables.value.paths.entries = #[]) : c.tables.value.Tidy 3 := by
  have hbuilt := hc.storable
  have htables : c.tables.value.tables = tables := Call.init.inj (List.cons.inj hcalls).1
  have himages : c.tables.value.images.entries = #[] :=
    Array.toList_inj.mp (congrArg Tables.images htables)
  have hstrings : c.tables.value.strings.entries = #[] :=
    Array.toList_inj.mp (congrArg Tables.strings htables)
  have hlists : c.tables.value.floatLists.entries = tables.floatLists.toArray :=
    Array.toList_inj.mp (congrArg Tables.floatLists htables)
  refine ⟨⟨hbuilt.images, ?_, ?_⟩, ⟨hbuilt.strings, ?_, ?_⟩, ⟨hbuilt.floatLists, ?_, ?_⟩,
    ⟨hbuilt.transforms, ?_, ?_⟩, ⟨hbuilt.paths, ?_, ?_⟩⟩
  all_goals simp only [CanonicalTable.size, himages, hstrings, hlists, htransforms, hpaths]
  all_goals decide +kernel

end StoredSwatches

namespace CompactImage

open VectorImage.Compact

/-- The squares at the origin are left of it. -/
theorem prunes_as_graph_storedSwatches : ∃ (c p : CompactImage) (primitives : List Primitive)
    (used : List ResolvedGradient), ofBytes 0 StoredSwatches.bytes = .ok c ∧
      c.withViewport 1 StoredSwatches.window true .zero = .ok p ∧
      (∃ g v, c.toGraph 2 false = .ok g ∧
        g.withViewport 3 StoredSwatches.window true .zero = .ok v ∧
        v.primitives = .ok primitives) ∧
      p.primitives = .ok primitives ∧ p.sharesTables c = true ∧
      p.contents.gradients.toList.mapM p.resources.define = .ok used.eraseDups := by
  obtain ⟨c, hc, hcalls, htransforms, hpaths⟩ := StoredSwatches.ofBytes_bytes
  have hreachable : c.Reachable := .loaded hc
  have htidy := StoredSwatches.tidy_of_calls hreachable hcalls htransforms hpaths
  have hentries : c.contents.entries.map Entry.call = StoredSwatches.calls.drop 2 :=
    congrArg (List.drop 2) hcalls
  have hfew : c.contents.entries.length = 6 := by
    rw [← List.length_map Entry.call, hentries]
    rfl
  have hnone : ∀ e ∈ c.contents.entries, ∀ u, e.call ≠ .use u := by
    intro e he u hu
    have hmem : Call.use u ∈ StoredSwatches.calls.drop 2 :=
      hentries ▸ hu ▸ List.mem_map_of_mem he
    simp [StoredSwatches.calls, StoredSwatches.square] at hmem
  obtain ⟨p, hp⟩ := withViewport_progress htidy (by rw [hfew]; decide) hnone 1
    StoredSwatches.window .zero
  obtain ⟨primitives, used, hgraph, hprimitives, -, -, hshares, hregistered⟩ :=
    prunes_as_graph hreachable hp
  obtain ⟨g, v, hg, hv, hdrawn, -⟩ := hgraph 2 3 false
  exact ⟨c, p, primitives, used, hc, hp, ⟨g, v, hg, hv, hdrawn⟩, hprimitives, hshares, hregistered⟩

end CompactImage

end VectorImage
