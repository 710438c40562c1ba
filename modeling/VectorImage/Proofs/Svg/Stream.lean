import VectorImage.Proofs.Nameless
import VectorImage.Proofs.Svg.Manifest
import VectorImage.Svg.Stream

/-!
The stream that draws a picture. Whatever the picture, its calls derive from the grammar of trees
and refer to what is there when they are issued, so every builder takes them. What carries the
induction over the picture is that its lists of numbers are among those of the manifest; how many
gradients are registered is counted along the calls.
-/

set_option autoImplicit false
set_option relaxedAutoImplicit false

namespace VectorImage

/-! Paints whose references are there. -/

/-- The gradient of a source is among the first so many. -/
def PaintSource.Within (gradients : Nat) (s : PaintSource) : Prop :=
  ∀ id, s.gradientId? = some id → id.toNat < gradients

/-- The gradient of a stroke is among the first so many, and its dashes are below `floatLists`. -/
structure Stroke.Within (gradients floatLists : Nat) (s : Stroke) : Prop where
  source : s.source.Within gradients
  dash : ∀ id, s.dash = some id → id.toNat < floatLists

theorem Call.refersWithin_shape {tables : Tables} {gradients : Nat} {s : Shape}
    (h : s.paint.Within gradients tables.floatLists.length) :
    (Call.shape s).RefersWithin tables gradients :=
  ⟨nofun, nofun, fun id hid => h.dash id (Option.mem_toList.mp hid), h.gradients⟩

/-- A paint is within what its fill and its stroke are within. -/
theorem Paint.within_of_parts {gradients floatLists : Nat} {fill : Option Fill}
    {stroke : Option Stroke} (hfill : ∀ f, fill = some f → f.source.Within gradients)
    (hstroke : ∀ s, stroke = some s → s.Within gradients floatLists) :
    Paint.Within gradients floatLists ⟨fill, stroke⟩ := by
  refine ⟨fun id hid => ?_, fun id hid => ?_⟩
  · rcases List.mem_append.mp hid with hid | hid
    · obtain ⟨f, hf, hid⟩ := Option.bind_eq_some_iff.mp (Option.mem_toList.mp hid)
      exact hfill f hf id hid
    · obtain ⟨s, hs, hid⟩ := Option.bind_eq_some_iff.mp (Option.mem_toList.mp hid)
      exact (hstroke s hs).source id hid
  · obtain ⟨s, hs, hid⟩ := Option.bind_eq_some_iff.mp hid
    exact (hstroke s hs).dash id hid

namespace Svg

/-! Parts of a tree. -/

/-- The calls of a part of a tree: they derive, and what they refer to is there. -/
structure Drawn (tables : Tables) (known : Nat) (calls : List Call) (known' : Nat) : Prop where
  derives : Derives calls
  refers : Refers tables known calls known'

namespace Drawn

variable {tables : Tables} {k l n : Nat} {call : Call} {first rest body cover covered : List Call}

theorem nil (known : Nat) : Drawn tables known [] known := ⟨.nil, .nil known⟩

theorem append (h : Drawn tables k first l) (hrest : Drawn tables l rest n) :
    Drawn tables k (first ++ rest) n :=
  ⟨h.derives.append hrest.derives, h.refers.append hrest.refers⟩

/-- A leaf or a gradient. -/
theorem single (hsingle : call.isSingle = true) (hnameless : call.isNameless = true)
    (hwithin : call.RefersWithin tables k) :
    Drawn tables k [call] (k + call.isGradient.toNat) :=
  ⟨.single hsingle .nil, .cons hnameless hwithin (.nil _)⟩

theorem clip (c : ClipPath) : Drawn tables k [.clip c] k := ⟨.single rfl .nil, .bare rfl⟩

theorem group (attrs : GroupAttrs) (hname : attrs.exportId = none) (h : Drawn tables k body l) :
    Drawn tables k (.beginGroup attrs :: (body ++ [.endGroup])) l := by
  have hbegin : Refers tables k [.beginGroup attrs] k :=
    .bare (Option.isNone_iff_eq_none.mpr hname)
  exact ⟨.group attrs h.derives .nil, hbegin.append (h.refers.append (.bare rfl))⟩

theorem mask (hcover : Drawn tables k cover l) (hcovered : Drawn tables l covered n) :
    Drawn tables k (.beginMask :: (cover ++ .maskContent :: (covered ++ [.endMask]))) n := by
  have hbegin : Refers tables k [.beginMask] k := .bare rfl
  have hcontent : Refers tables l [.maskContent] l := .bare rfl
  refine ⟨.mask hcover.derives hcovered.derives .nil, hbegin.append (hcover.refers.append ?_)⟩
  exact hcontent.append (hcovered.refers.append (.bare rfl))

end Drawn

/-- Drawing succeeds, whatever gradients are registered, with the calls of a part of a tree. -/
def Draws (tables : Tables) (x : Drawing (List Call)) : Prop :=
  ∀ known, ∃ calls known', x known = .ok (calls, known') ∧
    Drawn tables known.length calls known'.length

/-- Drawing a part of a paint succeeds, and what the part becomes has the property for the number
of gradients registered then. -/
def DrawsPart {α : Type} (tables : Tables) (P : Nat → α → Prop)
    (x : Drawing (List Call × Option α)) : Prop :=
  ∀ known, ∃ calls part? known', x known = .ok ((calls, part?), known') ∧
    Drawn tables known.length calls known'.length ∧ ∀ part, part? = some part → P known'.length part

variable {m : Manifest} {tables : Tables}

/-! Paints. -/

/-- An index from the manifest is an index of the tables. -/
private theorem floatListId_lt (htables : m.tables = .ok tables) {floats : List Binary64}
    (h : floats ∈ m.floatLists) :
    ∃ id, m.floatListId floats = .ok id ∧ id.toNat < tables.floatLists.length := by
  obtain ⟨id, hid, hget⟩ := Manifest.floatListId_of_mem htables h
  exact ⟨id, hid, (List.getElem?_eq_some_iff.mp hget).1⟩

/-- A gradient that is registered already keeps its index; a new one takes the next. -/
theorem Ink.draws_source (htables : m.tables = .ok tables) (opacity : Binary32) {ink : Ink}
    (h : ink.floatLists ⊆ m.floatLists) :
    DrawsPart tables PaintSource.Within (ink.source m opacity) := by
  intro known
  cases ink with
  | color c =>
    refine ⟨[], _, known, rfl, .nil _, fun source hsource id hid => ?_⟩
    cases hsource
    cases hid
  | pattern => exact ⟨[], none, known, rfl, .nil _, nofun⟩
  | ramp r =>
    have hof {i n : Nat} (hi : i < n) : (PaintSource.gradient (UInt32.ofNat i)).Within n := by
      rintro id ⟨⟩
      rw [UInt32.toNat_ofNat']
      exact Nat.lt_of_le_of_lt (Nat.mod_le _ _) hi
    rcases hindex : known.idxOf? ⟨r.identity, opacity⟩ with _ | i
    · obtain ⟨id, hid, hlt⟩ := floatListId_lt htables (h List.mem_cons_self)
      refine ⟨[.gradient (r.gradient id opacity)], some (.gradient (UInt32.ofNat known.length)),
        known ++ [⟨r.identity, opacity⟩], ?_, ?_, ?_⟩
      · refine state_bind_eq_ok.mpr ⟨known, known, rfl, ?_⟩
        rw [hindex]
        exact state_bind_eq_ok.mpr ⟨id, known, state_lift_eq_ok.mpr ⟨hid, rfl⟩, rfl⟩
      · rw [List.length_append]
        refine .single rfl rfl ⟨nofun, nofun, ?_, nofun⟩
        exact List.forall_mem_singleton.mpr hlt
      · rintro source ⟨⟩
        exact hof (List.length_append ▸ Nat.lt_succ_self _)
    · obtain ⟨hi, -, -⟩ := List.idxOf?_eq_some_iff.mp hindex
      refine ⟨[], some (.gradient (UInt32.ofNat i)), known, ?_, .nil _, ?_⟩
      · refine state_bind_eq_ok.mpr ⟨known, known, rfl, ?_⟩
        rw [hindex]
        rfl
      · rintro source ⟨⟩
        exact hof hi

theorem InkFill.draws (htables : m.tables = .ok tables) {f : InkFill}
    (h : f.floatLists ⊆ m.floatLists) :
    DrawsPart tables (fun known fill => fill.source.Within known) (f.draw m) := by
  intro known
  obtain ⟨calls, source?, known', hsource, hdrawn, hwithin⟩ :=
    Ink.draws_source htables f.opacity h known
  refine ⟨calls, _, known', state_bind_eq_ok.mpr ⟨_, _, hsource, rfl⟩, hdrawn, fun fill hfill => ?_⟩
  obtain ⟨source, hsource, rfl⟩ := Option.map_eq_some_iff.mp hfill
  exact hwithin source hsource

private theorem dash_indexed (htables : m.tables = .ok tables) {dashes : Option (List Binary64)}
    (h : dashes.toList ⊆ m.floatLists) (known : List RampUse) :
    ∃ dash : Option FloatListId,
      dashes.mapM (fun floats => (liftM (m.floatListId floats) : Drawing FloatListId)) known =
        .ok (dash, known) ∧ ∀ id, dash = some id → id.toNat < tables.floatLists.length := by
  cases dashes with
  | none => exact ⟨none, rfl, nofun⟩
  | some floats =>
    obtain ⟨id, hid, hlt⟩ := floatListId_lt htables (h List.mem_cons_self)
    refine ⟨some id, state_map_eq_ok.mpr ⟨id, state_lift_eq_ok.mpr ⟨hid, rfl⟩, rfl⟩, ?_⟩
    rintro _ ⟨⟩
    exact hlt

theorem InkStroke.draws (htables : m.tables = .ok tables) {s : InkStroke}
    (h : s.floatLists ⊆ m.floatLists) :
    DrawsPart tables (fun known stroke => stroke.Within known tables.floatLists.length)
      (s.draw m) := by
  intro known
  obtain ⟨hink, hdashes⟩ := List.append_subset.mp h
  obtain ⟨calls, source?, known', hsource, hdrawn, hwithin⟩ :=
    Ink.draws_source htables s.opacity hink known
  cases source? with
  | none => exact ⟨calls, none, known', state_bind_eq_ok.mpr ⟨_, _, hsource, rfl⟩, hdrawn, nofun⟩
  | some source =>
    obtain ⟨dash, hdash, hlt⟩ := dash_indexed htables hdashes known'
    refine ⟨calls, some _, known', state_bind_eq_ok.mpr ⟨_, _, hsource,
      state_bind_eq_ok.mpr ⟨_, _, hdash, rfl⟩⟩, hdrawn, ?_⟩
    rintro stroke ⟨⟩
    exact ⟨hwithin source rfl, hlt⟩

theorem draws_part {α β : Type} {P : Nat → β → Prop} {draw : α → Drawing (List Call × Option β)}
    {part? : Option α} (h : ∀ a, part? = some a → DrawsPart tables P (draw a)) :
    DrawsPart tables P (drawPart draw part?) := by
  cases part? with
  | none => exact fun known => ⟨[], none, known, rfl, .nil _, nofun⟩
  | some a => exact h a rfl

/-! Nodes. -/

theorem PathLeaf.draws (htables : m.tables = .ok tables) {leaf : PathLeaf}
    (h : leaf.floatLists ⊆ m.floatLists) : Draws tables (leaf.draw m) := by
  intro known
  unfold PathLeaf.draw
  cases hvisible : leaf.visible with
  | false => exact ⟨[], known, rfl, .nil _⟩
  | true =>
    obtain ⟨hfills, hstrokes⟩ := List.append_subset.mp h
    have hfill : DrawsPart tables (fun known fill => fill.source.Within known)
        (drawPart (InkFill.draw m) leaf.fill) :=
      draws_part fun f hf => InkFill.draws htables fun floats hmem =>
        hfills (List.mem_flatMap.mpr ⟨f, Option.mem_toList.mpr hf, hmem⟩)
    have hstroke : DrawsPart tables
        (fun known stroke => stroke.Within known tables.floatLists.length)
        (drawPart (InkStroke.draw m) leaf.stroke) :=
      draws_part fun s hs => InkStroke.draws htables fun floats hmem =>
        hstrokes (List.mem_flatMap.mpr ⟨s, Option.mem_toList.mpr hs, hmem⟩)
    obtain ⟨fillCalls, fill, k, hfillRun, hfillDrawn, hfillWithin⟩ := hfill known
    obtain ⟨strokeCalls, stroke, l, hstrokeRun, hstrokeDrawn, hstrokeWithin⟩ := hstroke k
    have hparts := hfillDrawn.append hstrokeDrawn
    by_cases hnone : (fill.isNone && stroke.isNone) = true
    · refine ⟨fillCalls ++ strokeCalls, l, ?_, hparts⟩
      refine state_bind_eq_ok.mpr ⟨_, _, hfillRun, state_bind_eq_ok.mpr ⟨_, _, hstrokeRun, ?_⟩⟩
      dsimp only
      rw [if_pos hnone]
      rfl
    · refine ⟨_, l, ?_, hparts.append (.single rfl rfl (Call.refersWithin_shape
        (s := ⟨.path leaf.outline.widen, ⟨fill, stroke⟩, none⟩) ?_))⟩
      · refine state_bind_eq_ok.mpr ⟨_, _, hfillRun, state_bind_eq_ok.mpr ⟨_, _, hstrokeRun, ?_⟩⟩
        dsimp only
        rw [if_neg hnone]
        rfl
      -- the stroke may register another gradient after that of the fill
      · exact Paint.within_of_parts (fun f hf id hid =>
          Nat.lt_of_lt_of_le (hfillWithin f hf id hid) hstrokeDrawn.refers.le) hstrokeWithin

theorem PictureLeaf.drawn_draw (htables : m.tables = .ok tables) (leaf : PictureLeaf) (k : Nat) :
    Drawn tables k (leaf.draw m) k := by
  unfold PictureLeaf.draw
  split
  · split
    · next identity _ _ id hid =>
      split
      · obtain ⟨raster, -, hget⟩ := Manifest.imageId?_eq_some htables hid
        refine .single rfl rfl ⟨?_, nofun, nofun, nofun⟩
        exact List.forall_mem_singleton.mpr (List.getElem?_eq_some_iff.mp hget).1
      · exact .nil k
    · exact .nil k
  · exact .nil k

mutual
/-- Every node is drawn with the calls of a part of a tree. -/
theorem PictureNode.draws (htables : m.tables = .ok tables) (node : PictureNode)
    (h : node.floatLists ⊆ m.floatLists) : Draws tables (node.draw m) := by
  cases node with
  | group frame clip mask children =>
    -- the lists below the clip are in the tables, too, but a clip has no paint
    obtain ⟨hbefore, hchildren⟩ := List.append_subset.mp h
    obtain ⟨-, hmask⟩ := List.append_subset.mp hbefore
    intro known
    have hclip : Drawn tables known.length
        (frame.clip.map fun placement => Call.clip (clipOf placement clip)).toList known.length := by
      cases frame.clip with
      | none => exact .nil _
      | some placement => exact .clip _
    unfold PictureNode.draw
    cases hmasked : frame.masked with
    | false =>
      obtain ⟨inside, known', hrun, hdrawn⟩ := PictureNode.drawsAll htables children hchildren known
      refine ⟨_, known', state_bind_eq_ok.mpr ⟨_, _, hrun, rfl⟩, ?_⟩
      have hgroup := Drawn.group frame.attrs rfl (hclip.append hdrawn)
      simpa only [List.append_assoc, List.cons_append] using hgroup
    | true =>
      obtain ⟨cover, k, hcoverRun, hcover⟩ := PictureNode.drawsAll htables mask hmask known
      obtain ⟨covered, l, hcoveredRun, hcovered⟩ := PictureNode.drawsAll htables children hchildren k
      have hinside := (hcover.group .plain rfl).mask hcovered
      have hgroup := Drawn.group frame.attrs rfl (hclip.append hinside)
      refine ⟨_, l, state_bind_eq_ok.mpr ⟨_, _, hcoverRun,
        state_bind_eq_ok.mpr ⟨_, _, hcoveredRun, rfl⟩⟩, ?_⟩
      simpa only [List.append_assoc, List.cons_append, List.nil_append] using hgroup
  | path leaf =>
    unfold PictureNode.draw
    exact leaf.draws htables h
  | image leaf =>
    unfold PictureNode.draw
    exact fun known => ⟨_, known, rfl, leaf.drawn_draw htables _⟩

theorem PictureNode.drawsAll (htables : m.tables = .ok tables) (nodes : List PictureNode)
    (h : floatListsAll nodes ⊆ m.floatLists) : Draws tables (drawAll m nodes) := by
  cases nodes with
  | nil => exact fun known => ⟨[], known, rfl, .nil _⟩
  | cons node rest =>
    obtain ⟨hnode, hrest⟩ := List.append_subset.mp h
    intro known
    obtain ⟨first, k, hfirstRun, hfirst⟩ := PictureNode.draws htables node hnode known
    obtain ⟨others, l, hothersRun, hothers⟩ := PictureNode.drawsAll htables rest hrest k
    unfold PictureNode.drawAll
    exact ⟨_, l, state_bind_eq_ok.mpr ⟨_, _, hfirstRun, state_bind_eq_ok.mpr ⟨_, _, hothersRun, rfl⟩⟩,
      hfirst.append hothers⟩
end

/-! Pictures. -/

/-- Every picture has a stream, unless its tables are too long for indices: the tables hold all
that the nodes refer to; the calls behind them are one group, nest as a tree does, and refer to
entries of the tables and to gradients registered before; and every builder takes the stream. -/
theorem Picture.calls_taken (p : Picture) :
    (¬ (Manifest.ofNodes p.nodes).Fits ∧ p.calls = .error (.other .indexOverflow)) ∨
      ∃ (tables : Tables) (drawn stream : List Call),
        (Manifest.ofNodes p.nodes).Covers tables p.nodes ∧
        stream = .init tables :: .document p.document :: .beginGroup .plain ::
          (drawn ++ [.endGroup]) ∧
        p.calls = .ok stream ∧ Derives drawn ∧
        Referenced tables (.beginGroup .plain :: (drawn ++ [.endGroup])) ∧ Taken stream := by
  by_cases hfits : (Manifest.ofNodes p.nodes).Fits
  · right
    have htables := Manifest.tables_of_fits hfits
    generalize Tables.mk _ _ _ = tables at htables
    obtain ⟨drawn, known, hrun, hdrawn⟩ :=
      PictureNode.drawsAll htables p.nodes (Manifest.floatListsAll_subset p.nodes) []
    have hgroup : Drawn tables 0 (.beginGroup .plain :: (drawn ++ [.endGroup])) known.length :=
      hdrawn.group .plain rfl
    refine ⟨tables, drawn, _, Manifest.covers htables, rfl, ?_, hdrawn.derives,
      hgroup.refers.referenced, .of_tree (some p.document) hgroup.derives hgroup.refers⟩
    exact bind_eq_ok.mpr ⟨tables, htables, bind_eq_ok.mpr ⟨(drawn, known), hrun, rfl⟩⟩
  · left
    refine ⟨hfits, ?_⟩
    rw [Picture.calls, Manifest.tables_of_not_fits hfits]
    rfl

/-- A ramp from black to white. -/
def blackToWhite : Ramp where
  identity := [0]
  shape := .linear ⟨.zero, .zero⟩ ⟨.one, .zero⟩
  stops := [⟨.zero, .black, .one⟩, ⟨.one, ⟨255, 255, 255⟩, .one⟩]
  spread := .pad
  placement := .identity

/-- A dashed path and an image under a clip and a mask. The clip has a fill of its own, the fill of
the path is a pattern, and its stroke takes the ramp of the mask with another opacity. -/
def veiledRing : Picture where
  width := .one
  height := .one
  nodes := [.group ⟨.identity, .one, some .identity, true⟩
    [.path ⟨[], .zero, .zero, some ⟨.ramp blackToWhite, .one, .evenOdd⟩, none, false⟩]
    [.path ⟨[], .zero, .zero, some ⟨.ramp blackToWhite, .one, .nonZero⟩, none, true⟩]
    [.path ⟨[], .zero, .zero, some ⟨.pattern, .one, .nonZero⟩, some ⟨.ramp blackToWhite, .zero, .one,
        .butt, .miter, .one, some [.one, .one], .zero⟩, true⟩,
      .image ⟨.raster [1] [], .one, .one, .zero, true⟩]]

/-- The picture is drawn, and each of the builders takes its calls. -/
theorem calls_taken_veiledRing : ∃ stream, veiledRing.calls = .ok stream ∧
    Recorder.record stream = .ok stream ∧
    (∃ g, GraphImage.ofCalls 0 true .empty stream = .ok g) ∧
    ∃ c, CompactImage.ofCalls 0 .binary32 stream = .ok c := by
  have hfits : (Manifest.ofNodes veiledRing.nodes).Fits := by
    constructor <;> decide
  have hsmall : (veiledRing.calls.toOption.any fun calls =>
      decide (Encoder.HasRoom 0 calls)) = true := by
    decide +kernel
  rcases veiledRing.calls_taken with ⟨hlong, -⟩ | ⟨tables, drawn, stream, -, -, hcalls, -, -, htaken⟩
  · exact absurd hfits hlong
  · rw [hcalls] at hsmall
    have hroom : Encoder.HasRoom 0 stream := of_decide_eq_true hsmall
    refine ⟨stream, hcalls, htaken.recorded.mpr hroom.countP_le, ?_, ?_⟩
    · exact htaken.built hroom.countP_le [] .empty 0 true .empty List.not_mem_nil
    · exact htaken.encoded .binary32 0 (.fresh 0) TableSet.tidy_empty hroom

end Svg

end VectorImage
