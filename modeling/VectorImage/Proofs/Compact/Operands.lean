import VectorImage.Proofs.Compact.Emission

/-!
The instruction of a call reads back as the call, its numbers rounded and its indices placed, in
any tables in which its indices stand for its values.
-/

set_option autoImplicit false
set_option relaxedAutoImplicit false

namespace VectorImage

/-- The places that an encoder has given to the entries of a stream's tables, as a renaming.
Gradients keep the ids that the encoder has answered. -/
def Encoder.renaming (e : Encoder) : Renaming where
  images := fun k j => lookup e.images .image k = .ok j
  strings := fun k j => lookup e.strings .string k = .ok j
  floatLists := fun k j => lookup e.floatLists .floatList k = .ok j
  gradients := Eq

/-- Every place is an index of `final`. -/
structure Encoder.Placed (e : Encoder) (final : TableSet) : Prop where
  images : ∀ k j, e.renaming.images k j → ∃ v, final.image j = .ok v
  strings : ∀ k j, e.renaming.strings k j → ∃ v, final.string j = .ok v
  floatLists : ∀ k j, e.renaming.floatLists k j → ∃ v, final.floatList j = .ok v

namespace Compact

/-- An optional index that can be stored one higher. -/
def OptFits (i : Option UInt32) : Prop := ∀ k, i = some k → k.toNat + 1 < 2 ^ 32

def PaintCode.Fits (p : PaintCode) : Prop := ∀ s, p.stroke = some s → OptFits s.dash

/-- Every index that an instruction stores one higher can be. -/
def Instruction.Fits : Instruction → Prop
  | .gradient _ _ _ _ _ t => OptFits t
  | .clip _ _ t => OptFits t
  | .shape _ paint t => paint.Fits ∧ OptFits t
  | .image _ _ t => OptFits t
  | .text _ family _ _ paint t => OptFits family ∧ paint.Fits ∧ OptFits t
  | .use _ t => OptFits t
  | _ => True

open VectorImage.Parser (Reads)

variable {t : TableSet} {α : Type}

/-- A call with the offset it stands at, read off its bytes whatever follows. -/
def ReadsCall (t : TableSet) (bytes : Bytes) (call : Call) : Prop :=
  ∀ (offset : Nat) (rest : Bytes), (readCall t).run ⟨offset, bytes ++ rest⟩ =
    .ok (some (offset, call), ⟨offset + bytes.length, rest⟩)

theorem readsCall_of_operands (code : UInt8) {operands : Bytes} {call : Call}
    (h : (readOperands t code).Reads operands call) :
    ReadsCall t (writeByte code ++ operands) call := by
  intro offset rest
  have hnext : (Parser.next? : Reader (Option UInt8)).run
      ⟨offset, code :: (operands ++ rest)⟩ = .ok (some code, ⟨offset + 1, operands ++ rest⟩) := rfl
  refine Parser.run_bind_eq_ok.mpr ⟨_, _, rfl, Parser.run_bind_eq_ok.mpr ⟨_, _, hnext,
    Parser.run_bind_eq_ok.mpr ⟨_, _, h (offset + 1) rest, ?_⟩⟩⟩
  refine Parser.run_pure_eq_ok.mpr ⟨rfl, ?_⟩
  rw [List.length_append, ← Nat.add_assoc]
  rfl

/-! Indices and the entries behind them. -/

theorem readEntry_reads {entry : UInt32 → Except Error α} {i : UInt32} {v : α}
    (h : entry i = .ok v) : (readEntry entry).Reads (writeVarint i) v :=
  (readVarint_reads i).bind_nil (.ofExcept h)

theorem checked_eq_ok {entry : UInt32 → Except Error α} {i : UInt32}
    (h : ∃ v, entry i = .ok v) : checked entry i = .ok i := by
  obtain ⟨v, hv⟩ := h
  exact map_eq_ok.mpr ⟨v, hv, rfl⟩

theorem readOptEntry_reads {entry : UInt32 → Except Error α} {i : Option UInt32} {v : Option α}
    (h : Option.Rel (fun k a => entry k = .ok a) i v) (hfits : OptFits i) :
    (readOptEntry entry).Reads (writeOptIndex i) v := by
  refine (readOptIndex_reads hfits).bind_nil ?_
  cases h with
  | none => exact .pure none
  | some h => exact (Reads.ofExcept h).map

/-- An entry of a table with an index left has an index below the last. -/
theorem succ_lt_of_lookup {table : Array α} {kind : TableKind} {i : UInt32} {v : α}
    (hsize : table.size < 2 ^ 32) (h : lookup table kind i = .ok v) : i.toNat + 1 < 2 ^ 32 := by
  obtain ⟨hi, -⟩ := Array.getElem?_eq_some_iff.mp (lookup_eq_ok_iff.mp h)
  omega

variable {width : FloatWidth} {e : Encoder}

theorem readOptTransform_reads {m : Option Affine} {i : Option UInt32}
    (h : Encoder.TransformCodes width t m i) (hfits : OptFits i) :
    (readOptTransform t).Reads (writeOptIndex i) (m.map (Affine.round width)) :=
  readOptEntry_reads h hfits

/-! Paints. -/

theorem readSource_reads (s : PaintSource) : readSource.Reads (writeSource s) s := by
  cases s with
  | solid c =>
    refine (readByte_reads 0).bind ?_
    exact (readColor_reads c).bind_nil (.pure _)
  | gradient id =>
    refine (readByte_reads 1).bind ?_
    exact (readVarint_reads id).bind_nil (.pure _)

theorem readFill_reads (f : Fill) : readFill.Reads (writeFill f) f := by
  refine (readSource_reads f.source).bind (Reads.bind_nil (a := f.rule) ?_ (.pure _))
  exact (readByte_reads f.rule.code).bind_nil (.ofExcept (FillRule.ofCode_code f.rule))

/-- A stroke whose dash list has been placed. -/
theorem readStroke_reads (he : e.Placed t) {s : Stroke} {code : StrokeCode}
    (h : Encoder.StrokeCodes width e.floatLists t s code) (hfits : OptFits code.dash) :
    (readStroke t).Reads (writeStroke code) { s.round width with dash := code.dash } := by
  obtain ⟨hsource, hparams, hcap, hjoin, hdash⟩ := h
  have hlist : ∀ d, code.dash = some d → ∃ v, t.floatList d = .ok v := by
    intro d hd
    rw [hd] at hdash
    generalize s.dash = raw at hdash
    cases hdash with
    | some h => exact he.floatLists _ _ h
  have hrel : Option.Rel (fun k j => checked t.floatList k = .ok j) code.dash code.dash := by
    cases hd : code.dash with
    | none => exact .none
    | some d => exact .some (checked_eq_ok (hlist d hd))
  unfold writeStroke
  simp only [List.append_assoc]
  refine (readSource_reads code.source).bind ((readEntry_reads hparams).bind
    (Reads.bind (a := code.cap.code) (readByte_reads _)
      (.ofExcept_bind (LineCap.ofCode_code code.cap)
        (Reads.bind (a := code.join.code) (readByte_reads _)
          (.ofExcept_bind (LineJoin.ofCode_code code.join)
            (Reads.bind_nil (readOptEntry_reads hrel hfits) ?_))))))
  rw [hsource, hcap, hjoin]
  exact .pure _

theorem hasBit_paintFlags (p : PaintCode) :
    hasBit (paintFlags p) 0 = p.fill.isSome ∧ hasBit (paintFlags p) 1 = p.stroke.isSome := by
  unfold paintFlags
  generalize p.fill.isSome = fill
  generalize p.stroke.isSome = stroke
  revert fill stroke
  decide

/-- The paint that is read back: the same but for the numbers and the dash list. -/
theorem readPaint_reads (he : e.Placed t) {p : Paint} {code : PaintCode}
    (h : Encoder.PaintCodes width e.floatLists t p code) (hfits : code.Fits) :
    ∃ q, (readPaint t).Reads (writePaint code) q ∧ (p.round width).Renames e.renaming q := by
  obtain ⟨hfill, hstroke⟩ := h
  obtain ⟨hfillBit, hstrokeBit⟩ := hasBit_paintFlags code
  have hsource (s : PaintSource) : s.Renames e.renaming s := by
    cases s with
    | solid c => exact .solid c
    | gradient i => exact .gradient rfl
  have hfillRel : Option.Rel (Fill.Renames e.renaming) p.fill code.fill := by
    rw [hfill]
    cases p.fill with
    | none => exact .none
    | some f => exact .some ⟨hsource f.source, rfl⟩
  obtain ⟨stroke, hread, hrenames⟩ : ∃ stroke : Option Stroke,
      (readOption (hasBit (paintFlags code) 1) (readStroke t)).Reads
        (writeOption writeStroke code.stroke) stroke ∧
      Option.Rel (Stroke.Renames e.renaming) (p.stroke.map (Stroke.round width)) stroke := by
    obtain ⟨codeFill, codeStroke⟩ := code
    obtain ⟨pFill, pStroke⟩ := p
    cases hstroke with
    | none => exact ⟨none, readOption_reads (R := fun _ _ => False) hstrokeBit .none
        (fun _ _ hf => hf.elim), .none⟩
    | @some s scode h =>
      have hs := readStroke_reads he h (hfits scode rfl)
      refine ⟨some { s.round width with dash := scode.dash },
        readOption_reads (R := fun k a => (readStroke t).Reads (writeStroke k) a) hstrokeBit
          (.some hs) (fun _ _ hk => hk), .some ?_⟩
      exact ⟨hsource _, rfl, rfl, rfl, rfl, h.dash, rfl⟩
  refine ⟨⟨code.fill, stroke⟩, ?_, hfillRel, hrenames⟩
  unfold writePaint
  simp only [List.append_assoc]
  refine (readByte_reads _).bind (Reads.bind ?_ (hread.bind_nil (.pure _)))
  refine readOption_reads (R := Eq) hfillBit ?_ fun k a hka => hka ▸ readFill_reads k
  cases code.fill with
  | none => exact .none
  | some f => exact .some rfl

/-! Calls. -/

private theorem hasBit_groupFlags (m : Option UInt32) (alpha : UInt8) (id : Option UInt32) :
    hasBit (groupFlags m alpha id) 0 = m.isSome ∧ hasBit (groupFlags m alpha id) 1 = (alpha != 255) ∧
      hasBit (groupFlags m alpha id) 2 = id.isSome := by
  unfold groupFlags
  generalize m.isSome = transform
  generalize (alpha != 255) = translucent
  generalize id.isSome = named
  revert transform translucent named
  decide

/-- A name that has been placed, checked and kept as an index. -/
private theorem checkedName_rel (he : e.Placed t) {id i : Option UInt32} (h : e.NamePlaced id i) :
    Option.Rel (fun k j => checked t.string k = .ok j) i i := by
  cases h with
  | none => exact .none
  | some h => exact .some (checked_eq_ok (he.strings _ _ h))

private theorem readGroup_reads (he : e.Placed t) {attrs : GroupAttrs} {m id : Option UInt32}
    (htransform : Encoder.TransformCodes width t attrs.transform m)
    (hexport : e.NamePlaced attrs.exportId id) :
    (readGroup t).Reads (writeByte (groupFlags m attrs.alpha id) ++ writeOption writeVarint m ++
      (if attrs.alpha != 255 then writeByte attrs.alpha else []) ++ writeOption writeVarint id)
      { attrs.round width with exportId := id } := by
  obtain ⟨htransformBit, halphaBit, hexportBit⟩ := hasBit_groupFlags m attrs.alpha id
  have halpha : (readOption (hasBit (groupFlags m attrs.alpha id) 1) readByte).Reads
      (if attrs.alpha != 255 then writeByte attrs.alpha else [])
      (if attrs.alpha != 255 then some attrs.alpha else none) := by
    rw [halphaBit]
    cases attrs.alpha != 255 with
    | true => exact (readByte_reads attrs.alpha).map
    | false => exact .pure none
  have hgetD : (if attrs.alpha != 255 then some attrs.alpha else none).getD 255 = attrs.alpha := by
    by_cases h : attrs.alpha = 255
    · rw [h]
      rfl
    · rw [if_pos (bne_iff_ne.mpr h)]
      rfl
  simp only [List.append_assoc]
  refine (readByte_reads _).bind (Reads.bind (readOption_reads htransformBit htransform
    fun k a hk => readEntry_reads hk) (halpha.bind (Reads.bind_nil (readOption_reads hexportBit
      (checkedName_rel he hexport) fun k j hk => readEntry_reads hk) ?_)))
  rw [hgetD]
  exact .pure _

private theorem readGradient_reads (he : e.Placed t) {g : Gradient}
    {geometry offsets : UInt32} {m : Option UInt32}
    (hgeometry : t.floatList geometry = .ok (g.round width).kind.toFloats)
    (hoffsets : e.renaming.floatLists g.offsets offsets)
    (htransform : Encoder.TransformCodes width t g.transform m) (hfits : OptFits m)
    (hcolors : g.colors.length < 2 ^ 32) :
    (readGradient t).Reads (writeByte g.kind.code ++ (writeVarint geometry ++
      (writeVarint offsets ++ (writeVarint (UInt32.ofNat g.colors.length) ++
        (g.colors.flatMap writeColor ++ (writeByte g.spread.code ++ writeOptIndex m))))))
      { g.round width with offsets := offsets } := by
  have hcode : (g.round width).kind.code = g.kind.code := by
    obtain ⟨kind, offsets, colors, spread, transform⟩ := g
    cases kind <;> rfl
  have hkind := GradientKind.ofFloats_toFloats (g.round width).kind
  rw [hcode] at hkind
  have hcolor (c : Color) : writeColor c ≠ [] := by
    simp [writeColor, writeU32, LittleEndian.write]
  have hcount := length_le_flatMap g.colors fun c _ => hcolor c
  refine (readByte_reads _).bind ((readEntry_reads hgeometry).bind (.ofExcept_bind hkind
    ((readEntry_reads (checked_eq_ok (he.floatLists _ _ hoffsets))).bind
      (readCount_reads hcolors ?_ ((Reads.replicate fun c _ => readColor_reads c).bind
        (Reads.bind (a := g.spread.code) (readByte_reads _)
          (.ofExcept_bind (SpreadMethod.ofCode_code g.spread)
            ((readOptTransform_reads htransform hfits).bind_nil (.pure _)))))))))
  rw [List.length_append]
  omega

private theorem readClip_reads {c : ClipPath} {path : UInt32}
    {m : Option UInt32} (hpath : t.path path = .ok (c.path.round width))
    (htransform : Encoder.TransformCodes width t c.transform m) (hfits : OptFits m) :
    (readClip t).Reads (writeVarint path ++ (writeByte c.rule.code ++ writeOptIndex m))
      (c.round width) := by
  have hrule : readRule.Reads (writeByte c.rule.code) c.rule :=
    (readByte_reads c.rule.code).bind_nil (.ofExcept (FillRule.ofCode_code c.rule))
  exact (readEntry_reads hpath).bind (hrule.bind
    ((readOptTransform_reads htransform hfits).bind_nil (.pure _)))

/-- A shape with its paint read back, whatever tells its outline. -/
private theorem readShape_reads (geometry : Geometry) {q : Paint}
    {code : PaintCode} {transform : Option Affine} {m : Option UInt32}
    (hpaint : (readPaint t).Reads (writePaint code) q)
    (htransform : Encoder.TransformCodes width t transform m) (hfits : OptFits m) :
    (readShape t geometry).Reads (writePaint code ++ writeOptIndex m)
      ⟨geometry, q, transform.map (Affine.round width)⟩ :=
  hpaint.bind ((readOptTransform_reads htransform hfits).bind_nil (.pure _))

private theorem readsCall_shape (he : e.Placed t) {outline : Geometry}
    {paint : Paint} {transform : Option Affine} {geometry : GeometryCode} {code : PaintCode}
    {m : Option UInt32} (hgeometry : Encoder.GeometryCodes width t outline geometry)
    (hpaint : Encoder.PaintCodes width e.floatLists t paint code)
    (htransform : Encoder.TransformCodes width t transform m) (hpaintFits : code.Fits)
    (hfits : OptFits m) :
    ∃ q, ReadsCall t (writeGeometry geometry ++ writePaint code ++ writeOptIndex m)
        (.shape ⟨outline.round width, q, transform.map (Affine.round width)⟩) ∧
      (paint.round width).Renames e.renaming q := by
  obtain ⟨q, hq, hrenames⟩ := readPaint_reads he hpaint hpaintFits
  refine ⟨q, ?_, hrenames⟩
  have hshape (geometry : Geometry) := readShape_reads geometry hq htransform hfits
  cases hgeometry with
  | @path p i h =>
    have hread : (readOperands t 0x10).Reads
        (writeVarint i ++ (writePaint code ++ writeOptIndex m)) _ :=
      (readEntry_reads h).bind (hshape ((Geometry.path p).round width)).map
    simpa only [writeGeometry, List.append_assoc] using readsCall_of_operands _ hread
  | @rect g i h =>
    have hread : (readOperands t 0x11).Reads
        (writeVarint i ++ (writePaint code ++ writeOptIndex m)) _ :=
      (readEntry_reads h).bind (.ofExcept_bind (RectGeom.ofFloats_toFloats _)
        (hshape ((Geometry.rect g).round width)).map)
    simpa only [writeGeometry, List.append_assoc] using readsCall_of_operands _ hread
  | @ellipse g i h =>
    have hread : (readOperands t 0x12).Reads
        (writeVarint i ++ (writePaint code ++ writeOptIndex m)) _ :=
      (readEntry_reads h).bind (.ofExcept_bind (EllipseGeom.ofFloats_toFloats _)
        (hshape ((Geometry.ellipse g).round width)).map)
    simpa only [writeGeometry, List.append_assoc] using readsCall_of_operands _ hread
  | @poly g i h =>
    have hclosed : ((if g.closed then 1 else 0 : UInt8) != 0) = g.closed := by
      cases g.closed <;> rfl
    have hpoly : (readPoly t).Reads
        (writeVarint i ++ writeByte (if g.closed then 1 else 0)) (g.round width) := by
      refine (readEntry_reads h).bind ((readByte_reads _).bind_nil (.ofExcept ?_))
      rw [hclosed]
      exact PolyGeom.ofFloats_toFloats (g.round width)
    have hread : (readOperands t 0x13).Reads
        (writeVarint i ++ writeByte (if g.closed then 1 else 0) ++
          (writePaint code ++ writeOptIndex m)) _ :=
      hpoly.bind (hshape ((Geometry.poly g).round width)).map
    simpa only [writeGeometry, List.append_assoc] using readsCall_of_operands _ hread

private theorem readImage_reads {leaf : ImageLeaf} {image dest : UInt32}
    {m : Option UInt32} (himage : checked t.image image = .ok image)
    (hdest : t.floatList dest = .ok (leaf.dest.round width).toList)
    (htransform : Encoder.TransformCodes width t leaf.transform m) (hfits : OptFits m) :
    (readImage t).Reads (writeVarint image ++ (writeVarint dest ++ writeOptIndex m))
      { leaf.round width with image := image } :=
  (readEntry_reads himage).bind ((readEntry_reads hdest).bind
    ((readOptTransform_reads htransform hfits).bind_nil (.pure _)))

private theorem readText_reads {leaf : TextLeaf} {text params : UInt32}
    {family m : Option UInt32} {code : PaintCode} {q : Paint}
    (htext : checked t.string text = .ok text)
    (hfamily : Option.Rel (fun k j => checked t.string k = .ok j) family family)
    (hfamilyFits : OptFits family)
    (hparams : t.floatList params = .ok [width.round leaf.size, width.round leaf.origin.x,
      width.round leaf.origin.y])
    (hpaint : (readPaint t).Reads (writePaint code) q)
    (htransform : Encoder.TransformCodes width t leaf.transform m) (hfits : OptFits m) :
    (readText t).Reads (writeVarint text ++ (writeOptIndex family ++ (writeVarint params ++
      (writeByte leaf.anchor.code ++ (writePaint code ++ writeOptIndex m)))))
      { leaf.round width with text := text, family := family, paint := q } :=
  (readEntry_reads htext).bind ((readOptEntry_reads hfamily hfamilyFits).bind
    ((readEntry_reads hparams).bind (Reads.bind (a := leaf.anchor.code) (readByte_reads _)
      (.ofExcept_bind (TextAnchor.ofCode_code leaf.anchor)
        (hpaint.bind ((readOptTransform_reads htransform hfits).bind_nil (.pure _)))))))

private theorem readUse_reads {u : UseRef} {target : UInt32}
    {m : Option UInt32} (htarget : checked t.string target = .ok target)
    (htransform : Encoder.TransformCodes width t u.transform m) (hfits : OptFits m) :
    (readUse t).Reads (writeVarint target ++ writeOptIndex m)
      { u.round width with target := target } :=
  (readEntry_reads htarget).bind ((readOptTransform_reads htransform hfits).bind_nil (.pure _))

end Compact

namespace Encoder

open VectorImage.Compact

variable {e : Encoder} {t : TableSet} {width : FloatWidth}

private theorem optFits_of_transformCodes (ht : t.Indexable) {m : Option Affine}
    {i : Option UInt32} (h : TransformCodes width t m i) : OptFits i := by
  rintro k rfl
  cases m with
  | none => cases h
  | some m =>
    cases h with
    | some h => exact succ_lt_of_lookup ht.transforms h

private theorem fits_of_paintCodes (ht : t.Indexable) (he : e.Placed t) {p : Paint}
    {code : PaintCode} (h : PaintCodes width e.floatLists t p code) : code.Fits := by
  intro scode hscode d hd
  have hstroke := h.stroke
  rw [hscode] at hstroke
  generalize p.stroke = stroke at hstroke
  cases hstroke with
  | @some s _ hcodes =>
    have hdash := hcodes.dash
    rw [hd] at hdash
    generalize s.dash = dash at hdash
    cases hdash with
    | some hplace =>
      obtain ⟨v, hv⟩ := he.floatLists _ _ hplace
      exact succ_lt_of_lookup ht.floatLists hv

/-- In tables whose indices all have a successor every index can be stored one higher. -/
theorem Codes.fits (ht : t.Indexable) (he : e.Placed t) {call : Call} {instruction : Instruction}
    (h : e.Codes t call instruction) : instruction.Fits := by
  cases h with
  | beginGroup | endGroup | beginMask | maskContent | endMask => trivial
  | gradient _ _ htransform => exact optFits_of_transformCodes ht htransform
  | clip _ htransform => exact optFits_of_transformCodes ht htransform
  | image _ _ htransform => exact optFits_of_transformCodes ht htransform
  | use _ htransform => exact optFits_of_transformCodes ht htransform
  | shape _ hpaint htransform =>
    exact ⟨fits_of_paintCodes ht he hpaint, optFits_of_transformCodes ht htransform⟩
  | @text leaf _ _ family _ _ _ hfamily _ hpaint htransform =>
    refine ⟨?_, fits_of_paintCodes ht he hpaint, optFits_of_transformCodes ht htransform⟩
    rintro k rfl
    generalize leaf.family = raw at hfamily
    cases hfamily with
    | some hplace =>
      obtain ⟨v, hv⟩ := he.strings _ _ hplace
      exact succ_lt_of_lookup ht.strings hv

end Encoder

open VectorImage.Compact in
/-- What an encoder writes for a call reads back as the call, rounded and with its indices
placed. -/
theorem Encoder.Codes.readsCall {e : Encoder} {t : TableSet} (he : e.Placed t) {call : Call}
    {instruction : Instruction} (h : e.Codes t call instruction) (hfits : instruction.Fits)
    {bytes : Bytes} (hwrite : instruction.write = .ok bytes) :
    ∃ call', ReadsCall t bytes call' ∧ (call.round e.width).Renames e.renaming call' := by
  cases h with
  | @gradient g geometry offsets m hgeometry hoffsets htransform =>
    obtain ⟨hcolors, rfl⟩ := writeLength_bind_eq_ok.mp hwrite
    refine ⟨.gradient { g.round e.width with offsets := offsets }, ?_, .gradient ⟨rfl, hoffsets, rfl, rfl, rfl⟩⟩
    have hread := (readGradient_reads he hgeometry hoffsets htransform hfits hcolors).map
      (g := Call.gradient)
    simpa only [List.append_assoc] using readsCall_of_operands 0x03 hread
  | @beginGroup attrs m id htransform hexport =>
    cases hwrite
    refine ⟨.beginGroup { attrs.round e.width with exportId := id }, ?_, .beginGroup rfl rfl hexport⟩
    have hread := (readGroup_reads he htransform hexport).map (g := Call.beginGroup)
    simpa only [List.append_assoc] using readsCall_of_operands 0x01 hread
  | endGroup =>
    cases hwrite
    exact ⟨_, readsCall_of_operands 0x02 (.pure _), .endGroup⟩
  | clip hpath htransform =>
    cases hwrite
    refine ⟨_, ?_, .clip _⟩
    have hread := (readClip_reads hpath htransform hfits).map (g := Call.clip)
    simpa only [List.append_assoc] using readsCall_of_operands 0x04 hread
  | beginMask =>
    cases hwrite
    exact ⟨_, readsCall_of_operands 0x05 (.pure _), .beginMask⟩
  | maskContent =>
    cases hwrite
    exact ⟨_, readsCall_of_operands 0x06 (.pure _), .maskContent⟩
  | endMask =>
    cases hwrite
    exact ⟨_, readsCall_of_operands 0x07 (.pure _), .endMask⟩
  | shape hgeometry hpaint htransform =>
    cases hwrite
    obtain ⟨q, hread, hrenames⟩ := readsCall_shape he hgeometry hpaint htransform hfits.1 hfits.2
    exact ⟨_, hread, .shape rfl hrenames rfl⟩
  | @image leaf image dest m himage hdest htransform =>
    cases hwrite
    refine ⟨.image { leaf.round e.width with image := image }, ?_, .image himage rfl rfl⟩
    have hread := (readImage_reads (checked_eq_ok (he.images _ _ himage)) hdest htransform hfits).map
      (g := Call.image)
    simpa only [List.append_assoc] using readsCall_of_operands 0x14 hread
  | @text leaf text params family m code htext hfamily hparams hpaint htransform =>
    cases hwrite
    obtain ⟨hfamilyFits, hpaintFits, hfits⟩ := hfits
    obtain ⟨q, hq, hrenames⟩ := readPaint_reads he hpaint hpaintFits
    refine ⟨.text { leaf.round e.width with text := text, family := family, paint := q }, ?_,
      .text ⟨htext, hfamily, rfl, rfl, rfl, hrenames, rfl⟩⟩
    have hread := (readText_reads (checked_eq_ok (he.strings _ _ htext))
      (checkedName_rel he hfamily) hfamilyFits hparams hq htransform hfits).map (g := Call.text)
    simpa only [List.append_assoc] using readsCall_of_operands 0x15 hread
  | @use u target m htarget htransform =>
    cases hwrite
    refine ⟨.use { u.round e.width with target := target }, ?_, .use htarget rfl⟩
    have hread := (readUse_reads (checked_eq_ok (he.strings _ _ htarget)) htransform hfits).map
      (g := Call.use)
    simpa only [List.append_assoc] using readsCall_of_operands 0x16 hread

end VectorImage
