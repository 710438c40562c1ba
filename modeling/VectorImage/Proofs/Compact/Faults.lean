import VectorImage.Compact.Image
import VectorImage.Proofs.Canonical.Table
import VectorImage.Proofs.Compact.Stored

/-!
What stored bytes are refused for. Header, sections, tables and document are refused for their form
only: a table that is read can not run out of indices, since its count fits 32 bits. Instructions
are refused for their form or for a reference that denotes nothing, and for nothing else.
-/

set_option autoImplicit false
set_option relaxedAutoImplicit false

namespace VectorImage

/-- The form is at fault: malformed bytes, or malformed nesting of calls. -/
def Error.IsFormat (e : Error) : Prop := ∃ cause, e = .format cause

/-- A reference is at fault. -/
def Error.IsStructural (e : Error) : Prop := ∃ cause, e = .structural cause

/-- The form or a reference is at fault. -/
def Error.OfContent (e : Error) : Prop := e.IsFormat ∨ e.IsStructural

theorem Error.isFormat (cause : FormatError) : (Error.format cause).IsFormat := ⟨cause, rfl⟩

theorem Error.ofContent_format (cause : FormatError) : (Error.format cause).OfContent :=
  .inl ⟨cause, rfl⟩

theorem Error.ofContent_structural (cause : StructuralError) :
    (Error.structural cause).OfContent := .inr ⟨cause, rfl⟩

/-- If `x` fails, its error satisfies `P`. -/
def FailsWith {ε α : Type} (P : ε → Prop) (x : Except ε α) : Prop := ∀ e, x = .error e → P e

namespace FailsWith

variable {ε α β : Type} {P Q : ε → Prop} {x : Except ε α} {f : α → Except ε β}

theorem ok (a : α) : FailsWith P (.ok a : Except ε α) := fun _ h => nomatch h

theorem error {e : ε} (h : P e) : FailsWith P (.error e : Except ε α) := by
  rintro _ ⟨⟩
  exact h

theorem bind (hx : FailsWith P x) (hf : ∀ a, x = .ok a → FailsWith P (f a)) :
    FailsWith P (x >>= f) := by
  intro e h
  cases hxe : x with
  | error e' =>
    rw [hxe] at h
    cases h
    exact hx e hxe
  | ok a =>
    rw [hxe] at h
    exact hf a hxe e h

theorem map (g : α → β) (hx : FailsWith P x) : FailsWith P (x.map g) := by
  intro e h
  cases x with
  | error e' =>
    cases h
    exact hx e rfl
  | ok a => cases h

theorem mono (hPQ : ∀ e, P e → Q e) (hx : FailsWith P x) : FailsWith Q x :=
  fun e h => hPQ e (hx e h)

/-- A check that passes or fails, and what follows it. -/
theorem ite {c : Prop} [Decidable c] {y : Except ε α} (hx : FailsWith P x) (hy : FailsWith P y) :
    FailsWith P (if c then x else y) := by
  split
  · exact hx
  · exact hy

theorem forM {as : List α} {check : α → Except ε PUnit} (h : ∀ a, FailsWith P (check a)) :
    FailsWith P (as.forM check) := by
  induction as with
  | nil => exact ok _
  | cons a as ih => exact (h a).bind fun _ _ => ih

end FailsWith

namespace Parser

variable {τ ε α β σ : Type}

/-- Wherever `p` fails, its error satisfies `P`. -/
def FailsOnly (P : ε → Prop) (p : Parser τ ε α) : Prop := ∀ i, FailsWith P (p.run i)

namespace FailsOnly

variable {P Q : ε → Prop} {p : Parser τ ε α} {f : α → Parser τ ε β}

theorem pure (a : α) : FailsOnly P (pure a : Parser τ ε α) := fun _ => .ok _

theorem fail {e : ε} (h : P e) : FailsOnly P (fail e : Parser τ ε α) := fun _ => .error h

theorem ofExcept {x : Except ε α} (h : FailsWith P x) :
    FailsOnly P (ofExcept x : Parser τ ε α) := by
  cases x with
  | error e => exact fail (h e rfl)
  | ok a => exact pure a

/-- What follows a reader need only be looked at for what the reader yields. -/
theorem bind_of (hp : FailsOnly P p)
    (hf : ∀ i j a, p.run i = .ok (a, j) → FailsOnly P (f a)) : FailsOnly P (p >>= f) := by
  intro i e h
  rw [run_bind] at h
  split at h
  · next e' he =>
    cases h
    exact hp i e he
  · next a j ha => exact hf i j a ha j e h

theorem bind (hp : FailsOnly P p) (hf : ∀ a, FailsOnly P (f a)) : FailsOnly P (p >>= f) :=
  hp.bind_of fun _ _ a _ => hf a

theorem map (g : α → β) (hp : FailsOnly P p) : FailsOnly P (g <$> p) := hp.bind fun _ => pure _

/-- Nothing is read after a refusal. -/
theorem fail_bind {e : ε} {f : α → Parser τ ε β} (h : P e) :
    FailsOnly P (Parser.fail e >>= f) := fun _ => .error h

theorem mono (hPQ : ∀ e, P e → Q e) (hp : FailsOnly P p) : FailsOnly Q p :=
  fun i => (hp i).mono hPQ

theorem ite {c : Prop} [Decidable c] {q : Parser τ ε α} (hp : FailsOnly P p)
    (hq : FailsOnly P q) : FailsOnly P (if c then p else q) := by
  split
  · exact hp
  · exact hq

theorem input : FailsOnly P (input : Parser τ ε (Input τ)) := fun _ => .ok _

theorem peek? : FailsOnly P (peek? : Parser τ ε (Option τ)) := fun _ => .ok _

theorem next? : FailsOnly P (next? : Parser τ ε (Option τ)) := by
  rintro ⟨offset, rest⟩
  cases rest with
  | nil => exact .ok _
  | cons t rest => exact .ok _

theorem takeExactly {n : Nat} {short : Input τ → ε} (h : ∀ i, P (short i)) :
    FailsOnly P (takeExactly n short) := by
  intro i
  unfold Parser.takeExactly
  dsimp only
  split
  · exact .ok _
  · exact .error (h i)

theorem mapError {g : ε → ε} (h : ∀ e, P (g e)) : FailsOnly P (p.mapError g) := by
  intro i
  unfold Parser.mapError
  dsimp only
  split
  · exact .error (h _)
  · exact .ok _

theorem replicate (hp : FailsOnly P p) (n : Nat) : FailsOnly P (replicate p n) := by
  induction n with
  | zero => exact pure []
  | succ n ih => exact hp.bind fun a => ih.bind fun rest => pure (a :: rest)

/-- A repeated reader fails where one of its steps does. -/
theorem iterate {step : σ → Parser τ ε (Option σ)} (hstep : ∀ s, FailsOnly P (step s)) (s : σ) :
    FailsOnly P (iterate step s) := by
  -- by induction on what is left, of which every step that is followed by another takes some
  intro i
  rw [run_iterate]
  refine .map _ ?_
  induction hn : i.rest.length using Nat.strongRecOn generalizing s i with
  | ind n ih =>
    intro e h
    rw [iterateFrom] at h
    split at h
    · next he =>
      cases h
      exact hstep s i e he
    · cases h
    · next t j ht =>
      split at h
      · next hforward =>
        have hless := ((step s).reaches ht).length_lt hforward
        split at h
        · next he =>
          cases h
          exact ih _ (by omega) t j rfl e he
        · cases h
      · cases h

theorem ofContent {p : Parser τ Error α} (hp : FailsOnly Error.IsFormat p) :
    FailsOnly Error.OfContent p := hp.mono fun _ => .inl

theorem parse (hp : FailsOnly P p) (tokens : List τ) : FailsWith P (p.parse tokens) :=
  .map _ (hp _)

end FailsOnly

end Parser

namespace Compact

open VectorImage.Parser (FailsOnly)

variable {α : Type}

/-! Readers that are refused for their form only. -/

theorem readBytes_format (n : Nat) : FailsOnly Error.IsFormat (readBytes n) :=
  .takeExactly fun _ => Error.isFormat _

theorem readWord_format (k : Nat) : FailsOnly Error.IsFormat (readWord k) :=
  (readBytes_format k).map _

theorem readByte_format : FailsOnly Error.IsFormat readByte := (readWord_format 1).map _

theorem readU32_format : FailsOnly Error.IsFormat readU32 := (readWord_format 4).map _

theorem readBinary64_format : FailsOnly Error.IsFormat readBinary64 := (readWord_format 8).map _

theorem readFloat_format (width : FloatWidth) : FailsOnly Error.IsFormat (readFloat width) := by
  cases width with
  | binary32 => exact (readWord_format 4).map _
  | binary64 => exact readBinary64_format

theorem readDigits_format (groups : Nat) (shift value : UInt32) :
    FailsOnly Error.IsFormat (readDigits groups shift value) := by
  induction groups generalizing shift value with
  | zero => exact .fail (Error.isFormat _)
  | succ groups ih =>
    refine readByte_format.bind fun b => ?_
    exact .ite (.fail_bind (Error.isFormat _)) (.ite (.pure _) (ih _ _))

theorem readVarint_format : FailsOnly Error.IsFormat readVarint := readDigits_format 5 0 0

theorem readOptIndex_format : FailsOnly Error.IsFormat readOptIndex := readVarint_format.map _

theorem readCount_format : FailsOnly Error.IsFormat readCount := by
  refine readVarint_format.bind fun n => FailsOnly.input.bind fun i => ?_
  exact .ite (.fail_bind (Error.isFormat _)) (.pure _)

theorem readColor_format : FailsOnly Error.IsFormat readColor := readU32_format.map _

theorem readOption_fails {P : Error → Prop} {read : Reader α} (present : Bool)
    (hread : FailsOnly P read) : FailsOnly P (readOption present read) :=
  .ite (hread.map some) (.pure none)

theorem readRaster_format : FailsOnly Error.IsFormat readRaster :=
  readU32_format.bind fun _ => readU32_format.bind fun _ => readCount_format.bind fun length =>
    (readBytes_format length).bind fun _ => .pure _

theorem readString_format : FailsOnly Error.IsFormat readString := by
  refine readCount_format.bind fun length => (readBytes_format length).bind fun bytes => ?_
  cases Utf8.decode bytes with
  | ok s => exact .pure s
  | error fault => exact .fail (Error.isFormat _)

theorem readFloats_format (width : FloatWidth) (n : Nat) :
    FailsOnly Error.IsFormat (readFloats width n) := .replicate (readFloat_format width) n

theorem readFloatList_format (width : FloatWidth) :
    FailsOnly Error.IsFormat (readFloatList width) :=
  readCount_format.bind (readFloats_format width)

theorem readAffine_format (width : FloatWidth) : FailsOnly Error.IsFormat (readAffine width) :=
  have hread := readFloat_format width
  hread.bind fun _ => hread.bind fun _ => hread.bind fun _ => hread.bind fun _ =>
    hread.bind fun _ => hread.bind fun _ => .pure _

theorem readVerb_format : FailsOnly Error.IsFormat readVerb := by
  refine readByte_format.bind fun code => .ofExcept ?_
  unfold Verb.ofCode
  split
  case h_6 => exact .error (Error.isFormat _)
  all_goals exact .ok _

theorem readPath_format (width : FloatWidth) : FailsOnly Error.IsFormat (readPath width) :=
  readCount_format.bind fun n => (FailsOnly.replicate readVerb_format n).bind fun _ =>
    (readFloats_format width _).bind fun _ =>
      .ofExcept (.ite (.ok _) (.error (Error.isFormat _)))

/-- A table whose entries have room is refused for the form of an entry. -/
theorem readTable_format [Keyed α] {read : Reader α} (hread : FailsOnly Error.IsFormat read)
    {n : Nat} {t : CanonicalTable α} (hroom : t.size + n ≤ 2 ^ 32) :
    FailsOnly Error.IsFormat (readTable read n t) := by
  induction n generalizing t with
  | zero => exact .pure t
  | succ n ih =>
    refine hread.bind fun v => ?_
    have hpush := CanonicalTable.pushIndexed_of_room (by omega : t.size < 2 ^ 32) v
    refine (FailsOnly.ofExcept (hpush ▸ .ok _)).bind_of fun i j p hp => ?_
    obtain ⟨hp, -⟩ := Parser.run_ofExcept_eq_ok.mp hp
    cases hpush.symm.trans hp
    refine ih ?_
    rw [CanonicalTable.size_push]
    omega

theorem readCounted_format [Keyed α] {read : Reader α} (hread : FailsOnly Error.IsFormat read) :
    FailsOnly Error.IsFormat (readCounted read) := by
  refine readCount_format.bind_of fun i j n hn => readTable_format hread ?_
  have hfit := readCount_lt i j n hn
  show 0 + n ≤ 2 ^ 32
  omega

/-- Tables are refused for their form only. -/
theorem readTables_format (width : FloatWidth) : FailsOnly Error.IsFormat (readTables width) :=
  (readCounted_format readRaster_format).bind fun _ =>
    (readCounted_format readString_format).bind fun _ =>
      (readCounted_format (readFloatList_format width)).bind fun _ =>
        (readCounted_format (readAffine_format width)).bind fun _ =>
          (readCounted_format (readPath_format width)).bind fun _ => .pure _

theorem readRect_format : FailsOnly Error.IsFormat readRect :=
  readBinary64_format.bind fun _ => readBinary64_format.bind fun _ =>
    readBinary64_format.bind fun _ => readBinary64_format.bind fun _ => .pure _

/-- The document is refused for its form only. -/
theorem readDocument_format : FailsOnly Error.IsFormat readDocument :=
  readByte_format.bind fun _ => (readOption_fails _ readBinary64_format).bind fun _ =>
    (readOption_fails _ readBinary64_format).bind fun _ =>
      (readOption_fails _ readRect_format).bind fun _ =>
        (readOption_fails _ readColor_format).bind fun _ => .pure _

/-- The header is refused for its form only. -/
theorem readHeader_format : FailsOnly Error.IsFormat Header.read := by
  refine (readBytes_format 4).bind fun first => .ite (.fail_bind (Error.isFormat _)) ?_
  refine (readWord_format 2).bind fun major => (readWord_format 2).bind fun minor =>
    .ite (.fail_bind (Error.isFormat _)) ?_
  exact readByte_format.bind fun flags => (readWord_format 2).bind fun extension =>
    (readBytes_format extension).bind fun _ => .pure _

theorem readSection_format (which : Section) : FailsOnly Error.IsFormat (readSection which) :=
  FailsOnly.bind (.mapError fun _ => Error.isFormat _) fun _ => .mapError fun _ => Error.isFormat _

theorem skipSections_format : FailsOnly Error.IsFormat skipSections := by
  refine .iterate (fun _ => FailsOnly.peek?.bind fun t => ?_) ()
  cases t with
  | none => exact .pure _
  | some _ => exact (readSection_format .extension).bind fun _ => .pure _

/-! Instructions, which may also name what is not there. -/

theorem lookup_fails {table : Array α} {kind : TableKind} (index : UInt32) :
    FailsWith Error.OfContent (lookup table kind index) := by
  unfold lookup
  split
  · exact .ok _
  · exact .error (Error.ofContent_structural _)

section Instructions

variable {t : TableSet} {entry : UInt32 → Except Error α}

theorem readEntry_fails (hentry : ∀ i, FailsWith Error.OfContent (entry i)) :
    FailsOnly Error.OfContent (readEntry entry) :=
  readVarint_format.ofContent.bind fun i => .ofExcept (hentry i)

theorem checked_fails (hentry : ∀ i, FailsWith Error.OfContent (entry i)) (i : UInt32) :
    FailsWith Error.OfContent (checked entry i) := .map _ (hentry i)

theorem readOptEntry_fails (hentry : ∀ i, FailsWith Error.OfContent (entry i)) :
    FailsOnly Error.OfContent (readOptEntry entry) := by
  refine readOptIndex_format.ofContent.bind fun o => ?_
  cases o with
  | none => exact .pure _
  | some i => exact (FailsOnly.ofExcept (hentry i)).map _

theorem readOptTransform_fails : FailsOnly Error.OfContent (readOptTransform t) :=
  readOptEntry_fails lookup_fails

theorem readSource_fails : FailsOnly Error.OfContent readSource := by
  refine readByte_format.ofContent.bind fun tag => ?_
  split
  · exact (readColor_format.map _).ofContent
  · exact (readVarint_format.map _).ofContent
  · exact .fail (Error.ofContent_format _)

theorem readRule_fails : FailsOnly Error.OfContent readRule := by
  refine readByte_format.ofContent.bind fun code => .ofExcept ?_
  unfold FillRule.ofCode
  split
  case h_3 => exact .error (Error.ofContent_format _)
  all_goals exact .ok _

theorem readFill_fails : FailsOnly Error.OfContent readFill :=
  readSource_fails.bind fun _ => readRule_fails.bind fun _ => .pure _

theorem lineCap_fails (code : UInt8) : FailsWith Error.OfContent (LineCap.ofCode code) := by
  unfold LineCap.ofCode
  split
  case h_4 => exact .error (Error.ofContent_format _)
  all_goals exact .ok _

theorem lineJoin_fails (code : UInt8) : FailsWith Error.OfContent (LineJoin.ofCode code) := by
  unfold LineJoin.ofCode
  split
  case h_4 => exact .error (Error.ofContent_format _)
  all_goals exact .ok _

theorem spreadMethod_fails (code : UInt8) :
    FailsWith Error.OfContent (SpreadMethod.ofCode code) := by
  unfold SpreadMethod.ofCode
  split
  case h_4 => exact .error (Error.ofContent_format _)
  all_goals exact .ok _

theorem anchor_fails (code : UInt8) : FailsWith Error.OfContent (TextAnchor.ofCode code) := by
  unfold TextAnchor.ofCode
  split
  case h_4 => exact .error (Error.ofContent_format _)
  all_goals exact .ok _

theorem gradientKind_fails (code : UInt8) (floats : List Binary64) :
    FailsWith Error.OfContent (GradientKind.ofFloats code floats) := by
  unfold GradientKind.ofFloats
  split
  case h_3 => exact .error (Error.ofContent_format _)
  all_goals exact .ok _

theorem rectGeom_fails (floats : List Binary64) :
    FailsWith Error.OfContent (RectGeom.ofFloats floats) := by
  unfold RectGeom.ofFloats
  split
  · exact .ok _
  · exact .error (Error.ofContent_format _)

theorem ellipseGeom_fails (floats : List Binary64) :
    FailsWith Error.OfContent (EllipseGeom.ofFloats floats) := by
  unfold EllipseGeom.ofFloats
  split
  · exact .ok _
  · exact .error (Error.ofContent_format _)

theorem points_fail (floats : List Binary64) :
    FailsWith Error.OfContent (pointsOfFloats floats) := by
  fun_induction pointsOfFloats floats with
  | case1 => exact .ok _
  | case2 => exact .error (Error.ofContent_format _)
  | case3 x y rest ih => exact ih.map _

theorem readStroke_fails : FailsOnly Error.OfContent (readStroke t) := by
  refine readSource_fails.bind fun source => (readEntry_fails lookup_fails).bind fun floats => ?_
  split
  · exact readByte_format.ofContent.bind fun cap => (FailsOnly.ofExcept (lineCap_fails cap)).bind
      fun _ => readByte_format.ofContent.bind fun join =>
        (FailsOnly.ofExcept (lineJoin_fails join)).bind fun _ =>
          (readOptEntry_fails (checked_fails lookup_fails)).bind fun _ => .pure _
  · exact .fail (Error.ofContent_format _)

theorem readPaint_fails : FailsOnly Error.OfContent (readPaint t) :=
  readByte_format.ofContent.bind fun _ => (readOption_fails _ readFill_fails).bind fun _ =>
    (readOption_fails _ readStroke_fails).bind fun _ => .pure _

theorem readGroup_fails : FailsOnly Error.OfContent (readGroup t) :=
  readByte_format.ofContent.bind fun _ =>
    (readOption_fails _ (readEntry_fails lookup_fails)).bind fun _ =>
      (readOption_fails _ readByte_format.ofContent).bind fun _ =>
        (readOption_fails _ (readEntry_fails (checked_fails lookup_fails))).bind fun _ => .pure _

theorem readGradient_fails : FailsOnly Error.OfContent (readGradient t) :=
  readByte_format.ofContent.bind fun code => (readEntry_fails lookup_fails).bind fun floats =>
    (FailsOnly.ofExcept (gradientKind_fails code floats)).bind fun _ =>
      (readEntry_fails (checked_fails lookup_fails)).bind fun _ =>
        readCount_format.ofContent.bind fun count =>
          (FailsOnly.replicate readColor_format.ofContent count).bind fun _ =>
            readByte_format.ofContent.bind fun spread =>
              (FailsOnly.ofExcept (spreadMethod_fails spread)).bind fun _ =>
                readOptTransform_fails.bind fun _ => .pure _

theorem readClip_fails : FailsOnly Error.OfContent (readClip t) :=
  (readEntry_fails lookup_fails).bind fun _ => readRule_fails.bind fun _ =>
    readOptTransform_fails.bind fun _ => .pure _

theorem readShape_fails (geometry : Geometry) :
    FailsOnly Error.OfContent (readShape t geometry) :=
  readPaint_fails.bind fun _ => readOptTransform_fails.bind fun _ => .pure _

theorem readPoly_fails : FailsOnly Error.OfContent (readPoly t) :=
  (readEntry_fails lookup_fails).bind fun floats => readByte_format.ofContent.bind fun _ =>
    .ofExcept ((points_fail floats).map _)

theorem readImage_fails : FailsOnly Error.OfContent (readImage t) := by
  refine (readEntry_fails (checked_fails lookup_fails)).bind fun image =>
    (readEntry_fails lookup_fails).bind fun floats => ?_
  split
  · exact readOptTransform_fails.bind fun _ => .pure _
  · exact .fail (Error.ofContent_format _)

theorem readText_fails : FailsOnly Error.OfContent (readText t) := by
  refine (readEntry_fails (checked_fails lookup_fails)).bind fun text =>
    (readOptEntry_fails (checked_fails lookup_fails)).bind fun family =>
      (readEntry_fails lookup_fails).bind fun floats => ?_
  split
  · exact readByte_format.ofContent.bind fun code => (FailsOnly.ofExcept (anchor_fails code)).bind
      fun _ => readPaint_fails.bind fun _ => readOptTransform_fails.bind fun _ => .pure _
  · exact .fail (Error.ofContent_format _)

theorem readUse_fails : FailsOnly Error.OfContent (readUse t) :=
  (readEntry_fails (checked_fails lookup_fails)).bind fun _ =>
    readOptTransform_fails.bind fun _ => .pure _

/-- Whatever the opcode, its operands are refused for their form or for a reference. -/
theorem readOperands_fails (code : UInt8) : FailsOnly Error.OfContent (readOperands t code) := by
  unfold readOperands
  split
  case h_1 => exact readGroup_fails.map _
  case h_3 => exact readGradient_fails.map _
  case h_4 => exact readClip_fails.map _
  case h_8 => exact (readEntry_fails lookup_fails).bind fun _ => (readShape_fails _).map _
  case h_9 =>
    exact (readEntry_fails lookup_fails).bind fun floats =>
      (FailsOnly.ofExcept (rectGeom_fails floats)).bind fun _ => (readShape_fails _).map _
  case h_10 =>
    exact (readEntry_fails lookup_fails).bind fun floats =>
      (FailsOnly.ofExcept (ellipseGeom_fails floats)).bind fun _ => (readShape_fails _).map _
  case h_11 => exact readPoly_fails.bind fun _ => (readShape_fails _).map _
  case h_12 => exact readImage_fails.map _
  case h_13 => exact readText_fails.map _
  case h_14 => exact readUse_fails.map _
  case h_15 => exact .fail (Error.ofContent_format _)
  all_goals exact .pure _

theorem readCall_fails : FailsOnly Error.OfContent (readCall t) := by
  refine FailsOnly.input.bind fun i => FailsOnly.next?.bind fun o => ?_
  cases o with
  | none => exact .pure _
  | some code => exact (readOperands_fails code).bind fun _ => .pure _

end Instructions

end Compact

namespace Nesting

variable {n : Nesting}

theorem checkIndex_fails (kind : TableKind) (index : UInt32) (length : Nat) :
    FailsWith Error.OfContent (checkIndex kind index length) :=
  .ite (.ok _) (.error (Error.ofContent_structural _))

theorem enterTree_fails (call : TreeCall) : FailsWith Error.OfContent (n.enterTree call) :=
  .ite (.error (Error.ofContent_format _)) (.ok _)

theorem checkPaint_fails (gradients : Nat) (p : Paint) :
    FailsWith Error.OfContent (n.checkPaint gradients p) := by
  refine (FailsWith.forM fun id => checkIndex_fails _ id _).bind fun _ _ => ?_
  split
  · exact checkIndex_fails _ _ _
  · exact .ok _

theorem checkString_fails (id : Option StringId) : FailsWith Error.OfContent (n.checkString id) := by
  cases id with
  | none => exact .ok _
  | some id => exact checkIndex_fails _ _ _

theorem checkExport_fails (id : Option StringId) : FailsWith Error.OfContent (n.checkExport id) := by
  refine (checkString_fails id).bind fun _ _ => ?_
  cases id with
  | none => exact .ok _
  | some id => exact .ite (.error (Error.ofContent_structural _)) (.ok _)

theorem checkTarget_fails (id : StringId) : FailsWith Error.OfContent (n.checkTarget id) := by
  refine (checkIndex_fails _ id _).bind fun _ _ => ?_
  exact .ite (.error (Error.ofContent_structural _))
    (.ite (.error (Error.ofContent_structural _)) (.ok _))

/-- A call is refused for its place among the others or for a reference. -/
theorem accept_fails (gradients : Nat) (call : Call) :
    FailsWith Error.OfContent (n.accept gradients call) := by
  cases call with
  | init tables => exact .ite (.ok _) (.error (Error.ofContent_format _))
  | document d =>
    unfold accept
    dsimp only
    split
    case h_2 => exact .ok _
    all_goals exact .error (Error.ofContent_format _)
  | gradient g =>
    exact (enterTree_fails _).bind fun _ _ => (checkIndex_fails _ _ _).bind fun _ _ => .ok _
  | beginGroup attrs =>
    exact (enterTree_fails _).bind fun _ _ => (checkExport_fails _).bind fun _ _ => .ok _
  | endGroup =>
    unfold accept endGroup
    dsimp only
    split
    case h_1 => exact .ok _
    all_goals exact .error (Error.ofContent_format _)
  | clip c => exact enterTree_fails _
  | beginMask => exact (enterTree_fails _).bind fun _ _ => .ok _
  | maskContent =>
    unfold accept maskContent
    dsimp only
    split
    · exact .ok _
    · exact .error (Error.ofContent_format _)
  | endMask =>
    unfold accept endMask
    dsimp only
    split
    case h_1 => exact .ok _
    all_goals exact .error (Error.ofContent_format _)
  | shape s =>
    exact (enterTree_fails _).bind fun _ _ => (checkPaint_fails _ _).bind fun _ _ => .ok _
  | image leaf =>
    exact (enterTree_fails _).bind fun _ _ => (checkIndex_fails _ _ _).bind fun _ _ => .ok _
  | text leaf =>
    exact (enterTree_fails _).bind fun _ _ => (checkPaint_fails _ _).bind fun _ _ =>
      (checkIndex_fails _ _ _).bind fun _ _ => (checkString_fails _).bind fun _ _ => .ok _
  | use ref =>
    exact (enterTree_fails _).bind fun _ _ => (checkTarget_fails _).bind fun _ _ => .ok _

theorem checkClosed_fails : FailsWith Error.OfContent n.checkClosed := by
  refine .ite (.error (Error.ofContent_format _)) ?_
  split
  case h_1 => exact .ok _
  all_goals exact .error (Error.ofContent_format _)

end Nesting

namespace Compact

/-- A stream of instructions is refused for its form or for a reference. -/
theorem scan_fails (t : TableSet) (ops : Bytes) : FailsWith Error.OfContent (scan t ops) := by
  have hstep (s : Scan) : Parser.FailsOnly Error.OfContent (scanStep t s) := by
    refine readCall_fails.bind fun o => ?_
    cases o with
    | none => exact .pure _
    | some p => exact (Parser.FailsOnly.ofExcept (Nesting.accept_fails _ _)).bind fun _ => .pure _
  exact ((Parser.FailsOnly.iterate hstep _).parse ops).bind fun s _ =>
    Nesting.checkClosed_fails.bind fun _ _ => .ok _

end Compact

end VectorImage
