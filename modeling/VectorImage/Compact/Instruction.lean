import VectorImage.Compact.Tables

/-!
Instructions of the stored tree: calls whose values are named by table index. Writing gives an
opcode and its operands; reading resolves every index on the way and gives back the call, so an
index that names nothing is found where it stands.
-/

set_option autoImplicit false
set_option relaxedAutoImplicit false

namespace VectorImage

namespace Compact

/-- A stroke with its numbers and its dash list in the float-list table. -/
structure StrokeCode where
  source : PaintSource
  params : UInt32
  cap : LineCap
  join : LineJoin
  dash : Option UInt32
  deriving DecidableEq, Inhabited

structure PaintCode where
  fill : Option Fill
  stroke : Option StrokeCode
  deriving DecidableEq, Inhabited

/-- An outline by the index of its coordinates. -/
inductive GeometryCode
  | path (index : UInt32)
  | rect (index : UInt32)
  | ellipse (index : UInt32)
  | poly (index : UInt32) (closed : Bool)
  deriving DecidableEq, Inhabited

inductive Instruction
  | beginGroup (transform : Option UInt32) (alpha : UInt8) (exportId : Option UInt32)
  | endGroup
  | gradient (kind : UInt8) (geometry offsets : UInt32) (colors : List Color)
      (spread : SpreadMethod) (transform : Option UInt32)
  | clip (path : UInt32) (rule : FillRule) (transform : Option UInt32)
  | beginMask
  | maskContent
  | endMask
  | shape (geometry : GeometryCode) (paint : PaintCode) (transform : Option UInt32)
  | image (image dest : UInt32) (transform : Option UInt32)
  | text (text : UInt32) (family : Option UInt32) (params : UInt32) (anchor : TextAnchor)
      (paint : PaintCode) (transform : Option UInt32)
  | use (target : UInt32) (transform : Option UInt32)
  deriving DecidableEq, Inhabited

/-! Writing. -/

def writeSource : PaintSource → Bytes
  | .solid c => writeByte 0 ++ writeColor c
  | .gradient id => writeByte 1 ++ writeVarint id

def writeFill (f : Fill) : Bytes := writeSource f.source ++ writeByte f.rule.code

def writeStroke (s : StrokeCode) : Bytes :=
  writeSource s.source ++ writeVarint s.params ++ writeByte s.cap.code ++ writeByte s.join.code ++
    writeOptIndex s.dash

def paintFlags (p : PaintCode) : UInt8 :=
  (if p.fill.isSome then 1 else 0) + (if p.stroke.isSome then 2 else 0)

def writePaint (p : PaintCode) : Bytes :=
  writeByte (paintFlags p) ++ writeOption writeFill p.fill ++ writeOption writeStroke p.stroke

def writeGeometry : GeometryCode → Bytes
  | .path i => writeByte 0x10 ++ writeVarint i
  | .rect i => writeByte 0x11 ++ writeVarint i
  | .ellipse i => writeByte 0x12 ++ writeVarint i
  | .poly i closed => writeByte 0x13 ++ writeVarint i ++ writeByte (if closed then 1 else 0)

/-- Alpha is written unless it is opaque. -/
def groupFlags (transform : Option UInt32) (alpha : UInt8) (exportId : Option UInt32) : UInt8 :=
  (if transform.isSome then 1 else 0) + (if alpha != 255 then 2 else 0) +
    (if exportId.isSome then 4 else 0)

def Instruction.write : Instruction → Except Error Bytes
  | .beginGroup transform alpha exportId => .ok
    (writeByte 0x01 ++ writeByte (groupFlags transform alpha exportId) ++
      writeOption writeVarint transform ++ (if alpha != 255 then writeByte alpha else []) ++
      writeOption writeVarint exportId)
  | .endGroup => .ok (writeByte 0x02)
  | .gradient kind geometry offsets colors spread transform => do
    let count ← writeLength colors.length
    return writeByte 0x03 ++ writeByte kind ++ writeVarint geometry ++ writeVarint offsets ++
      count ++ colors.flatMap writeColor ++ writeByte spread.code ++ writeOptIndex transform
  | .clip path rule transform => .ok
    (writeByte 0x04 ++ writeVarint path ++ writeByte rule.code ++ writeOptIndex transform)
  | .beginMask => .ok (writeByte 0x05)
  | .maskContent => .ok (writeByte 0x06)
  | .endMask => .ok (writeByte 0x07)
  | .shape geometry paint transform => .ok
    (writeGeometry geometry ++ writePaint paint ++ writeOptIndex transform)
  | .image id dest transform => .ok
    (writeByte 0x14 ++ writeVarint id ++ writeVarint dest ++ writeOptIndex transform)
  | .text id family params anchor paint transform => .ok
    (writeByte 0x15 ++ writeVarint id ++ writeOptIndex family ++ writeVarint params ++
      writeByte anchor.code ++ writePaint paint ++ writeOptIndex transform)
  | .use target transform => .ok
    (writeByte 0x16 ++ writeVarint target ++ writeOptIndex transform)

/-! Reading. -/

variable (t : TableSet)

/-- An index and the table entry it names. -/
def readEntry {α : Type} (entry : UInt32 → Except Error α) : Reader α := do
  let i ← readVarint
  Parser.ofExcept (entry i)

/-- An index that names an entry, kept as an index. -/
def checked {α : Type} (entry : UInt32 → Except Error α) (i : UInt32) : Except Error UInt32 :=
  (entry i).map fun _ => i

/-- An optional index and the table entry it names. -/
def readOptEntry {α : Type} (entry : UInt32 → Except Error α) : Reader (Option α) := do
  match ← readOptIndex with
  | some i => some <$> Parser.ofExcept (entry i)
  | none => return none

def readOptTransform : Reader (Option Affine) := readOptEntry t.transform

def readSource : Reader PaintSource := do
  let tag ← readByte
  match tag.toNat with
  | 0 => return .solid (← readColor)
  | 1 => return .gradient (← readVarint)
  | _ => Parser.fail (.format (.unknownPaintSource tag))

def readRule : Reader FillRule := do
  let code ← readByte
  Parser.ofExcept (FillRule.ofCode code)

def readFill : Reader Fill := do
  let source ← readSource
  let rule ← readRule
  return ⟨source, rule⟩

def readStroke : Reader Stroke := do
  let source ← readSource
  match ← readEntry t.floatList with
  | [width, miterLimit, dashOffset] =>
    let cap ← Parser.ofExcept (LineCap.ofCode (← readByte))
    let join ← Parser.ofExcept (LineJoin.ofCode (← readByte))
    let dash ← readOptEntry (checked t.floatList)
    return ⟨source, width, cap, join, miterLimit, dash, dashOffset⟩
  | floats => Parser.fail (.format (.operandCount .stroke floats.length))

def readPaint : Reader Paint := do
  let flags ← readByte
  let fill ← readOption (hasBit flags 0) readFill
  let stroke ← readOption (hasBit flags 1) (readStroke t)
  return ⟨fill, stroke⟩

def readGroup : Reader GroupAttrs := do
  let flags ← readByte
  let transform ← readOption (hasBit flags 0) (readEntry t.transform)
  let alpha ← readOption (hasBit flags 1) readByte
  let exportId ← readOption (hasBit flags 2) (readEntry (checked t.string))
  return ⟨transform, alpha.getD 255, exportId⟩

def readGradient : Reader Gradient := do
  let code ← readByte
  let floats ← readEntry t.floatList
  let kind ← Parser.ofExcept (GradientKind.ofFloats code floats)
  let offsets ← readEntry (checked t.floatList)
  let count ← readCount
  let colors ← Parser.replicate readColor count
  let spread ← Parser.ofExcept (SpreadMethod.ofCode (← readByte))
  let transform ← readOptTransform t
  return ⟨kind, offsets, colors, spread, transform⟩

def readClip : Reader ClipPath := do
  let path ← readEntry t.path
  let rule ← readRule
  let transform ← readOptTransform t
  return ⟨path, rule, transform⟩

/-- The paint and transform that end every shape. -/
def readShape (geometry : Geometry) : Reader Shape := do
  let paint ← readPaint t
  let transform ← readOptTransform t
  return ⟨geometry, paint, transform⟩

def readPoly : Reader PolyGeom := do
  let floats ← readEntry t.floatList
  let closed ← readByte
  Parser.ofExcept (PolyGeom.ofFloats floats (closed != 0))

def readImage : Reader ImageLeaf := do
  let image ← readEntry (checked t.image)
  match ← readEntry t.floatList with
  | [x0, y0, x1, y1] =>
    let transform ← readOptTransform t
    return ⟨image, ⟨x0, y0, x1, y1⟩, transform⟩
  | floats => Parser.fail (.format (.operandCount .image floats.length))

def readText : Reader TextLeaf := do
  let text ← readEntry (checked t.string)
  let family ← readOptEntry (checked t.string)
  match ← readEntry t.floatList with
  | [size, x, y] =>
    let anchor ← Parser.ofExcept (TextAnchor.ofCode (← readByte))
    let paint ← readPaint t
    let transform ← readOptTransform t
    return ⟨text, family, size, ⟨x, y⟩, anchor, paint, transform⟩
  | floats => Parser.fail (.format (.operandCount .text floats.length))

def readUse : Reader UseRef := do
  let target ← readEntry (checked t.string)
  let transform ← readOptTransform t
  return ⟨target, transform⟩

/-- The call of an opcode, its operands read. -/
def readOperands (code : UInt8) : Reader Call :=
  match code.toNat with
  | 0x01 => .beginGroup <$> readGroup t
  | 0x02 => return .endGroup
  | 0x03 => .gradient <$> readGradient t
  | 0x04 => .clip <$> readClip t
  | 0x05 => return .beginMask
  | 0x06 => return .maskContent
  | 0x07 => return .endMask
  | 0x10 => do
    let path ← readEntry t.path
    .shape <$> readShape t (.path path)
  | 0x11 => do
    let floats ← readEntry t.floatList
    let geom ← Parser.ofExcept (RectGeom.ofFloats floats)
    .shape <$> readShape t (.rect geom)
  | 0x12 => do
    let floats ← readEntry t.floatList
    let geom ← Parser.ofExcept (EllipseGeom.ofFloats floats)
    .shape <$> readShape t (.ellipse geom)
  | 0x13 => do
    let geom ← readPoly t
    .shape <$> readShape t (.poly geom)
  | 0x14 => .image <$> readImage t
  | 0x15 => .text <$> readText t
  | 0x16 => .use <$> readUse t
  | _ => Parser.fail (.format (.unknownOpcode code))

/-- The next call with the offset it stands at, if there is one. -/
def readCall : Reader (Option (Nat × Call)) := do
  let i ← Parser.input
  match ← Parser.next? with
  | none => return none
  | some code =>
    let call ← readOperands t code
    return some (i.offset, call)

end Compact

end VectorImage
