import VectorImage.Call.Backend
import VectorImage.Compact.Image

/-!
The backend that encodes calls into a compact image. Every value of the tree goes into a table,
rounded to the image's width first; each call becomes one instruction. A gradient whose rounded
definition has been registered before is not registered again.
-/

set_option autoImplicit false
set_option relaxedAutoImplicit false

namespace VectorImage

/-- Besides the tables and the instructions so far, an encoder keeps where each entry of the
given tables went. -/
structure Encoder where
  width : FloatWidth
  interner : Interner
  images : Array UInt32
  strings : Array UInt32
  floatLists : Array UInt32
  gradients : CanonicalTable Gradient
  document : Document
  ops : Array UInt8
  deriving Inhabited

namespace Encoder

open VectorImage.Compact

def start (width : FloatWidth) (interner : Interner) : Encoder where
  width := width
  interner := interner
  images := #[]
  strings := #[]
  floatLists := #[]
  gradients := .empty
  document := .empty
  ops := #[]

/-- An encoder of the run `stamp` with tables of its own. -/
def fresh (stamp : Nat) (width : FloatWidth) : Encoder := start width (.fresh stamp)

/-- An encoder whose tables start as those of another image. -/
def seeded (stamp : Nat) (width : FloatWidth) (tables : Shared TableSet) : Encoder :=
  start width (.seeded stamp tables)

abbrev Encode (α : Type) := StateT Encoder (Except Error) α

/-- Intern a value. -/
def interning (m : StateT Interner (Except Error) UInt32) : Encode UInt32 := fun e => do
  let (index, interner) ← m e.interner
  return (index, { e with interner := interner })

/-- Intern a list of numbers, rounded. -/
def floats (xs : List Binary64) : Encode UInt32 := do
  interning (Interner.floatList (xs.map (← get).width.round))

def transform : Option Affine → Encode (Option UInt32)
  | none => return none
  | some m => do
    let width := (← get).width
    some <$> interning (Interner.transform (m.map width.round))

def path (p : Path) : Encode UInt32 := do
  let width := (← get).width
  interning (Interner.path (p.round width))

/-- Where an entry of the given tables went. -/
def placed (pick : Encoder → Array UInt32) (kind : TableKind) (id : UInt32) : Encode UInt32 := do
  lookup (pick (← get)) kind id

def stringIndex (id : StringId) : Encode UInt32 := placed Encoder.strings .string id

def floatListIndex (id : FloatListId) : Encode UInt32 := placed Encoder.floatLists .floatList id

/-- Append an instruction. -/
def write (instruction : Instruction) : Encode Unit := do
  let bytes ← instruction.write
  modify fun e => { e with ops := e.ops ++ bytes }

def stroke (s : Stroke) : Encode StrokeCode := do
  let params ← floats [s.width, s.miterLimit, s.dashOffset]
  let dash ← s.dash.mapM floatListIndex
  return ⟨s.source, params, s.cap, s.join, dash⟩

def paint (p : Paint) : Encode PaintCode := do
  let stroke ← p.stroke.mapM stroke
  return ⟨p.fill, stroke⟩

def geometry : Geometry → Encode GeometryCode
  | .path p => .path <$> path p
  | .rect g => .rect <$> floats g.toFloats
  | .ellipse g => .ellipse <$> floats g.toFloats
  | .poly g => return .poly (← floats g.toFloats) g.closed

def init (t : Tables) : Encode Unit := do
  let images ← t.images.mapM fun v => interning (Interner.image v)
  let strings ← t.strings.mapM fun v => interning (Interner.string v)
  let floatLists ← t.floatLists.mapM floats
  modify fun e => { e with
    images := images.toArray
    strings := strings.toArray
    floatLists := floatLists.toArray }

/-- Register a gradient, unless its rounded definition has been registered. -/
def gradient (g : Gradient) : Encode GradientId := do
  let index ← floats g.kind.toFloats
  let offsets ← floatListIndex g.offsets
  let t ← transform g.transform
  let width := (← get).width
  let canonical : Gradient :=
    { g with
      kind := g.kind.map width.round
      offsets := offsets
      transform := g.transform.map fun m => m.map width.round }
  match (← get).gradients.find? canonical with
  | some i => return UInt32.ofNat i
  | none =>
    write (.gradient g.kind.code index offsets g.colors g.spread t)
    let (gradients, id) ← (← get).gradients.pushIndexed canonical
    modify fun e => { e with gradients := gradients }
    return id

def beginGroup (attrs : GroupAttrs) : Encode Unit := do
  let t ← transform attrs.transform
  let exportId ← attrs.exportId.mapM stringIndex
  write (.beginGroup t attrs.alpha exportId)

def clip (c : ClipPath) : Encode Unit := do
  let path ← path c.path
  let t ← transform c.transform
  write (.clip path c.rule t)

def shape (s : Shape) : Encode Unit := do
  let geometry ← geometry s.geometry
  let paint ← paint s.paint
  let t ← transform s.transform
  write (.shape geometry paint t)

def image (leaf : ImageLeaf) : Encode Unit := do
  let image ← placed Encoder.images .image leaf.image
  let dest ← floats leaf.dest.toList
  let t ← transform leaf.transform
  write (.image image dest t)

def text (leaf : TextLeaf) : Encode Unit := do
  let text ← stringIndex leaf.text
  let family ← leaf.family.mapM stringIndex
  let params ← floats [leaf.size, leaf.origin.x, leaf.origin.y]
  let paint ← paint leaf.paint
  let t ← transform leaf.transform
  write (.text text family params leaf.anchor paint t)

def useRef (u : UseRef) : Encode Unit := do
  let target ← stringIndex u.target
  let t ← transform u.transform
  write (.use target t)

/-- Perform an accepted call. -/
def call : Call → Encode Reply
  | .init t => do
    init t
    return .done
  | .document d => do
    modify fun e => { e with document := d }
    return .done
  | .gradient g => return .gradient (← gradient g)
  | .beginGroup attrs => do
    beginGroup attrs
    return .done
  | .endGroup => do
    write .endGroup
    return .done
  | .clip c => do
    clip c
    return .done
  | .beginMask => do
    write .beginMask
    return .done
  | .maskContent => do
    write .maskContent
    return .done
  | .endMask => do
    write .endMask
    return .done
  | .shape s => do
    shape s
    return .done
  | .image leaf => do
    image leaf
    return .done
  | .text leaf => do
    text leaf
    return .done
  | .use u => do
    useRef u
    return .done

def perform (e : Encoder) (c : Call) : Except Error (Encoder × Reply) :=
  (call c e).map fun r => (r.2, r.1)

/-- The finished image, validated. -/
def complete (e : Encoder) : Except Error CompactImage :=
  CompactImage.ofParts (.current e.width) e.document e.interner.shared e.ops.toList

def backend : Backend Encoder CompactImage where
  gradientCount e := e.gradients.size
  perform := perform
  complete := complete

end Encoder

/-- Encode a stream with tables of the image's own. -/
def CompactImage.ofCalls (stamp : Nat) (width : FloatWidth) (calls : List Call) :
    Except Error CompactImage :=
  Encoder.backend.replay (.fresh stamp width) calls

end VectorImage
