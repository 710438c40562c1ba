import VectorImage.Drawing.Resources

/-!
The painter turns a walk over the tree into primitives. It keeps a frame for each open scope:
the transform inside it, whether it opened a layer, and how many clips it has opened. Closing a
scope closes its clips and then its layer.
-/

set_option autoImplicit false
set_option relaxedAutoImplicit false

namespace VectorImage

structure PaintFrame where
  transform : Affine
  layer : Bool
  clips : Nat
  deriving DecidableEq, Inhabited

/-- Frames are listed innermost first; the primitives are those emitted so far. -/
structure Painter where
  frames : List PaintFrame
  primitives : Array Primitive
  deriving Inhabited

namespace Painter

def start : Painter := ⟨[⟨.identity, false, 0⟩], #[]⟩

/-- The transform of the innermost scope. -/
def current (p : Painter) : Affine :=
  match p.frames with
  | f :: _ => f.transform
  | [] => .identity

/-- The absolute transform of something with a local one. -/
def absolute (p : Painter) (t : Option Affine) : Affine := p.current.after t

def emit (p : Painter) (primitive : Primitive) : Painter :=
  { p with primitives := p.primitives.push primitive }

def pushFrame (p : Painter) (transform : Affine) (layer : Bool) : Painter :=
  { p with frames := ⟨transform, layer, 0⟩ :: p.frames }

/-- What closes a frame: its clips, then its layer. -/
def closing (f : PaintFrame) : List Primitive :=
  List.replicate f.clips .popClip ++ if f.layer then [.popLayer] else []

def popFrame (p : Painter) : Painter :=
  match p.frames with
  | [] => p
  | f :: rest => ⟨rest, p.primitives ++ closing f⟩

def beginGroup (p : Painter) (transform : Option Affine) (alpha : UInt8) : Painter :=
  let layer := alpha != 255
  let opened := if layer then p.emit (.pushLayer alpha) else p
  opened.pushFrame (p.absolute transform) layer

def endGroup (p : Painter) : Painter := p.popFrame

def beginUse (p : Painter) (transform : Option Affine) : Painter :=
  p.pushFrame (p.absolute transform) false

def endUse (p : Painter) : Painter := p.popFrame

/-- Open a clip, which the enclosing scope will close. -/
def clip (p : Painter) (path : Path) (rule : FillRule) (transform : Option Affine) : Painter :=
  let p := p.emit (.pushClip path rule (p.absolute transform))
  match p.frames with
  | [] => p
  | f :: rest => { p with frames := { f with clips := f.clips + 1 } :: rest }

def beginMask (p : Painter) : Painter := (p.emit .beginMask).pushFrame p.current false

def maskContent (p : Painter) : Painter :=
  let p := p.popFrame.emit .maskedContent
  p.pushFrame p.current false

def endMask (p : Painter) : Painter := p.popFrame.emit .endMask

def shape (p : Painter) (r : Resources) (s : Shape) : Except Error Painter := do
  let style ← r.resolvePaint s.paint
  return p.emit (.shape s.geometry style (p.absolute s.transform))

def image (p : Painter) (r : Resources) (leaf : ImageLeaf) : Except Error Painter := do
  let image ← r.image leaf.image
  return p.emit (.image image leaf.dest (p.absolute leaf.transform))

def text (p : Painter) (r : Resources) (leaf : TextLeaf) : Except Error Painter := do
  let run ← r.resolveText leaf
  let style ← r.resolvePaint leaf.paint
  return p.emit (.text run style (p.absolute leaf.transform))

/-- Close every scope that is still open, the implicit root last. -/
def finish (p : Painter) : List Primitive :=
  (p.primitives ++ p.frames.flatMap closing).toList

end Painter

end VectorImage
