import VectorImage.Call.Nesting
import VectorImage.Compact.Header
import VectorImage.Compact.Instruction
import VectorImage.Drawing.Painter

/-!
Compact images: tables and a stream of instructions that refers to them. An image carries the
outcome of the one validation of its stream, with the proof that it is the outcome; replay and
drawing work on what the validation read.
-/

set_option autoImplicit false
set_option relaxedAutoImplicit false

namespace VectorImage

namespace Compact

/-- A call of the stream and the offset of its opcode. -/
structure Entry where
  offset : Nat
  call : Call
  deriving DecidableEq, Inhabited

/-- What validation finds: the calls, the gradients in order of registration, and where each
exported group begins. -/
structure Contents where
  entries : List Entry
  gradients : Array Gradient
  exports : List (StringId × Nat)
  deriving Inhabited

/-- What validation has found so far, calls last first. -/
structure Scan where
  nesting : Nesting
  reversed : List Entry
  gradients : Array Gradient
  exports : List (StringId × Nat)
  deriving Inhabited

/-- Take in a call that has been accepted. -/
def Scan.add (s : Scan) (nesting : Nesting) (e : Entry) : Scan where
  nesting := nesting
  reversed := e :: s.reversed
  gradients :=
    match e.call with
    | .gradient g => s.gradients.push g
    | _ => s.gradients
  exports :=
    match e.call with
    | .beginGroup ⟨_, _, some id⟩ => (id, e.offset) :: s.exports
    | _ => s.exports

/-- Read the next call and check it. -/
def scanStep (t : TableSet) (s : Scan) : Reader (Option Scan) := do
  match ← readCall t with
  | none => return none
  | some (offset, call) =>
    let nesting ← Parser.ofExcept (s.nesting.accept s.gradients.size call)
    return some (s.add nesting ⟨offset, call⟩)

/-- Before the first instruction: the tables are there, no call has been read. -/
def Scan.start (t : TableSet) : Scan where
  nesting := .initialized t.images.size t.strings.size t.floatLists.size
  reversed := []
  gradients := #[]
  exports := []

/-- Validate a stream of instructions: nesting, references and table indices. -/
def scan (t : TableSet) (ops : Bytes) : Except Error Contents := do
  let s ← ((scanStep t |> Parser.iterate) (Scan.start t)).parse ops
  s.nesting.checkClosed
  return ⟨s.reversed.reverse, s.gradients, s.exports⟩

end Compact

/-- An image whose stream has been validated against its tables. -/
structure CompactImage where
  header : Compact.Header
  document : Document
  tables : Shared TableSet
  ops : Compact.Bytes
  contents : Compact.Contents
  valid : Compact.scan tables.value ops = .ok contents

namespace CompactImage

open VectorImage.Compact

/-- Validate the parts of an image. -/
def ofParts (header : Header) (document : Document) (tables : Shared TableSet) (ops : Bytes) :
    Except Error CompactImage :=
  match h : scan tables.value ops with
  | .ok contents => .ok ⟨header, document, tables, ops, contents, h⟩
  | .error e => .error e

/-- Read the stored form. The tables become an instance of the run `stamp`. -/
def ofBytes (stamp : Nat) (bytes : Bytes) : Except Error CompactImage := do
  let (header, tables, document, ops) ← Parser.parse (do
    let header ← Header.read
    let tables ← readSection .tables
    let tables ← Parser.ofExcept ((readTables header.width).parse tables)
    let document ← readSection .document
    let document ← Parser.ofExcept (readDocument.parse document)
    let ops ← readSection .ops
    skipSections
    return (header, tables, document, ops)) bytes
  ofParts header document ⟨⟨stamp, []⟩, tables⟩ ops

/-- Write the stored form, under the current header. -/
def toBytes (c : CompactImage) : Except Error Bytes := do
  let tables ← writeTables c.header.width c.tables.value
  let tables ← writeSection tables
  let document ← writeSection (writeDocument c.document)
  let ops ← writeSection c.ops
  return (Header.current c.header.width).write ++ tables ++ document ++ ops

/-- The same image with other document attributes. -/
def withDocument (c : CompactImage) (document : Document) : CompactImage :=
  { c with document := document }

/-- Two images hold the same instance of their tables. -/
def sharesTables (c d : CompactImage) : Bool := c.tables.inst = d.tables.inst

/-- The stream of calls that describes the image. -/
def calls (c : CompactImage) : List Call :=
  .init c.tables.value.tables :: .document c.document :: c.contents.entries.map Entry.call

def resources (c : CompactImage) : Resources where
  images := c.tables.value.images.entries
  strings := c.tables.value.strings.entries
  floatLists := c.tables.value.floatLists.entries
  gradients := c.contents.gradients

/-- Paint the calls of a stream. A use paints the group it refers to, which lies before it: the
calls from the group's opcode on, up to the end of the group and never past the use itself.
`single` says that only one group is painted, `depth` counts the groups open in it. -/
def walk (r : Resources) (contents : Contents) (limit : Nat) (single : Bool) (depth : Nat) :
    List Entry → Painter → Except Error Painter
  | [], p => .ok p
  | e :: rest, p =>
    if _h : e.offset < limit then
      match e.call with
      | .beginGroup g =>
        walk r contents limit single (depth + 1) rest (p.beginGroup g.transform g.alpha)
      | .endGroup =>
        if single && depth - 1 == 0 then .ok p.endGroup
        else walk r contents limit single (depth - 1) rest p.endGroup
      | .clip c => walk r contents limit single depth rest (p.clip c.path c.rule c.transform)
      | .beginMask => walk r contents limit single depth rest p.beginMask
      | .maskContent => walk r contents limit single depth rest p.maskContent
      | .endMask => walk r contents limit single depth rest p.endMask
      | .shape s => do
        let p ← p.shape r s
        walk r contents limit single depth rest p
      | .image leaf => do
        let p ← p.image r leaf
        walk r contents limit single depth rest p
      | .text leaf => do
        let p ← p.text r leaf
        walk r contents limit single depth rest p
      | .use u =>
        match contents.exports.lookup u.target with
        | none => .error (.structural (.useUnresolved u.target))
        | some start => do
          let group := contents.entries.dropWhile fun e => e.offset < start
          let p ← walk r contents e.offset true 0 group (p.beginUse u.transform)
          walk r contents limit single depth rest p.endUse
      | _ => walk r contents limit single depth rest p
    else .ok p
termination_by entries _ => (limit, entries.length)

/-- The primitives in paint order. -/
def primitives (c : CompactImage) : Except Error (List Primitive) := do
  let p ← walk c.resources c.contents c.ops.length false 0 c.contents.entries .start
  return p.finish

end CompactImage

end VectorImage
