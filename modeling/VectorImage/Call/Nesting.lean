import VectorImage.Call.Basic
import VectorImage.Indexed

/-!
The order of calls and the references between them. The state holds the phase, the open scopes,
the names of the closed groups and the table lengths. `Nesting.accept` admits a call or names
what is wrong with it; a rejected tree call still ends the time for declaring the document.
-/

set_option autoImplicit false
set_option relaxedAutoImplicit false

namespace VectorImage

/-- Before the tables, between the tables and the tree, in the tree. -/
inductive Phase
  | fresh | initialized | tree
  deriving DecidableEq, Inhabited

/-- An open scope. -/
inductive Scope
  | group (exportId : Option StringId)
  | mask
  | maskContent
  deriving DecidableEq, Inhabited

/-- Open scopes are listed innermost first. -/
structure Nesting where
  phase : Phase
  scopes : List Scope
  exported : List StringId
  images : Nat
  strings : Nat
  floatLists : Nat
  deriving DecidableEq, Inhabited

namespace Nesting

/-- Before any call. -/
def start : Nesting := ⟨.fresh, [], [], 0, 0, 0⟩

/-- The tables have been given, with these lengths. -/
def initialized (images strings floatLists : Nat) : Nesting :=
  ⟨.initialized, [], [], images, strings, floatLists⟩

/-- A group of this name is still open. -/
def isOpen (n : Nesting) (id : StringId) : Bool := n.scopes.contains (.group (some id))

def enterTree (n : Nesting) (call : TreeCall) : Except Error Nesting :=
  if n.phase = .fresh then .error (.format (.beforeInit call)) else .ok { n with phase := .tree }

/-- The gradients of a paint are registered and its dash list exists. -/
def checkPaint (n : Nesting) (gradients : Nat) (p : Paint) : Except Error Unit := do
  p.gradientIds.forM fun id => checkIndex .gradient id gradients
  match p.stroke.bind Stroke.dash with
  | some dash => checkIndex .floatList dash n.floatLists
  | none => .ok ()

/-- An optional string id is in range. -/
def checkString (n : Nesting) : Option StringId → Except Error Unit
  | some id => checkIndex .string id n.strings
  | none => .ok ()

/-- The name of a new group is in range and not taken. -/
def checkExport (n : Nesting) (exportId : Option StringId) : Except Error Unit := do
  n.checkString exportId
  match exportId with
  | some id =>
    if n.exported.contains id || n.isOpen id then .error (.structural (.duplicateExport id))
  | none => .ok ()

/-- The target of a reference is a group that has been closed. -/
def checkTarget (n : Nesting) (id : StringId) : Except Error Unit := do
  checkIndex .string id n.strings
  if n.isOpen id then .error (.structural (.useInsideOwnGroup id))
  if !n.exported.contains id then .error (.structural (.useUnresolved id))

def endGroup (n : Nesting) : Except Error Nesting :=
  match n.scopes with
  | .group exportId :: rest => .ok { n with scopes := rest, exported := exportId.toList ++ n.exported }
  | _ :: _ => .error (.format .endGroupInMask)
  | [] => .error (.format .endGroupUnopened)

def maskContent (n : Nesting) : Except Error Nesting :=
  match n.scopes with
  | .mask :: rest => .ok { n with scopes := .maskContent :: rest }
  | _ => .error (.format .maskContentUnopened)

def endMask (n : Nesting) : Except Error Nesting :=
  match n.scopes with
  | .maskContent :: rest => .ok { n with scopes := rest }
  | .mask :: _ => .error (.format .endMaskBeforeContent)
  | _ => .error (.format .endMaskUnopened)

/-- The state after a call, given how many gradients have been registered, or what is wrong
with the call. -/
def accept (n : Nesting) (gradients : Nat) : Call → Except Error Nesting
  | .init tables =>
    if n.phase = .fresh then
      .ok { n with
        phase := .initialized
        images := tables.images.length
        strings := tables.strings.length
        floatLists := tables.floatLists.length }
    else .error (.format .initTwice)
  | .document _ =>
    match n.phase with
    | .fresh => .error (.format .documentBeforeInit)
    | .initialized => .ok { n with phase := .tree }
    | .tree => .error (.format .documentAfterTree)
  | .gradient g => do
    let n ← n.enterTree .gradient
    checkIndex .floatList g.offsets n.floatLists
    return n
  | .beginGroup attrs => do
    let n ← n.enterTree .beginGroup
    n.checkExport attrs.exportId
    return { n with scopes := .group attrs.exportId :: n.scopes }
  | .endGroup => n.endGroup
  | .clip _ => n.enterTree .clip
  | .beginMask => do
    let n ← n.enterTree .beginMask
    return { n with scopes := .mask :: n.scopes }
  | .maskContent => n.maskContent
  | .endMask => n.endMask
  | .shape s => do
    let n ← n.enterTree s.geometry.treeCall
    n.checkPaint gradients s.paint
    return n
  | .image leaf => do
    let n ← n.enterTree .image
    checkIndex .image leaf.image n.images
    return n
  | .text leaf => do
    let n ← n.enterTree .text
    n.checkPaint gradients leaf.paint
    checkIndex .string leaf.text n.strings
    n.checkString leaf.family
    return n
  | .use ref => do
    let n ← n.enterTree .use
    n.checkTarget ref.target
    return n

/-- The state after a rejected call. -/
def reject (n : Nesting) (call : Call) : Nesting :=
  if call.treeCall?.isSome && n.phase != .fresh then { n with phase := .tree } else n

/-- The stream may end: the tables were given and every scope is closed. -/
def checkClosed (n : Nesting) : Except Error Unit :=
  if n.phase = .fresh then .error (.format .finishBeforeInit)
  else
    match n.scopes with
    | [] => .ok ()
    | .group _ :: _ => .error (.format .unclosedGroup)
    | _ :: _ => .error (.format .unclosedMask)

end Nesting

end VectorImage
