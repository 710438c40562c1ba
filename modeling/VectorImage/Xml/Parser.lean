import VectorImage.Xml.Namespace

/-!
Well-formed XML. The reader keeps a stack of open elements and takes one piece of markup or one
run of character data at a time. The text of an entity in character data is read as if it stood
there by itself: it ends where it closes more elements than it opens, and with its last
character. A start tag that it ends within leaves its attributes to the next one.
-/

set_option autoImplicit false
set_option relaxedAutoImplicit false

namespace VectorImage

namespace Xml

open TextScan

/-- An element that has been opened; what is in it comes last first. -/
structure OpenElement where
  rawName : RawName
  name : QName
  attributes : List (QName × String)
  scope : Scope
  children : List Node

def OpenElement.close (e : OpenElement) : Node := .element e.name e.attributes e.children.reverse

/-- Open elements come innermost first. What is pending are the attributes of a start tag without
an end. -/
structure State where
  stack : List OpenElement
  pending : List (RawName × List Char)
  root : Option Node
  expansion : Expansion

def State.initial (entities : Entities) : State := ⟨[], [], none, .initial entities⟩

namespace State

def scope (s : State) : Scope :=
  match s.stack with
  | e :: _ => e.scope
  | [] => []

/-- Add a node to the innermost open element. Outside of all only the first element counts. -/
def add (s : State) (node : Node) : State :=
  match s.stack with
  | parent :: rest => { s with stack := { parent with children := node :: parent.children } :: rest }
  | [] => if s.root.isNone && node.isElement then { s with root := some node } else s

/-- Open an element with the attributes that are pending. Prefixes must be declared and no
attribute may come twice. -/
def open? (s : State) (name : RawName) : Option State := do
  let attributes := s.pending
  let declared ← (attributes.filter fun a => isDeclaration a.1).foldlM declare? []
  let scope := declared ++ s.scope
  let attributes ← (attributes.filter fun a => !isDeclaration a.1).mapM fun a => do
    return (← attributeName? scope a.1, String.ofList a.2)
  let names := attributes.map Prod.fst
  if names.eraseDups.length ≠ names.length then none
  let element : OpenElement := ⟨name, ← elementName? scope name, attributes, scope, []⟩
  return { s with stack := element :: s.stack, pending := [] }

/-- Close the innermost open element. -/
def close? (s : State) : Option State :=
  match s.stack with
  | e :: rest => some ({ s with stack := rest }.add e.close)
  | [] => none

end State

/-- How a start tag ends: with its element open, with an element that is empty, or not at all. -/
inductive TagEnd
  | open | empty | missing
  deriving DecidableEq

/-- The end of a start tag; none if an attribute comes next. -/
def tagEnd? : TextScan (Option TagEnd) := do
  if ← atEnd then return some .missing
  let blank := !(← Parser.takeWhile isBlank).isEmpty
  if ← accept '/' then
    expect '>'
    return some .empty
  if ← accept '>' then return some .open
  if !blank then fault
  return none

/-- A start tag after its bracket: the state with what it opens, and how it ends. -/
def startTag (levels : Nat) (s : State) : TextScan (State × TagEnd) := do
  let name ← rawName
  if name.space = declarationName then fault
  let (s, ending?) ← Parser.iterate (fun (draft : State × Option TagEnd) => do
    let (s, ending?) := draft
    if ending?.isSome then return none
    match ← tagEnd? with
    | some ending => return some (s, some ending)
    | none =>
      let (name, raw) ← rawAttribute
      let (value, uses) ← orFault (expandValue levels s.expansion raw)
      return some ({ s with
        pending := s.pending ++ [(name, value)], expansion := { s.expansion with uses := uses } },
        none)) (s, none)
  match ← orFault ending? with
  | .missing => return (s, .missing)
  | .empty => return (← orFault ((s.open? name).bind State.close?), .empty)
  | .open => return (← orFault (s.open? name), .open)

/-- An end tag after its opening, which must match the innermost open element. -/
def endTag (s : State) : TextScan State := do
  let name ← rawName
  skipBlanks
  expect '>'
  if (s.stack.head?.map OpenElement.rawName) ≠ some name then fault
  orFault s.close?

/-- The characters `part` occur in a row. -/
def hasInfix (part : List Char) : List Char → Bool
  | [] => part.isEmpty
  | c :: cs => part.isPrefixOf (c :: cs) || hasInfix part cs

/-- Character data up to the next markup, given how to read the text of an entity. -/
def characterData (read : State → List Char → Option State) (s : State) : TextScan State := do
  let text ← Parser.takeWhile (· != '<')
  if !text.all isXmlChar || hasInfix [']', ']', '>'] text then fault
  orFault (first? (Parser.iterate (fun s => do
    match ← Parser.next? with
    | none => return none
    | some '&' =>
      match ← reference with
      | .char _ => return some (s.add .data)
      | .entity name =>
        let value ← orFault (s.expansion.entities.lookup name)
        let inner ← orFault s.expansion.enter?
        let after ← orFault (read { s with expansion := inner } value)
        return some { after with expansion := s.expansion.leave after.expansion.uses }
    | some _ =>
      let _ ← Parser.takeWhile (· != '&')
      return some (s.add .data)) s) text)

/-- How far the content of an element has been read: how many elements that were opened on the
way are to be closed, the one that the content belongs to included, and whether a tag has been
read. -/
structure Progress where
  state : State
  awaited : Nat
  isTagged : Bool

/-- Take one piece of markup or one run of character data. The first tag in the text of an entity
must not be an end tag. -/
def contentStep (levels : Nat) (read : State → List Char → Option State) (p : Progress) :
    TextScan (Option Progress) := do
  if p.awaited = 0 then return none
  match ← Parser.peek? with
  | none => return none
  | some '<' =>
    let _ ← Parser.next?
    if ← accept '/' then
      if !p.isTagged then fault
      return some { p with state := ← endTag p.state, awaited := p.awaited - 1 }
    if ← accept '?' then
      instruction
      return some { p with state := p.state.add .data }
    if ← acceptText ['!', '-', '-'] then
      comment
      return some { p with state := p.state.add .data }
    if ← acceptText ['!', '[', 'C', 'D', 'A', 'T', 'A', '['] then
      let _ ← charsThrough [']', ']', '>']
      return some { p with state := p.state.add .data }
    let (state, ending) ← startTag levels p.state
    return some ⟨state, if ending = .open then p.awaited + 1 else p.awaited, true⟩
  | some _ => return some { p with state := ← characterData read p.state }

/-- The content of an element up to its end tag, or all of the text. -/
def contentWith (levels : Nat) (read : State → List Char → Option State) (isTagged : Bool)
    (s : State) : TextScan State := do
  return (← Parser.iterate (contentStep levels read) ⟨s, 1, isTagged⟩).state

/-- Read the text of an entity as content, with so many levels of entities left to enter, its own
included. What follows after it has closed too much does not count. -/
def readEntity? : (levels : Nat) → State → List Char → Option State
  | 0, _, _ => none
  | levels + 1, s, text => first? (contentWith levels (readEntity? levels) false s) text

/-- Comments and instructions outside the root element. -/
def miscellany : TextScan Unit := do
  let _ ← Parser.iterate (fun (_ : Unit) => do
    skipBlanks
    if ← acceptText ['<', '!', '-', '-'] then
      comment
      return some ()
    if ← acceptText ['<', '?'] then
      instruction
      return some ()
    return none) ()
  skipBlanks

/-- The declaration that may stand at the very start: a version, then possibly an encoding and
whether the document stands alone. -/
def xmlDeclaration : TextScan Unit := do
  let separate : TextScan Unit := do
    if (← Parser.takeWhile isBlank).isEmpty && !(← comesNext ['?', '>']) then fault
  skipBlanks
  if !(← comesNext "version".toList) then fault
  let _ ← rawAttribute
  separate
  if ← comesNext "encoding".toList then
    let _ ← rawAttribute
    separate
  if ← comesNext "standalone".toList then
    let _ ← rawAttribute
  skipBlanks
  if !(← acceptText ['?', '>']) then fault

def document : TextScan Node := do
  let _ ← accept '\ufeff'
  if ← acceptText ['<', '?', 'x', 'm', 'l', ' '] then xmlDeclaration
  miscellany
  let hasType ← acceptText ['<', '!', 'D', 'O', 'C', 'T', 'Y', 'P', 'E']
  let entities ← if hasType then doctype else pure []
  miscellany
  expect '<'
  let (state, ending) ← startTag entityLevels (.initial entities)
  let state ←
    if ending = .open then contentWith entityLevels (readEntity? entityLevels) true state
    else pure state
  miscellany
  if !(← atEnd) || !state.stack.isEmpty then fault
  orFault state.root

/-- The root element of a text, if it is well-formed. -/
def ofText? (text : List Char) : Option Node := (document.parse text).toOption

end Xml

end VectorImage
