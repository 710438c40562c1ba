import VectorImage.Input.Parser

/-!
Readers of text that fail in one way only.
-/

set_option autoImplicit false
set_option relaxedAutoImplicit false

namespace VectorImage

/-- A reader of characters; every fault is the same. -/
abbrev TextScan (α : Type) := Parser Char Unit α

namespace TextScan

def fault {α : Type} : TextScan α := Parser.fail ()

def orFault {α : Type} : Option α → TextScan α
  | some a => return a
  | none => fault

/-- Take the character if it comes next. -/
def accept (c : Char) : TextScan Bool := do
  if (← Parser.peek?) = some c then
    let _ ← Parser.next?
    return true
  else return false

/-- Take this character, which must come next. -/
def expect (c : Char) : TextScan Unit := do
  if !(← accept c) then fault

/-- These characters come next. -/
def comesNext (text : List Char) : TextScan Bool := do
  return text.isPrefixOf (← Parser.input).rest

/-- Take these characters, if they come next. -/
def acceptText (text : List Char) : TextScan Bool := do
  if ← comesNext text then
    let _ ← Parser.takeExactly text.length fun _ => ()
    return true
  else return false

/-- Take characters up to the text `stop`, and `stop` itself. -/
def takeThrough (stop : List Char) : TextScan (List Char) := do
  let (reversed, _) ← Parser.iterate (fun (s : List Char × Bool) => do
    if s.2 then return none
    if ← acceptText stop then return some (s.1, true)
    match ← Parser.next? with
    | some c => return some (c :: s.1, false)
    | none => fault) ([], false)
  return reversed.reverse

/-- Nothing is left to read. -/
def atEnd : TextScan Bool := do
  return (← Parser.peek?).isNone

/-- The four characters that JSON and XML take as blank. -/
def isBlank (c : Char) : Bool := c = ' ' || c = '\t' || c = '\n' || c = '\r'

def skipBlanks : TextScan Unit := do
  let _ ← Parser.takeWhile isBlank

/-- Read what a text begins with. -/
def first? {α : Type} (scan : TextScan α) (text : List Char) : Option α :=
  (Parser.parse scan text).toOption

/-- Read a text to its end. -/
def whole? {α : Type} (scan : TextScan α) (text : List Char) : Option α :=
  (Parser.parse (do
    let a ← scan
    if !(← atEnd) then fault
    return a) text).toOption

end TextScan

end VectorImage
