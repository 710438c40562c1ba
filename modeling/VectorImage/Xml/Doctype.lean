import VectorImage.Xml.Token

/-!
Document type declarations. Of what they declare only the entities given by their text count, and
of those with one name the first.
-/

set_option autoImplicit false
set_option relaxedAutoImplicit false

namespace VectorImage

namespace Xml

open TextScan

/-- The names of entities and the texts they stand for. -/
abbrev Entities := List (List Char × List Char)

/-- Where to find something outside the document; true if that comes next. -/
def externalId : TextScan Bool := do
  if ← acceptText ['S', 'Y', 'S', 'T', 'E', 'M'] then
    blanks
    let _ ← quoted
    return true
  if ← acceptText ['P', 'U', 'B', 'L', 'I', 'C'] then
    blanks
    let _ ← quoted
    blanks
    let _ ← quoted
    return true
  return false

/-- The declaration of an entity after its keyword; one that is not given by its text has
none. -/
def entityDeclaration : TextScan Entities := do
  blanks
  let isParameter ← accept '%'
  if isParameter then blanks
  let name ← plainName
  blanks
  let entities : Entities ← do
    if ← externalId then
      if !isParameter then
        skipBlanks
        if ← acceptText ['N', 'D', 'A', 'T', 'A'] then
          blanks
          let _ ← plainName
      pure []
    else pure [(name, ← quotedChars)]
  skipBlanks
  expect '>'
  return entities

/-- The keywords of declarations that are passed over. -/
def unusedKeywords : List (List Char) :=
  [['<', '!', 'E', 'L', 'E', 'M', 'E', 'N', 'T'], ['<', '!', 'A', 'T', 'T', 'L', 'I', 'S', 'T'],
    ['<', '!', 'N', 'O', 'T', 'A', 'T', 'I', 'O', 'N']]

/-- One declaration between the brackets. -/
def declaration : TextScan Entities := do
  if ← acceptText ['<', '!', 'E', 'N', 'T', 'I', 'T', 'Y'] then entityDeclaration
  else
    let rest := (← Parser.input).rest
    if ← acceptText ['<', '!', '-', '-'] then comment
    else if ← acceptText ['<', '?'] then instruction
    else if unusedKeywords.any fun k => k.isPrefixOf rest then
      let _ ← takeThrough ['>']
    else fault
    return []

/-- A document type declaration after its keyword. -/
def doctype : TextScan Entities := do
  blanks
  let _ ← plainName
  skipBlanks
  let _ ← externalId
  skipBlanks
  if ← accept '>' then return []
  expect '['
  let entities ← Parser.iterate (fun (entities : Entities) => do
    skipBlanks
    if ← comesNext [']'] then return none
    return some (entities ++ (← declaration))) []
  expect ']'
  skipBlanks
  expect '>'
  return entities

end Xml

end VectorImage
