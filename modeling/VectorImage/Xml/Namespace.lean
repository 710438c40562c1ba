import VectorImage.Xml.Attribute

/-!
XML documents reduced to their elements, and what names stand for. Names are resolved: an element or
attribute has a local name and the namespace its prefix stands for. An element declares prefixes, and
possibly the namespace of names without one, for itself and all in it; the prefix of XML's own
attributes needs no declaration. Character data, comments and instructions are checked but not kept;
only that there are some is.
-/

set_option autoImplicit false
set_option relaxedAutoImplicit false

namespace VectorImage

namespace Xml

/-- A local name in a namespace, if it is in one. -/
structure QName where
  space : Option String
  name : String
  deriving DecidableEq, Inhabited

/-- An element, or something else that may stand in one. -/
inductive Node
  | element (name : QName) (attributes : List (QName × String)) (children : List Node)
  | data
  deriving Inhabited

def Node.isElement : Node → Bool
  | element _ _ _ => true
  | data => false

/-- The namespace of the prefix `xml`. -/
def xmlSpace : String := "http://www.w3.org/XML/1998/namespace"

/-- The namespace that declarations of namespaces are in. -/
def declarationSpace : String := "http://www.w3.org/2000/xmlns/"

/-! What names stand for. -/

/-- The prefixes in scope, innermost first, and the namespaces they stand for; the default
namespace has an empty prefix. -/
abbrev Scope := List (List Char × String)

/-- What declares namespaces, as an attribute or as its prefix. -/
def declarationName : List Char := ['x', 'm', 'l', 'n', 's']

def xmlPrefix : List Char := ['x', 'm', 'l']

/-- An attribute with this name declares a namespace. -/
def isDeclaration (n : RawName) : Bool := n.space = declarationName || n.name = declarationName

/-- Add what an attribute declares to what the attributes before it declare. The namespaces of
XML itself are neither declared anew nor under other prefixes. -/
def declare? (declared : Scope) (a : RawName × List Char) : Option Scope :=
  let space := String.ofList a.2
  if space == declarationSpace then none
  else if a.1.space ≠ declarationName then
    if space == xmlSpace then none else some (declared ++ [([], space)])
  else if a.1.name = xmlPrefix then
    if space == xmlSpace then some declared else none
  else if space == xmlSpace || declared.any fun d => d.1 = a.1.name then none
  else some (declared ++ [(a.1.name, space)])

/-- The name of an element; its prefix must be declared. -/
def elementName? (scope : Scope) (n : RawName) : Option QName :=
  match scope.lookup n.space with
  | some space => some ⟨some space, .ofList n.name⟩
  | none => if n.space.isEmpty then some ⟨none, .ofList n.name⟩ else none

/-- The name of an attribute; without a prefix it is in no namespace. -/
def attributeName? (scope : Scope) (n : RawName) : Option QName :=
  if n.space.isEmpty then some ⟨none, .ofList n.name⟩
  else if n.space = xmlPrefix then some ⟨some xmlSpace, .ofList n.name⟩
  else (scope.lookup n.space).map fun space => ⟨some space, .ofList n.name⟩

end Xml

end VectorImage
