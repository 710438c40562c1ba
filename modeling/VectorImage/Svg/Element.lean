import VectorImage.Svg.Value.Paint
import VectorImage.Xml.Namespace

/-!
The elements of an SVG document, numbered in document order, and the look-up of their
attributes. Elements of other namespaces and of unknown names are left out with all they hold.
An inherited attribute is the one of the nearest element around that has it.
-/

set_option autoImplicit false
set_option relaxedAutoImplicit false

namespace VectorImage

namespace Svg

inductive Element
  | mk (number : Nat) (name : String) (attributes : List (String × String))
      (children : List Element)
  deriving Inhabited

namespace Element

def number : Element → Nat
  | mk number _ _ _ => number

def name : Element → String
  | mk _ name _ _ => name

def attributes : Element → List (String × String)
  | mk _ _ attributes _ => attributes

def children : Element → List Element
  | mk _ _ _ children => children

mutual
/-- The element and all elements in it, in document order. -/
def descendants : Element → List Element
  | mk number name attributes children =>
    mk number name attributes children :: descendantsAll children

def descendantsAll : List Element → List Element
  | [] => []
  | e :: rest => e.descendants ++ descendantsAll rest
end

mutual
/-- Give an attribute of the element with this number another value. -/
def setAttribute (number : Nat) (key value : String) : Element → Element
  | mk n name attributes children =>
    let attributes :=
      if n = number then attributes.map fun a => if a.1 == key then (key, value) else a
      else attributes
    mk n name attributes (setAttributeAll number key value children)

def setAttributeAll (number : Nat) (key value : String) : List Element → List Element
  | [] => []
  | e :: rest => e.setAttribute number key value :: setAttributeAll number key value rest
end

/-- The element's own attribute. -/
def own? (e : Element) (key : String) : Option (List Char) :=
  (e.attributes.lookup key).map String.toList

end Element

/-- The last of some elements with this name; an empty name names none. -/
def find? (elements : List Element) (name : String) : Option Element :=
  if name.isEmpty then none
  else elements.reverse.find? fun e => e.own? "id" == some name.toList

/-- An element with the elements around it, innermost first. -/
structure Site where
  element : Element
  ancestors : List Element
  deriving Inhabited

namespace Site

def name (s : Site) : String := s.element.name

def number (s : Site) : Nat := s.element.number

/-- The sites of the children. -/
def children (s : Site) : List Site :=
  s.element.children.map fun e => ⟨e, s.element :: s.ancestors⟩

/-- The element's own attribute. -/
def own? (s : Site) (key : String) : Option (List Char) := s.element.own? key

/-- The nearest site that has the attribute, the element's own first. -/
def holder? (s : Site) (key : String) : Option Site :=
  go s.element s.ancestors
where
  go (e : Element) : List Element → Option Site
    | [] => if (e.attributes.lookup key).isSome then some ⟨e, []⟩ else none
    | parent :: rest =>
      if (e.attributes.lookup key).isSome then some ⟨e, parent :: rest⟩ else go parent rest

/-- The inherited attribute. -/
def inherited? (s : Site) (key : String) : Option (List Char) :=
  (s.holder? key).bind fun h => h.own? key

end Site

mutual
/-- Every element below and including one, with its surroundings. -/
def Element.sites (ancestors : List Element) : Element → List Site
  | .mk number name attributes children =>
    let e := Element.mk number name attributes children
    ⟨e, ancestors⟩ :: Element.sitesAll (e :: ancestors) children

def Element.sitesAll (ancestors : List Element) : List Element → List Site
  | [] => []
  | e :: rest => Element.sites ancestors e ++ Element.sitesAll ancestors rest
end

end Svg

end VectorImage
