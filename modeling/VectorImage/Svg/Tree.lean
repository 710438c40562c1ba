import VectorImage.Svg.Element

/-!
The SVG elements of an XML document. The word `inherit` asks for the attribute of the element
around, or of the nearest one that has it, and for the initial value where there is none.
References that would make a pattern, clip or mask part of itself are cut.
-/

set_option autoImplicit false
set_option relaxedAutoImplicit false

namespace VectorImage

namespace Svg

def svgSpace : String := "http://www.w3.org/2000/svg"

def linkSpace : String := "http://www.w3.org/1999/xlink"

/-- The names of elements that count. -/
def elementNames : List String :=
  ["a", "circle", "clipPath", "defs", "ellipse", "feBlend", "feColorMatrix",
    "feComponentTransfer", "feComposite", "feConvolveMatrix", "feDiffuseLighting",
    "feDisplacementMap", "feDistantLight", "feDropShadow", "feFlood", "feFuncA", "feFuncB",
    "feFuncG", "feFuncR", "feGaussianBlur", "feImage", "feMerge", "feMergeNode", "feMorphology",
    "feOffset", "fePointLight", "feSpecularLighting", "feSpotLight", "feTile", "feTurbulence",
    "filter", "g", "image", "line", "linearGradient", "marker", "mask", "path", "pattern",
    "polygon", "polyline", "radialGradient", "rect", "stop", "svg", "switch", "symbol", "text",
    "textPath", "tref", "tspan", "use"]

/-- The name of an element that counts; a link is a group. -/
def elementName? (name : Xml.QName) : Option String :=
  let isOwn := match name.space with
    | none => true
    | some s => s == svgSpace
  if isOwn && elementNames.contains name.name then
    some (if name.name == "a" then "g" else name.name)
  else none

/-- Attributes that may ask for inheritance and take the value of any element around, with their
initial values where they have one that can be written. -/
def inheritableKeys : List (String × Option String) :=
  [("clip-rule", some "nonzero"), ("color", none), ("color-interpolation-filters", some "linearRGB"),
    ("direction", some "ltr"), ("fill", some "black"), ("fill-opacity", some "1"),
    ("fill-rule", some "nonzero"), ("font-family", none), ("font-size", some "medium"),
    ("font-stretch", some "normal"), ("font-style", some "normal"), ("font-variant", some "normal"),
    ("font-weight", some "normal"), ("image-rendering", some "auto"), ("kerning", none),
    ("letter-spacing", some "normal"), ("marker-end", some "none"), ("marker-mid", some "none"),
    ("marker-start", some "none"), ("paint-order", none), ("shape-rendering", some "auto"),
    ("stroke", some "none"), ("stroke-dasharray", some "none"), ("stroke-dashoffset", some "0"),
    ("stroke-linecap", some "butt"), ("stroke-linejoin", some "miter"),
    ("stroke-miterlimit", some "4"), ("stroke-opacity", some "1"), ("stroke-width", some "1"),
    ("text-anchor", some "start"), ("text-rendering", some "auto"), ("visibility", some "visible"),
    ("word-spacing", some "normal"), ("writing-mode", some "lr-tb")]

/-- Attributes that may ask for inheritance and take the value of the element right around. -/
def ownKeys : List (String × Option String) :=
  [("alignment-baseline", none), ("baseline-shift", some "baseline"), ("clip-path", some "none"),
    ("display", some "inline"), ("dominant-baseline", none), ("filter", some "none"),
    ("flood-color", some "black"), ("flood-opacity", some "1"), ("lighting-color", none),
    ("mask", some "none"), ("opacity", some "1"), ("overflow", some "visible"),
    ("stop-color", some "black"), ("stop-opacity", some "1"), ("text-decoration", some "none"),
    ("unicode-bidi", none)]

/-- The value of an attribute, given the attributes of the elements around, innermost first. -/
def inheritedValue? (around : List (List (String × String))) (key value : String) :
    Option String :=
  if value ≠ "inherit" then some value
  else
    match inheritableKeys.lookup key, ownKeys.lookup key with
    | some initial, _ => (around.findSome? fun attributes => attributes.lookup key).or initial
    | none, some initial => (around.head?.bind fun attributes => attributes.lookup key).or initial
    | none, none => some value

/-- Attributes that count: those of no namespace or a known one, by local name. -/
def ownAttributes (around : List (List (String × String)))
    (attributes : List (Xml.QName × String)) : List (String × String) :=
  attributes.filterMap fun a =>
    let known := match a.1.space with
      | none => true
      | some s => s == svgSpace || s == linkSpace || s == Xml.xmlSpace
    if known then (inheritedValue? around a.1.name a.2).map fun value => (a.1.name, value)
    else none

/-- How deep nodes nest in a document. -/
def depthLimit : Nat := 1024

mutual
/-- The SVG elements of an XML node, numbered from `next` on, and the next free number. Nothing
may be nested too deep. -/
def Element.ofNode? (around : List (List (String × String))) (next : Nat) :
    Xml.Node → Option (List Element × Nat)
  | .data => if depthLimit < around.length then none else some ([], next)
  | .element name attributes children =>
    if depthLimit < around.length then none
    else
      match elementName? name with
      | none => some ([], next)
      | some name =>
        let attributes := ownAttributes around attributes
        (Element.ofNodes? (attributes :: around) (next + 1) children).map fun (children, after) =>
          ([.mk next name attributes children], after)

def Element.ofNodes? (around : List (List (String × String))) (next : Nat) :
    List Xml.Node → Option (List Element × Nat)
  | [] => some ([], next)
  | node :: rest => do
    let (first, next) ← Element.ofNode? around next node
    let (rest, next) ← Element.ofNodes? around next rest
    return (first ++ rest, next)
end

/-- The element that a paint refers to, by its name. -/
def paintLink? (e : Element) (key : String) : Option String :=
  match (e.own? key).bind paintOf? with
  | some (.link name _) => some name
  | _ => none

/-- Among what is in an element, the first whose reference leads to the element, or else to
something in which a reference leads to it. References outside `follow` are not followed. -/
def selfReference? (elements : List Element) (link? : Element → Option String)
    (leadsTo : Element → String → Bool) (follow : Element → Bool) (e : Element) :
    Option Element :=
  let leadsBack (inner : Element) : Bool :=
    match link? inner with
    | some name => leadsTo e name
    | none => false
  e.descendants.findSome? fun inner => do
    let name ← link? inner
    if leadsTo e name then return inner
    let target ← find? elements name
    if follow target then target.descendants.find? leadsBack else none

/-- Cut references of one kind until none makes an element of the given name part of itself. Each
round cuts one. -/
def cutReferences (name key : String) (find? : List Element → Element → Option Element) :
    (rounds : Nat) → Element → Element
  | 0, root => root
  | rounds + 1, root =>
    let elements := root.descendants
    match (elements.filter fun e => e.name == name).findSome? (find? elements) with
    | some e => cutReferences name key find? rounds (root.setAttribute e.number key "none")
    | none => root

/-- Cut the paints that make a pattern part of itself. -/
def cutPaints (key : String) (rounds : Nat) (root : Element) : Element :=
  cutReferences "pattern" key (fun elements =>
    selfReference? elements (fun e => paintLink? e key)
      (fun e name => (e.own? "id").getD [] == name.toList) (fun _ => true)) rounds root

/-- Cut the references that make a clip, mask or filter part of itself. -/
def cutLinks (name key : String) (rounds : Nat) (root : Element) : Element :=
  cutReferences name key (fun elements =>
    selfReference? elements (fun e => (e.own? key).bind linkOf?)
      (fun e target => ((find? elements target).map Element.number) == some e.number)
      (fun target => target.name == name)) rounds root

/-- The root element of a document, free of references that lead back. -/
def Element.ofDocument? (root : Xml.Node) : Option Element := do
  match ← Element.ofNode? [] 0 root with
  | ([root], count) =>
    let root := cutPaints "stroke" count (cutPaints "fill" count root)
    return cutLinks "filter" "filter" count (cutLinks "mask" "mask" count
      (cutLinks "clipPath" "clip-path" count root))
  | _ => none

end Svg

end VectorImage
