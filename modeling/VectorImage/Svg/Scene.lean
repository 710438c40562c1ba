import VectorImage.Svg.Measure
import VectorImage.Svg.Value.Paint

/-!
What the resolution of a document refers to: its elements by name, the size that percentages
refer to, and how documents used as images are read. Elements that paint may take attributes from
others of their kind, which they refer to.
-/

set_option autoImplicit false
set_option relaxedAutoImplicit false

namespace VectorImage

namespace Svg

structure Scene where
  sites : List Site
  canvas : Canvas
  /-- The size of a document used as an image; without it no image is drawn. -/
  imageSize? : Option (List UInt8 → Option (Binary32 × Binary32))

namespace Scene

/-- The last element of this name; an empty name names none. -/
def find? (scene : Scene) (name : String) : Option Site :=
  if name.isEmpty then none
  else scene.sites.reverse.find? fun s => s.own? "id" == some name.toList

/-- The element that an attribute refers to by a function reference. -/
def target? (scene : Scene) (s : Site) (key : String) : Option Site :=
  ((s.own? key).bind linkOf?).bind scene.find?

/-- The elements that follow from one by plain references, up to one that refers to itself or to
the first. -/
def follow (scene : Scene) (first : Nat) : (steps : Nat) → Site → List Site
  | 0, _ => []
  | steps + 1, s =>
    match ((s.own? "href").bind plainLinkOf?).bind scene.find? with
    | some t =>
      if t.number = s.number || t.number = first then [] else t :: scene.follow first steps t
    | none => []

/-- An element and those it refers to, one by the other. -/
def chain (scene : Scene) (s : Site) : List Site :=
  s :: scene.follow s.number scene.sites.length s

/-- The element that an attribute is taken from: the first in the chain that has it, where all
are of these kinds. -/
def provider (scene : Scene) (kinds : List String) (s : Site) (key : String) : Site :=
  let usable := (scene.chain s).takeWhile fun t => kinds.contains t.name
  (usable.find? fun t => (t.own? key).isSome).getD s

/-- A length in user units, or in units of a box, taken from the chain. -/
def measure (scene : Scene) (kinds : List String) (inUserSpace : Bool) (s : Site) (key : String)
    (default : Length) : Binary32 :=
  (scene.provider kinds s key).measure (if inUserSpace then scene.canvas else .unit) key default

end Scene

/-- The element has a name with something to see in it. -/
def Site.isNamed (s : Site) : Bool := !(White.trim ((s.own? "id").getD [])).isEmpty

end Svg

end VectorImage
