import VectorImage.Error
import VectorImage.Json.Basic
import VectorImage.Json.Parser
import VectorImage.Number.Binary32

/-!
Settings in JSON. There are four sections; every section and field may be left out and then has
its default. A record is written as an object, where unknown fields are ignored and a known one
comes at most once, or as an array of its first fields in order.
-/

set_option autoImplicit false
set_option relaxedAutoImplicit false

namespace VectorImage

structure Config where
  width : FloatWidth
  shareNodes : Bool
  prune : Bool
  tolerance : Binary64
  capacity : UInt64
  deriving DecidableEq

namespace Config

/-- The number of idle images that a cache keeps unless told otherwise. -/
def defaultCapacity : Nat := 32

def default : Config where
  width := .binary32
  shareNodes := true
  prune := false
  tolerance := .zero
  capacity := UInt64.ofNat defaultCapacity

/-- Put a field in its place among the fields found, unless its place is taken. A field without
a name is refused; one of an unknown name has no place. -/
def place (names : List String) (found : List (Option Json)) (field : Option String × Json) :
    Option (List (Option Json)) :=
  match field.1 with
  | none => none
  | some name =>
    match names.idxOf? name with
    | none => some found
    | some i => if (found.getD i none).isSome then none else some (found.set i (some field.2))

/-- The fields of a record with these names, in their order. -/
def recordFields (names : List String) : Json → Option (List (Option Json))
  | .object fields => fields.foldlM (place names) (names.map fun _ => none)
  | .array items =>
    if items.length ≤ names.length then
      some (items.map some ++ List.replicate (names.length - items.length) none)
    else none
  | _ => none

def widthOfName : String → Option FloatWidth
  | "f32" => some .binary32
  | "f64" => some .binary64
  | _ => none

/-- A width is its name, or an object that holds nothing under its name. -/
def widthOf : Json → Option FloatWidth
  | .string (some name) => widthOfName name
  | .object [(some name, .null)] => widthOfName name
  | _ => none

def boolOf : Json → Option Bool
  | .bool b => some b
  | _ => none

def numberOf : Json → Option Binary64
  | .number n => n.toBinary64?
  | _ => none

def countOf : Json → Option UInt64
  | .number n => n.toUInt64?
  | _ => none

/-- A field's value, or its default when it is left out. -/
def valueOr {α : Type} (read : Json → Option α) (default : α) : Option Json → Option α
  | none => some default
  | some j => read j

def encodeSection (c : Config) (j : Json) : Option Config := do
  match ← recordFields ["float_width"] j with
  | [width] => return { c with width := ← valueOr widthOf c.width width }
  | _ => none

def graphSection (c : Config) (j : Json) : Option Config := do
  match ← recordFields ["share_leaves"] j with
  | [share] => return { c with shareNodes := ← valueOr boolOf c.shareNodes share }
  | _ => none

def pruneSection (c : Config) (j : Json) : Option Config := do
  match ← recordFields ["prune", "tolerance"] j with
  | [prune, tolerance] =>
    return { c with
      prune := ← valueOr boolOf c.prune prune
      tolerance := ← valueOr numberOf c.tolerance tolerance }
  | _ => none

def cacheSection (c : Config) (j : Json) : Option Config := do
  match ← recordFields ["capacity"] j with
  | [capacity] => return { c with capacity := ← valueOr countOf c.capacity capacity }
  | _ => none

def ofJson? (j : Json) : Option Config := do
  match ← recordFields ["encode", "graph", "prune", "cache"] j with
  | [encode, graph, prune, cache] =>
    let c ← valueOr (encodeSection default) default encode
    let c ← valueOr (graphSection c) c graph
    let c ← valueOr (pruneSection c) c prune
    valueOr (cacheSection c) c cache
  | _ => none

/-- Read settings. -/
def ofText (text : String) : Except Error Config :=
  match (Json.ofText? text).bind ofJson? with
  | some c => .ok c
  | none => .error (.parse .config)

/-- Read settings from a file, given what the files hold. -/
def ofFile (files : String → Option String) (path : String) : Except Error Config :=
  match files path with
  | some text => ofText text
  | none => .error (.other (.openConfig path))

end Config

end VectorImage
