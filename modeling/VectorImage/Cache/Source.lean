import VectorImage.Cache.Basic
import VectorImage.Cache.Location
import VectorImage.Svg.Image
import VectorImage.Text.Quoted

/-!
Where images come from: files and named bytes, each in a format and wanted in a representation.
A file's format is read off its name.
-/

set_option autoImplicit false
set_option relaxedAutoImplicit false

namespace VectorImage

/-- What the bytes of a source are: a stored image or an SVG document. -/
inductive SourceFormat
  | compact | svg
  deriving DecidableEq, Inhabited

namespace SourceFormat

/-- Files with the extension `svg`, in whatever case, are documents. -/
def ofLocation (location : Location) : SourceFormat :=
  match location.fileName?.bind Location.extension? with
  | some suffix => if suffix.map Char.toLower = ['s', 'v', 'g'] then .svg else .compact
  | none => .compact

/-- The format's name in messages. -/
def describe : SourceFormat → String
  | .compact => "Compact"
  | .svg => "Svg"

end SourceFormat

/-- The representation's name in messages. -/
def Representation.describe : Representation → String
  | .compact => "Compact"
  | .graph => "Graph"

inductive Source
  | file (location : Location) (format : SourceFormat) (representation : Representation)
  | bytes (name : String) (content : List UInt8) (format : SourceFormat)
    (representation : Representation)
  deriving Inhabited

/-- What makes a source the one it is: the parts of its location, or its name and bytes, and how
it is read. -/
inductive SourceIdentity
  | file (parts : List LocationPart) (format : SourceFormat) (representation : Representation)
  | bytes (name : String) (content : List UInt8) (format : SourceFormat)
    (representation : Representation)
  deriving DecidableEq

namespace Source

/-- The source of a file, in the format that its name tells. -/
def ofText (text : String) (representation : Representation) : Source :=
  .file ⟨text⟩ (.ofLocation ⟨text⟩) representation

def identity : Source → SourceIdentity
  | .file location format representation => .file location.parts format representation
  | .bytes name content format representation => .bytes name content format representation

instance : BEq Source where
  beq a b := decide (a.identity = b.identity)

instance : EquivBEq Source where
  rfl := decide_eq_true rfl
  symm h := decide_eq_true (of_decide_eq_true h).symm
  trans h h' := decide_eq_true ((of_decide_eq_true h).trans (of_decide_eq_true h'))

/-- A record in messages: its name, then its fields. -/
def describeRecord (name : String) (fields : List (String × String)) : String :=
  let items := fields.map fun f => f.1 ++ ": " ++ f.2
  name ++ " \x7b " ++ ", ".intercalate items ++ " \x7d"

/-- The source in messages. -/
def describe : Source → String
  | .file location format representation =>
    describeRecord "File"
      [("path", Quoted.encode location.text), ("format", format.describe),
        ("repr", representation.describe)]
  | .bytes name content format representation =>
    let items := content.map fun b => toString b.toNat
    describeRecord "Bytes"
      [("name", Quoted.encode name), ("bytes", "[" ++ ", ".intercalate items ++ "]"),
        ("format", format.describe), ("repr", representation.describe)]

instance : Described Source := ⟨describe⟩

/-- Read an image in the format given. -/
def decode (stamp : Nat) (content : List UInt8) (representation : Representation) :
    SourceFormat → Except Error Image
  | .compact => Image.ofBytes stamp content representation
  | .svg => Image.ofSvg stamp content representation

/-- Load the image of a source, given what the files hold. -/
def load (files : String → Option (List UInt8)) (stamp : Nat) : Source → Except Error Image
  | .file location format representation =>
    match files location.text with
    | some content => decode stamp content representation format
    | none => .error (.other (.readSource location.text))
  | .bytes _ content format representation => decode stamp content representation format

end Source

/-- The state of a cache in messages. -/
def ImageCache.describe {κ : Type} (c : ImageCache κ) : String :=
  Source.describeRecord "ImageCache"
    [("capacity", toString c.capacity), ("entries", toString c.size),
      ("idle", toString c.idleCount)]

end VectorImage
