import VectorImage.Call.Basic
import VectorImage.Canonical.Key
import VectorImage.Canonical.Table

/-!
The five tables of a compact image, and interning into tables that other images may share. A
value that is already present leaves the tables as they are, the same instance; the first new
value makes them an instance of their own.
-/

set_option autoImplicit false
set_option relaxedAutoImplicit false

namespace VectorImage

structure TableSet where
  images : CanonicalTable Raster
  strings : CanonicalTable String
  floatLists : CanonicalTable (List Binary64)
  transforms : CanonicalTable Affine
  paths : CanonicalTable Path
  deriving Inhabited

namespace TableSet

def empty : TableSet := ⟨.empty, .empty, .empty, .empty, .empty⟩

def image (t : TableSet) (index : UInt32) : Except Error Raster :=
  lookup t.images.entries .image index

def string (t : TableSet) (index : UInt32) : Except Error String :=
  lookup t.strings.entries .string index

def floatList (t : TableSet) (index : UInt32) : Except Error (List Binary64) :=
  lookup t.floatLists.entries .floatList index

def transform (t : TableSet) (index : UInt32) : Except Error Affine :=
  lookup t.transforms.entries .transform index

def path (t : TableSet) (index : UInt32) : Except Error Path :=
  lookup t.paths.entries .path index

/-- The entries that calls refer to. -/
def tables (t : TableSet) : Tables where
  images := t.images.entries.toList
  strings := t.strings.entries.toList
  floatLists := t.floatLists.entries.toList

/-- Numbers of images, strings, float lists, transforms and paths. -/
def counts (t : TableSet) : List Nat :=
  [t.images.size, t.strings.size, t.floatLists.size, t.transforms.size, t.paths.size]

end TableSet

/-- Shared tables to intern into, with the stamp of the run that interns. -/
structure Interner where
  stamp : Nat
  shared : Shared TableSet
  deriving Inhabited

namespace Interner

/-- Tables of the run's own, empty. -/
def fresh (stamp : Nat) : Interner := ⟨stamp, ⟨⟨stamp, []⟩, .empty⟩⟩

/-- Tables that start as those of another image. -/
def seeded (stamp : Nat) (shared : Shared TableSet) : Interner := ⟨stamp, shared⟩

variable {α : Type} [Keyed α] [KeyDigest]

/-- Intern into one of the tables. -/
def intern (pick : TableSet → CanonicalTable α) (put : TableSet → CanonicalTable α → TableSet)
    (v : α) (n : Interner) : Except Error (UInt32 × Interner) :=
  match (pick n.shared.value).find? v with
  | some i => .ok (UInt32.ofNat i, n)
  | none => do
    let (table, index) ← (pick n.shared.value).pushIndexed v
    return (index, ⟨n.stamp, ⟨⟨n.stamp, []⟩, put n.shared.value table⟩⟩)

def image (v : Raster) : StateT Interner (Except Error) UInt32 :=
  intern TableSet.images (fun t table => { t with images := table }) v

def string (v : String) : StateT Interner (Except Error) UInt32 :=
  intern TableSet.strings (fun t table => { t with strings := table }) v

def floatList (v : List Binary64) : StateT Interner (Except Error) UInt32 :=
  intern TableSet.floatLists (fun t table => { t with floatLists := table }) v

def transform (v : Affine) : StateT Interner (Except Error) UInt32 :=
  intern TableSet.transforms (fun t table => { t with transforms := table }) v

def path (v : Path) : StateT Interner (Except Error) UInt32 :=
  intern TableSet.paths (fun t table => { t with paths := table }) v

end Interner

end VectorImage
