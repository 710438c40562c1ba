import Std.Data.HashMap
import VectorImage.Canonical.Key
import VectorImage.Indexed

/-!
Append-only tables of canonical values. A value is looked up by its key through buckets that a
digest picks; the keys alone decide, so the result does not depend on the digest. Interning
answers the index of the first entry with the same key and appends only when there is none.
-/

set_option autoImplicit false
set_option relaxedAutoImplicit false

namespace VectorImage

/-- The entries in order, and for each digest the positions of the entries that have it. -/
structure CanonicalTable (α : Type) where
  entries : Array α
  buckets : Std.HashMap UInt64 (List Nat)

namespace CanonicalTable

variable {α : Type} [Keyed α] [KeyDigest]

def empty {α : Type} : CanonicalTable α := ⟨#[], {}⟩

instance {α : Type} : Inhabited (CanonicalTable α) := ⟨empty⟩

def size {α : Type} (t : CanonicalTable α) : Nat := t.entries.size

/-- The entry at a position has this key. -/
def hasKeyAt (t : CanonicalTable α) (key : Key) (i : Nat) : Bool :=
  match t.entries[i]? with
  | some v => Keyed.key v == key
  | none => false

/-- The position of the first entry with the key of `v`. -/
def find? (t : CanonicalTable α) (v : α) : Option Nat :=
  let key := Keyed.key v
  ((t.buckets[KeyDigest.digest key]?).getD []).find? (t.hasKeyAt key)

/-- Append a value, whether or not an entry has its key. -/
def push (t : CanonicalTable α) (v : α) : CanonicalTable α :=
  let digest := KeyDigest.digest (Keyed.key v)
  ⟨t.entries.push v, t.buckets.insert digest ((t.buckets[digest]?).getD [] ++ [t.entries.size])⟩

/-- Append a value and answer its index. -/
def pushIndexed (t : CanonicalTable α) (v : α) : Except Error (CanonicalTable α × UInt32) := do
  let index ← nextIndex t.size
  return (t.push v, index)

/-- The index of the value, which is appended if no entry has its key. -/
def intern (t : CanonicalTable α) (v : α) : Except Error (CanonicalTable α × UInt32) :=
  match t.find? v with
  | some i => .ok (t, UInt32.ofNat i)
  | none => t.pushIndexed v

end CanonicalTable

end VectorImage
