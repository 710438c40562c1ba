import VectorImage.Cache.Recency
import VectorImage.Error

/-!
A cache of loads by source. References to a source are counted; a source whose count drops to
zero joins the recency list, from whose front entries are evicted once it is longer than the
capacity. Every load that is started has a number; a handle is the number of the load it is
bound to, and stays bound to it whatever becomes of the entry.
-/

set_option autoImplicit false
set_option relaxedAutoImplicit false

namespace VectorImage

/-- The text that names a source in messages. -/
class Described (κ : Type) where
  describe : κ → String

/-- The number of a load, counted from 0. -/
abbrev LoadHandle := Nat

/-- An entry: its latest load, its references, and its slot in the recency list while it has
none. -/
structure CacheEntry where
  handle : LoadHandle
  references : Nat
  slot : Option Nat
  deriving DecidableEq, Inhabited

/-- The cache, with the sources of all loads started so far. -/
structure ImageCache (κ : Type) where
  capacity : Nat
  entries : List (κ × CacheEntry)
  idle : Recency κ
  started : Array κ

namespace ImageCache

variable {κ : Type}

def empty (capacity : Nat) : ImageCache κ := ⟨capacity, [], .empty, #[]⟩

/-- Number of entries. -/
def size (c : ImageCache κ) : Nat := c.entries.length

def isEmpty (c : ImageCache κ) : Bool := c.entries.isEmpty

/-- Number of entries without references. -/
def idleCount (c : ImageCache κ) : Nat := c.idle.length

/-- The sources without references, next to be evicted first. -/
def idleSources (c : ImageCache κ) : List κ := c.idle.toList

/-- Start a load of a source. -/
def start (c : ImageCache κ) (source : κ) : ImageCache κ × LoadHandle :=
  ({ c with started := c.started.push source }, c.started.size)

variable [BEq κ]

def entry? (c : ImageCache κ) (source : κ) : Option CacheEntry := c.entries.lookup source

def contains (c : ImageCache κ) (source : κ) : Bool := (c.entry? source).isSome

def referenceCount? (c : ImageCache κ) (source : κ) : Option Nat :=
  (c.entry? source).map CacheEntry.references

/-- The latest load of a source, without a reference taken. -/
def peek (c : ImageCache κ) (source : κ) : Option LoadHandle :=
  (c.entry? source).map CacheEntry.handle

/-- Change the entry of a source. -/
def update (c : ImageCache κ) (source : κ) (f : CacheEntry → CacheEntry) : ImageCache κ :=
  { c with entries := c.entries.map fun p => if p.1 == source then (p.1, f p.2) else p }

def erase (c : ImageCache κ) (source : κ) : ImageCache κ :=
  { c with entries := c.entries.filter fun p => !(p.1 == source) }

/-- Drop the idle sources from the front, `excess` of them. -/
def drop (c : ImageCache κ) : (excess : Nat) → ImageCache κ
  | 0 => c
  | excess + 1 =>
    match c.idle.popFront with
    | (idle, some source) => (({ c with idle := idle }).erase source).drop excess
    | (_, none) => c

/-- Evict until the idle sources are no more than the capacity. -/
def evict (c : ImageCache κ) : ImageCache κ := c.drop (c.idle.length - c.capacity)

/-- Take a reference. A source without an entry starts loading. -/
def addReference (c : ImageCache κ) (source : κ) : ImageCache κ × LoadHandle :=
  match c.entry? source with
  | some e =>
    let idle := match e.slot with
      | some slot => (c.idle.remove slot).1
      | none => c.idle
    let c := { c with idle := idle }
    (c.update source fun e => { e with references := e.references + 1, slot := none }, e.handle)
  | none =>
    let (c, handle) := c.start source
    ({ c with entries := (source, ⟨handle, 1, none⟩) :: c.entries }, handle)

/-- Change the number of idle sources kept. -/
def setCapacity (c : ImageCache κ) (capacity : Nat) : ImageCache κ :=
  { c with capacity := capacity }.evict

variable [Described κ]

/-- Give a reference back. A source that has none left becomes the most recently released. -/
def removeReference (c : ImageCache κ) (source : κ) : Except CacheUsageError (ImageCache κ) :=
  match c.entry? source with
  | none => .error (.removeUnknown (Described.describe source))
  | some e =>
    if e.references = 0 then .error (.removeUnreferenced (Described.describe source))
    else if e.references = 1 then
      let (idle, slot) := c.idle.pushBack source
      .ok (({ c with idle := idle }).update source fun e =>
        { e with references := 0, slot := some slot }).evict
    else .ok (c.update source fun e => { e with references := e.references - 1 })

/-- Start another load of a source that has an entry; references and recency stay. -/
def reload (c : ImageCache κ) (source : κ) :
    Except CacheUsageError (ImageCache κ × LoadHandle) :=
  match c.entry? source with
  | none => .error (.reloadUnknown (Described.describe source))
  | some _ =>
    let (c, handle) := c.start source
    .ok (c.update source fun e => { e with handle := handle }, handle)

end ImageCache

end VectorImage
