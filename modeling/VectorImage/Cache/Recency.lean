/-!
A recency list in an arena of slots. Slot 0 is the sentinel of a ring: its next slot is the one
least recently linked, its previous slot the one most recently linked. A slot that is unlinked
goes on a stack of free slots and is the first to be used again, so that unlinking moves nothing.
-/

set_option autoImplicit false
set_option relaxedAutoImplicit false

namespace VectorImage

/-- A slot of the ring; a slot without a key is free, or the sentinel. -/
structure RecencySlot (κ : Type) where
  prev : Nat
  next : Nat
  key : Option κ
  deriving Inhabited

structure Recency (κ : Type) where
  slots : Array (RecencySlot κ)
  free : List Nat
  length : Nat

namespace Recency

variable {κ : Type}

/-- The sentinel's slot. -/
def head : Nat := 0

def empty : Recency κ := ⟨#[⟨head, head, none⟩], [], 0⟩

instance : Inhabited (Recency κ) := ⟨empty⟩

def slot (r : Recency κ) (i : Nat) : RecencySlot κ := r.slots.getD i ⟨head, head, none⟩

def setNext (r : Recency κ) (i next : Nat) : Recency κ :=
  { r with slots := r.slots.modify i fun s => { s with next := next } }

def setPrev (r : Recency κ) (i prev : Nat) : Recency κ :=
  { r with slots := r.slots.modify i fun s => { s with prev := prev } }

/-- Put a key into a free slot, or into a new one if none is free; the slot is not linked. -/
def claim (r : Recency κ) (key : κ) : Recency κ × Nat :=
  match r.free with
  | i :: free =>
    ({ r with slots := r.slots.modify i fun s => { s with key := some key }, free := free }, i)
  | [] => ({ r with slots := r.slots.push ⟨head, head, some key⟩ }, r.slots.size)

/-- Link a key as the most recent, and answer its slot. -/
def pushBack (r : Recency κ) (key : κ) : Recency κ × Nat :=
  let (r, i) := r.claim key
  let tail := (r.slot head).prev
  let r := { r with slots := r.slots.modify i fun s => { s with prev := tail, next := head } }
  let r := (r.setNext tail i).setPrev head i
  ({ r with length := r.length + 1 }, i)

/-- Unlink a slot, and answer its key; the sentinel, free slots and numbers of no slot have
none and change nothing. -/
def remove (r : Recency κ) (i : Nat) : Recency κ × Option κ :=
  if i = head then (r, none)
  else
    match r.slots[i]? with
    | some ⟨prev, next, some key⟩ =>
      let r := { r with slots := r.slots.modify i fun s => { s with key := none } }
      let r := (r.setNext prev next).setPrev next prev
      ({ r with free := i :: r.free, length := r.length - 1 }, some key)
    | _ => (r, none)

/-- Unlink the least recent slot. -/
def popFront (r : Recency κ) : Recency κ × Option κ := r.remove (r.slot head).next

/-- The keys along the ring from slot `i` on, up to the first slot without one. -/
def keysFrom (r : Recency κ) : (fuel i : Nat) → List κ
  | 0, _ => []
  | fuel + 1, i =>
    match (r.slot i).key with
    | some key => key :: r.keysFrom fuel (r.slot i).next
    | none => []

/-- The keys from the least to the most recent. The ring has no more slots than the arena. -/
def toList (r : Recency κ) : List κ := r.keysFrom r.slots.size (r.slot head).next

end Recency

end VectorImage
