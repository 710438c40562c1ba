import VectorImage.Script.Inspection

/-!
Scripts: steps that build, convert, store, load, compare and inspect images. Steps run in order
and go on after a failure; the number of a step is the stamp of the instances it makes.
-/

set_option autoImplicit false
set_option relaxedAutoImplicit false

namespace VectorImage

namespace Script

/-- What to build: recorded calls, a compact image, or a shared tree that may start from the
values of the tree in another slot. -/
inductive Target
  | recorder
  | compact (width : FloatWidth)
  | graph (shareNodes : Bool) (seed : Option Nat)

/-- Changes to stored bytes before they are read: bytes written over others at an offset, a
length to cut to, bytes put behind. -/
structure Edit where
  patches : List (Nat × Compact.Bytes)
  cut : Option Nat
  suffix : Compact.Bytes

/-- Where stored bytes come from. -/
inductive ByteSource
  | given (bytes : Compact.Bytes)
  | slot (slot : Nat)

/-- A step. A call may be given as the error that making it met. -/
inductive Step
  | build (target : Target) (calls : List (Except Error Call))
  | calls (calls : List (Except Error Call))
  | replay (slot : Nat) (target : Target)
  | bytes (slot : Nat)
  | load (source : ByteSource) (edit : Edit) (as : Representation)
  | toCompact (slot : Nat) (width : FloatWidth)
  | toGraph (slot : Nat) (shareNodes : Bool)
  | view (slot : Nat) (rect : Rect) (prune : Bool) (tolerance : Binary64)
  | same (a b : Nat)
  | inspect (slot : Nat) (queries : List Query)

inductive Answer
  | done
  | built (replies : List (Except Error Reply)) (finish : Except Error Unit)
  | bytes (bytes : Compact.Bytes)
  | same (answer : Bool)
  | inspected (findings : List (Query × Except Failure Finding))
  | failed (failure : Failure)

/-- Write `new` over the bytes from `offset` on, within their length. -/
def overwrite (offset : Nat) (new bytes : Compact.Bytes) : Compact.Bytes :=
  bytes.take offset ++ (new.take (bytes.length - offset) ++ bytes.drop (offset + new.length))

def Edit.apply (e : Edit) (bytes : Compact.Bytes) : Compact.Bytes :=
  let patched := e.patches.foldl (fun b p => overwrite p.1 p.2 b) bytes
  let cut := match e.cut with
    | some n => patched.take n
    | none => patched
  cut ++ e.suffix

/-- Issue calls one by one, passing over those that could not be made, and finish. -/
def buildWith {σ ω : Type} (b : Backend σ ω) (state : σ) (calls : List (Except Error Call)) :
    List (Except Error Reply) × Except Error ω :=
  let (session, replies) := calls.foldl (fun (s, replies) call =>
    match call with
    | .error e => (s, .error e :: replies)
    | .ok call =>
      let (s, reply) := b.issue s call
      (s, reply :: replies)) (Session.start state, [])
  (replies.reverse, b.finish session)

/-- The node cache that a seed slot provides. -/
def Slots.seed (s : Slots) : Option Nat → Except Failure NodeCache
  | none => .ok .empty
  | some slot => GraphImage.cache <$> s.graph slot

/-- Build with the calls as they are; also the replies to the calls. -/
def Target.build (slots : Slots) (stamp : Nat) (calls : List (Except Error Call)) :
    Target → Except Failure (List (Except Error Reply) × Except Error Held)
  | .recorder =>
    let (replies, result) := buildWith Recorder.backend .empty calls
    .ok (replies, Held.calls <$> result)
  | .compact width =>
    let (replies, result) := buildWith Encoder.backend (.fresh stamp width) calls
    .ok (replies, (Held.image ∘ Image.compact) <$> result)
  | .graph shareNodes seed => do
    let seed ← slots.seed seed
    let (replies, result) := buildWith GraphBuilder.backend (.start stamp shareNodes seed) calls
    return (replies, (Held.image ∘ Image.graph) <$> result)

/-- Build from a stream, renaming gradients. -/
def Target.replay (slots : Slots) (stamp : Nat) (stream : List Call) :
    Target → Except Failure Held
  | .recorder => .calls <$> attempt (Recorder.record stream)
  | .compact width =>
    (Held.image ∘ Image.compact) <$> attempt (CompactImage.ofCalls stamp width stream)
  | .graph shareNodes seed => do
    let seed ← slots.seed seed
    (Held.image ∘ Image.graph) <$> attempt (GraphImage.ofCalls stamp shareNodes seed stream)

/-- Two compact images share their tables; two shared trees have one root. -/
def sameInstance : Image → Image → Bool
  | .compact c, .compact d => c.sharesTables d
  | .graph g, .graph h => g.root.inst = h.root.inst
  | _, _ => false

/-- Take a step: the answer and what the step leaves in its slot. -/
def Step.run (slots : Slots) (stamp : Nat) :
    Step → StateT Numbering (Except Failure) (Answer × Option Held)
  | .build target given => do
    let (replies, result) ← target.build slots stamp given
    return (.built replies (result.map fun _ => ()), result.toOption)
  | .calls given => do
    let stream ← attempt (given.mapM id)
    return (.done, some (.calls stream))
  | .replay slot target => do
    let stream ← slots.stream slot
    let held ← target.replay slots stamp stream
    return (.done, some held)
  | .bytes slot => do
    let i ← slots.image slot
    let written ← attempt (i.toBytes stamp)
    return (.bytes written, some (.bytes written))
  | .load source edit as => do
    let stored ← match source with
      | .given b => pure b
      | .slot slot => liftM (slots.bytes slot)
    let i ← attempt (Image.ofBytes stamp (edit.apply stored) as)
    return (.done, some (.image i))
  | .toCompact slot width => do
    let i ← slots.image slot
    let c ← attempt (i.toCompact stamp width)
    return (.done, some (.image (.compact c)))
  | .toGraph slot shareNodes => do
    let i ← slots.image slot
    let g ← attempt (i.toGraph stamp shareNodes)
    return (.done, some (.image (.graph g)))
  | .view slot rect prune tolerance => do
    let i ← slots.image slot
    let i ← attempt (i.withViewport stamp rect prune tolerance)
    return (.done, some (.image i))
  | .same a b => do
    let a ← slots.image a
    let b ← slots.image b
    return (.same (sameInstance a b), none)
  | .inspect slot queries => fun numbering =>
    let (findings, numbering) := Script.inspect slots slot queries numbering
    .ok ((.inspected findings, none), numbering)

/-- Run steps in order, filling the slots. -/
def runFrom (slots : Slots) (numbering : Numbering) : List Step → List Answer
  | [] => []
  | step :: rest =>
    match step.run slots slots.size numbering with
    | .error failure => .failed failure :: runFrom (slots.push none) numbering rest
    | .ok ((answer, held), numbering) => answer :: runFrom (slots.push held) numbering rest

/-- The answers of a script. -/
def run (steps : List Step) : List Answer := runFrom #[] .empty steps

end Script

end VectorImage
