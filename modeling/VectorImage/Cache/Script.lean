import VectorImage.Cache.Source

/-!
Scripts of cache operations. Besides sources that load by themselves a script knows named keys
whose loads it settles itself, for good or ill; they are numbered in the order they are started.
What a load has come to is seen when one of its handles is observed, and stays so.
-/

set_option autoImplicit false
set_option relaxedAutoImplicit false

namespace VectorImage

namespace CacheScript

/-- What is cached: a key whose loads the script settles, or a source. -/
inductive Key
  | scripted (name : String)
  | source (source : Source)
  deriving Inhabited

namespace Key

/-- What makes a key the one it is. -/
def identity : Key → String ⊕ SourceIdentity
  | .scripted name => .inl name
  | .source s => .inr s.identity

instance : BEq Key where
  beq a b := decide (a.identity = b.identity)

instance : EquivBEq Key where
  rfl := decide_eq_true rfl
  symm h := decide_eq_true (of_decide_eq_true h).symm
  trans h h' := decide_eq_true ((of_decide_eq_true h).trans (of_decide_eq_true h'))

def describe : Key → String
  | .scripted name => "<" ++ name ++ ">"
  | .source s => s.describe

instance : Described Key := ⟨describe⟩

def isScripted : Key → Bool
  | .scripted _ => true
  | .source _ => false

end Key

/-- A key together with how a load that it starts is settled at once, if it is. -/
structure Subject where
  key : Key
  settlement : Option Bool

/-- A step. Handles are named by their position among all handles answered so far, loads by
their position among the scripted loads. -/
inductive Step
  | add (subject : Subject)
  | remove (subject : Subject)
  | reload (subject : Subject)
  | peek (subject : Subject)
  | contains (subject : Subject)
  | observe (handle : Nat)
  | settle (load : Nat) (good : Bool)
  | setCapacity (capacity : Nat)

inductive Answer
  | done
  | handle (number : Nat)
  | noHandle
  | present (answer : Bool)
  | pending
  | loaded (result : Except Error Image)
  | refused (cause : CacheUsageError)

/-- A scripted load: how it is settled, if it is, and whether that has been seen. -/
structure ScriptedLoad where
  settlement : Option Bool
  isSeen : Bool
  deriving DecidableEq, Inhabited

structure State where
  cache : ImageCache Key
  handles : Array LoadHandle
  loads : Array ScriptedLoad

namespace State

def start (capacity : Nat) : State := ⟨.empty capacity, #[], #[]⟩

/-- Number of scripted loads that have been seen settled. -/
def seenCount (s : State) : Nat := s.loads.toList.countP ScriptedLoad.isSeen

/-- Answer a handle of the cache with the next number. -/
def giveHandle (s : State) (handle : LoadHandle) : State × Answer :=
  ({ s with handles := s.handles.push handle }, .handle s.handles.size)

/-- Note the load that the cache has started for a subject, if it is a scripted one. -/
def noteLoad (s : State) (subject : Subject) (cache : ImageCache Key) : State :=
  if subject.key.isScripted && s.cache.started.size < cache.started.size then
    { s with cache := cache, loads := s.loads.push ⟨subject.settlement, false⟩ }
  else { s with cache := cache }

/-- The position of a load among the scripted ones. -/
def scriptedNumber (s : State) (handle : LoadHandle) : Nat :=
  (s.cache.started.toList.take handle).countP Key.isScripted

/-- The image of a scripted load that ends well: nothing, as wide as the load's number. -/
def scriptedImage (load : Nat) : Except Error Image :=
  .compact <$> CompactImage.ofCalls load .binary32
    [.init .empty, .document (.sized (.ofNat load) .one)]

/-- See what a load has come to. -/
def observe (files : String → Option (List UInt8)) (s : State) (handle : LoadHandle) :
    State × Answer :=
  match s.cache.started[handle]? with
  | none => (s, .pending)
  | some (.source source) => (s, .loaded (source.load files handle))
  | some (.scripted _) =>
    let number := s.scriptedNumber handle
    match (s.loads[number]?).bind ScriptedLoad.settlement with
    | none => (s, .pending)
    | some good =>
      let s := { s with loads := s.loads.modify number fun l => { l with isSeen := true } }
      (s, .loaded (if good then scriptedImage number else .error (.parse (.loadFailed number))))

/-- Take a step. -/
def step (files : String → Option (List UInt8)) (s : State) : Step → State × Answer
  | .add subject =>
    let (cache, handle) := s.cache.addReference subject.key
    (s.noteLoad subject cache).giveHandle handle
  | .remove subject =>
    match s.cache.removeReference subject.key with
    | .ok cache => ({ s with cache := cache }, .done)
    | .error cause => (s, .refused cause)
  | .reload subject =>
    match s.cache.reload subject.key with
    | .ok (cache, handle) => (s.noteLoad subject cache).giveHandle handle
    | .error cause => (s, .refused cause)
  | .peek subject =>
    match s.cache.peek subject.key with
    | some handle => s.giveHandle handle
    | none => (s, .noHandle)
  | .contains subject => (s, .present (s.cache.contains subject.key))
  | .observe number =>
    match s.handles[number]? with
    | some handle => s.observe files handle
    | none => (s, .pending)
  | .settle load good =>
    ({ s with
      loads := s.loads.modify load fun l =>
        if l.isSeen then l else { l with settlement := some good } }, .done)
  | .setCapacity capacity => ({ s with cache := s.cache.setCapacity capacity }, .done)

end State

/-- The answers of a script, each with the state after it, and the state at the end. -/
def run (files : String → Option (List UInt8)) (s : State) :
    List Step → List (Answer × State) × State
  | [] => ([], s)
  | step :: rest =>
    let (s, answer) := s.step files step
    let (answers, last) := run files s rest
    ((answer, s) :: answers, last)

end CacheScript

end VectorImage
