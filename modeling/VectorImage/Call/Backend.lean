import VectorImage.Call.Nesting

/-!
What turns a stream of calls into an image. A backend performs calls that the nesting check has
accepted, so that all backends refuse the same calls for the same reasons. `Backend.replay` runs
a whole stream, renaming each gradient to the id that the backend answered for it.

The simplest backend is the recorder, which keeps the calls it was given; there a gradient's id is
its position among the gradient calls.
-/

set_option autoImplicit false
set_option relaxedAutoImplicit false

namespace VectorImage

/-- A consumer of accepted calls with states `σ` and results `ω`. -/
structure Backend (σ ω : Type) where
  gradientCount : σ → Nat
  perform : σ → Call → Except Error (σ × Reply)
  complete : σ → Except Error ω

/-- A backend's state together with the nesting of the calls it was given. -/
structure Session (σ : Type) where
  nesting : Nesting
  state : σ

def Session.start {σ : Type} (state : σ) : Session σ := ⟨.start, state⟩

namespace Backend

variable {σ ω : Type} (b : Backend σ ω)

/-- Check a call and perform it. A call that fails leaves the state as it was. -/
def issue (s : Session σ) (call : Call) : Session σ × Except Error Reply :=
  match s.nesting.accept (b.gradientCount s.state) call with
  | .error e => (⟨s.nesting.reject call, s.state⟩, .error e)
  | .ok nesting =>
    match b.perform s.state call with
    | .error e => (⟨nesting, s.state⟩, .error e)
    | .ok (state, reply) => (⟨nesting, state⟩, .ok reply)

def finish (s : Session σ) : Except Error ω := do
  s.nesting.checkClosed
  b.complete s.state

/-- Issue every call as it is, whatever the ones before it answered. -/
def issueAll (s : Session σ) : List Call → Session σ × List (Except Error Reply)
  | [] => (s, [])
  | call :: rest =>
    let (s, answer) := b.issue s call
    let (s, answers) := issueAll s rest
    (s, answer :: answers)

/-- Replay from a state, where `ids` holds the answers to the gradient calls so far. -/
def replayFrom (ids : Array GradientId) (s : Session σ) : List Call → Except Error ω
  | [] => b.finish s
  | call :: rest => do
    let call ← call.mapGradients (lookup ids .gradient)
    match b.issue s call with
    | (_, .error e) => .error e
    | (s, .ok .done) => replayFrom ids s rest
    | (s, .ok (.gradient id)) => replayFrom (ids.push id) s rest

/-- Issue a stream up to its first failure and finish. -/
def replay (state : σ) (calls : List Call) : Except Error ω :=
  b.replayFrom #[] (.start state) calls

end Backend

structure Recorder where
  calls : Array Call
  gradients : Nat
  deriving Inhabited

namespace Recorder

def empty : Recorder := ⟨#[], 0⟩

def perform (r : Recorder) : Call → Except Error (Recorder × Reply)
  | .gradient g => do
    let id ← nextIndex r.gradients
    return (⟨r.calls.push (.gradient g), r.gradients + 1⟩, .gradient id)
  | call => .ok (⟨r.calls.push call, r.gradients⟩, .done)

def backend : Backend Recorder (List Call) where
  gradientCount := Recorder.gradients
  perform := perform
  complete r := .ok r.calls.toList

/-- The calls that a stream records, if it is accepted. -/
def record (calls : List Call) : Except Error (List Call) := backend.replay empty calls

end Recorder

end VectorImage
