import InodeBridge.Dispatcher

/-! # Reads beside the requests

A mounted dispatcher takes one request at a time and serves it call by call.  With asynchronous reads it
puts a read whose operands are good aside and goes on to the next request.  A worker makes the call of
such a read at any time later, also between two calls of another request, and answers it then.
-/
namespace InodeBridge.Dispatcher

open Storage (Event)

structure Service where
  before : Dispatcher
  request : Request
  /-- The calls made, in order. -/
  events : List Event
  outcome : Option Outcome
  after : Dispatcher

/-- The read that a request leaves to a worker. -/
def deferred? (d : Dispatcher) : Request → Option PendingRead
  | .read _ handle offset size =>
    if d.options.asyncReads then
      match (readTarget handle offset size).run.run d with
      | .done (.ok target, _) => some target
      | _ => none
    else none
  | _ => none

/-- A request that is being served. -/
structure Serving where
  request : Request
  /-- The calls made so far, in order. -/
  events : List Event
  /-- What is left to do. -/
  rest : Program (Option Outcome × Dispatcher)

/-- A dispatcher at work over a storage. -/
structure Mounted (σ : Type) where
  /-- The state before the request that is being served. -/
  dispatcher : Dispatcher
  storage : σ
  serving : Option Serving
  /-- The reads that wait for a worker. -/
  pending : List PendingRead

inductive Act where
  | take (request : Request)
  /-- Make the next call of the request that is being served, or answer it if there is none. -/
  | proceed
  /-- Make the call of one of the reads that wait. -/
  | fetch (index : Nat)

inductive Moment where
  | taken (request : Request)
  /-- A read was asked for and put aside. -/
  | deferred (read : PendingRead)
  | called (event : Event)
  | answered (service : Service)
  /-- A worker made the call of a read, and answered it. -/
  | fetched (read : PendingRead) (result : Except StorageError Bytes)

namespace Mounted

variable {σ : Type}

def idle (d : Dispatcher) (state : σ) : Mounted σ := ⟨d, state, none, []⟩

/-- Does what can be done next; no request is taken while another one is being served. -/
def act (s : Storage σ) (m : Mounted σ) : Act → Option (Moment × Mounted σ)
  | .take request =>
    match m.serving, m.dispatcher.deferred? request with
    | some _, _ => none
    | none, some read => some (.deferred read, { m with pending := m.pending ++ [read] })
    | none, none =>
      let serving := ⟨request, [], (serve request).run m.dispatcher⟩
      some (.taken request, { m with serving := some serving })
  | .proceed =>
    match m.serving with
    | none => none
    | some ⟨request, events, .call c next⟩ =>
      let (result, storage) := s.perform c m.storage
      let serving := ⟨request, events ++ [⟨c, result⟩], next result⟩
      some (.called ⟨c, result⟩, { m with storage, serving := some serving })
    | some ⟨request, events, .done (outcome, after)⟩ =>
      let service := ⟨m.dispatcher, request, events, outcome, after⟩
      some (.answered service, { m with dispatcher := after, serving := none })
  | .fetch index =>
    match m.pending[index]? with
    | none => none
    | some read =>
      let (result, storage) := s.perform read.call m.storage
      some (.fetched read result, { m with storage, pending := m.pending.eraseIdx index })

/-- Does one thing after the other; what cannot be done is passed over. -/
def actAll (s : Storage σ) : Mounted σ → List Act → List Moment × Mounted σ
  | m, [] => ([], m)
  | m, a :: acts =>
    match m.act s a with
    | none => m.actAll s acts
    | some (moment, m) =>
      let (hist, m) := m.actAll s acts
      (moment :: hist, m)

end Mounted
end InodeBridge.Dispatcher
