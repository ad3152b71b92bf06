import InodeBridge.Dispatcher
import InodeBridge.Kernel.Reply

/-! # A session with the kernel

A session serves the requests of the kernel with a dispatcher until it is destroyed, each to its end, a
read too.  After that it serves none.
-/
namespace InodeBridge.Kernel

/-- Serves a request of the kernel with the dispatcher, and replies to it in its form. -/
def callback (clock : Timestamp) (request : Request) : Dispatcher.Action (Option ReplyCall) := do
  match request.resolve clock with
  | .error errno => return some (.error errno)
  | .ok served =>
    let outcome ← Dispatcher.serve served
    return request.form?.bind fun form => outcome.map form.call

structure Session where
  dispatcher : Dispatcher
  /-- What *now* means. -/
  clock : Timestamp
  isDestroyed : Bool

namespace Session

def new (dispatcher : Dispatcher) (clock : Timestamp) : Session := ⟨dispatcher, clock, false⟩

abbrev Action := StateT Session Program

def dispatch {α : Type} (action : Dispatcher.Action α) : Action α := fun s => do
  let (result, dispatcher) ← action.run s.dispatcher
  return (result, { s with dispatcher })

def serve (request : Request) : Action (Option Reply) := do
  let session ← get
  match request with
  | .plain .destroy =>
    let _ ← dispatch (callback session.clock request)
    modify fun s => { s with isDestroyed := true }
    return some .ok
  | _ =>
    if session.isDestroyed then return request.form?.map fun _ => .error Errno.inputOutput
    let call ← dispatch (callback session.clock request)
    return call.map .ofCall

/-- What a session tells the kernel when it starts: zero or the number of a failure, and whether it
takes reads that are answered out of order. -/
structure Greeting where
  errno : Errno
  takesAsyncReads : Bool
  deriving DecidableEq, Repr

def start : Action Greeting := do
  match ← dispatch (Dispatcher.serve .init) with
  | some .ok => return ⟨0, true⟩
  | outcome => return ⟨(outcome.map (·.errno)).getD Errno.inputOutput, true⟩

end Session
end InodeBridge.Kernel
