import InodeBridge.Storage

/-! # Storages made from others, and scripted ones -/
namespace InodeBridge.Storage

variable {σ : Type}

/-- A storage that fails the calls for which a failure is queued, if they are among those that may
fail, and passes the others on.  Each call takes one place in the queue. -/
def withFailures (s : Storage σ) (mayFail : Call → Bool) :
    Storage (List (Option StorageError) × σ) where
  root := s.root
  perform c state :=
    match (state.1.head?.join).filter fun _ => mayFail c with
    | some e => (.error e, (state.1.tail, state.2))
    | none =>
      let (r, inner) := s.perform c state.2
      (r, (state.1.tail, inner))

def withoutCapacity (s : Storage σ) : Storage σ where
  root := s.root
  perform
    | .statfs _, state => (.error (.ofKind .unsupported), state)
    | c, state => s.perform c state

/-- What one place of a script gives to the call that takes it. -/
abbrev ScriptedResult := (c : Call) → c.Result

/-- A storage that answers each call with the next place of a script, and fails after its end. -/
def scripted (root : Path) : Storage (List ScriptedResult) where
  root := root
  perform c
    | [] => (.error (.host Errno.inputOutput), [])
    | result :: script => (result c, script)

end InodeBridge.Storage
