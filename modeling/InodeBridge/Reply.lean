import InodeBridge.Outcome
import InodeBridge.Text.Quoted

/-! # The token that answers a request

A token delivers one outcome.  One that is dropped before it was used delivers a failure, so every
request is answered once.
-/
namespace InodeBridge

/-- The token of a request for an operation, with what it has delivered. -/
structure Reply where
  operation : String
  delivered : List Outcome
  deriving DecidableEq, Repr

namespace Reply

def new (operation : String) : Reply := ⟨operation, []⟩

def isAnswered (r : Reply) : Bool := !r.delivered.isEmpty

/-- Delivers an outcome, unless one was delivered before. -/
def send (r : Reply) (o : Outcome) : Reply :=
  if r.isAnswered then r else { r with delivered := [o] }

def drop (r : Reply) : Reply := r.send (.error Errno.inputOutput)

def describe (r : Reply) : String :=
  "Reply \x7b op: " ++ Text.quote r.operation ++ ", answered: " ++ toString r.isAnswered ++ " \x7d"

theorem length_delivered_drop (operation : String) : (new operation).drop.delivered.length = 1 :=
  rfl

theorem delivered_send_drop (operation : String) (o : Outcome) :
    (((new operation).send o).drop).delivered = [o] := rfl

end Reply
end InodeBridge
