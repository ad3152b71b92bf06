import InodeBridge.Dispatcher.Worker
import InodeBridge.Proofs.Dispatcher.Effect

/-! # Requests served one after the other

Serving a request over a storage leaves a record of it: the states before and after, the calls made and
the answer.  A history is a list of such records in which each request starts where the one before it
ended; that the answers of storage come from one storage is not asked of it.
-/
namespace InodeBridge.Dispatcher

open Storage (Call Event)

/-- Whether serving the request can have gone like this. -/
def Service.Possible (r : Service) : Prop :=
  Action.Does (serve r.request) r.before r.events r.outcome r.after

section Over

variable {σ : Type} (s : Storage σ)

def serveOver (d : Dispatcher) (state : σ) (request : Request) : Service × σ :=
  let run := ((serve request).run d).run s state
  (⟨d, request, run.trace, run.result.1, run.result.2⟩, run.state)

def serveAll : Dispatcher → σ → List Request → List Service
  | _, _, [] => []
  | d, state, request :: requests =>
    (serveOver s d state request).1 ::
      serveAll (serveOver s d state request).1.after (serveOver s d state request).2 requests

def stateAfter : Dispatcher → σ → List Request → Dispatcher × σ
  | d, state, [] => (d, state)
  | d, state, request :: requests =>
    stateAfter (serveOver s d state request).1.after (serveOver s d state request).2 requests

theorem serveOver_possible (d : Dispatcher) (state : σ) (request : Request) :
    (serveOver s d state request).1.Possible :=
  Program.run_yields s ((serve request).run d) state

theorem serveOver_answers (d : Dispatcher) (state : σ) (request : Request) :
    s.Answers state (serveOver s d state request).1.events (serveOver s d state request).2 :=
  Program.run_answers s ((serve request).run d) state

end Over

/-- Services of which each starts in the state in which the one before it ended. -/
inductive History : Dispatcher → List Service → Dispatcher → Prop
  | nil (d : Dispatcher) : History d [] d
  | cons {r : Service} {rest : List Service} {d d' : Dispatcher} (starts : r.before = d)
    (possible : r.Possible) (later : History r.after rest d') : History d (r :: rest) d'

theorem history_serveAll {σ : Type} (s : Storage σ) (d : Dispatcher) (state : σ)
    (requests : List Request) :
    History d (serveAll s d state requests) (stateAfter s d state requests).1 := by
  induction requests generalizing d state with
  | nil => exact .nil d
  | cons request requests ih => exact .cons rfl (serveOver_possible s d state request) (ih _ _)

theorem History.append_iff {d d' : Dispatcher} {first rest : List Service} :
    History d (first ++ rest) d' ↔ ∃ mid, History d first mid ∧ History mid rest d' := by
  induction first generalizing d with
  | nil =>
    constructor
    · exact fun h => ⟨d, .nil d, h⟩
    · rintro ⟨mid, hfirst, hrest⟩
      cases hfirst
      exact hrest
  | cons r first ih =>
    constructor
    · intro h
      cases h with
      | cons starts possible later =>
        obtain ⟨mid, hfirst, hrest⟩ := ih.1 later
        exact ⟨mid, .cons starts possible hfirst, hrest⟩
    · rintro ⟨mid, hfirst, hrest⟩
      cases hfirst with
      | cons starts possible later => exact .cons starts possible (ih.2 ⟨mid, later, hrest⟩)

theorem history_singleton_iff {d d' : Dispatcher} {r : Service} :
    History d [r] d' ↔ r.Possible ∧ r.before = d ∧ r.after = d' := by
  constructor
  · intro h
    cases h with
    | cons starts possible later =>
      cases later
      exact ⟨possible, starts, rfl⟩
  · rintro ⟨possible, starts, rfl⟩
    exact .cons starts possible (.nil _)

theorem map_request_serveAll {σ : Type} (s : Storage σ) (d : Dispatcher) (state : σ)
    (requests : List Request) :
    (serveAll s d state requests).map (·.request) = requests := by
  induction requests generalizing d state with
  | nil => rfl
  | cons request requests ih => rw [serveAll, List.map_cons, ih]; rfl

theorem possible_of_mem_serveAll {σ : Type} {s : Storage σ} {d : Dispatcher} {state : σ}
    {requests : List Request} {r : Service} (h : r ∈ serveAll s d state requests) :
    r.Possible := by
  induction requests generalizing d state with
  | nil => simp [serveAll] at h
  | cons request requests ih =>
    rcases List.mem_cons.1 h with rfl | h
    · exact serveOver_possible s d state request
    · exact ih h

theorem History.invariant {P : Dispatcher → Prop} {d d' : Dispatcher} {hist : List Service}
    (h : History d hist d') (start : P d)
    (step : ∀ r ∈ hist, r.Possible → P r.before → P r.after) : P d' := by
  induction h with
  | nil => exact start
  | cons starts possible _ ih =>
    exact ih (step _ (by simp) possible (starts ▸ start))
      fun r hr => step r (List.mem_cons_of_mem _ hr)

end InodeBridge.Dispatcher
