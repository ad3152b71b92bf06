import InodeBridge.Proofs.Dispatcher.Runs
import InodeBridge.Proofs.InodeTable.Consistency

/-! # Runs in which tables are visited in any order

Renaming and shutting down visit the entries of a table in the order in which it keeps them, and a
table may keep them in any.  In the runs here the entries are put in some order before each request, so
what holds after all of them does not depend on it.
-/
namespace InodeBridge

/-- A table of inodes with its entries in another order. -/
structure InodeTable.Reorders (t u : InodeTable) : Prop where
  number : u.number = t.number
  root : u.root = t.root
  byInode : u.byInode.entries.Perm t.byInode.entries
  byLocation : u.byLocation.entries.Perm t.byLocation.entries

namespace InodeTable.Reorders

variable {t u : InodeTable}

@[refl] theorem refl (t : InodeTable) : t.Reorders t := ⟨rfl, rfl, .refl _, .refl _⟩

theorem get?_byInode (h : t.Reorders u) (inode : Inode) :
    u.byInode.get? inode = t.byInode.get? inode :=
  FiniteMap.get?_eq_of_perm h.byInode inode

theorem get?_byLocation (h : t.Reorders u) (location : Location) :
    u.byLocation.get? location = t.byLocation.get? location :=
  FiniteMap.get?_eq_of_perm h.byLocation location

theorem resolve? (h : t.Reorders u) (inode : Inode) : u.resolve? inode = t.resolve? inode := by
  rw [InodeTable.resolve?, InodeTable.resolve?, h.get?_byInode]

theorem inodeOf? (h : t.Reorders u) (path : Path) : u.inodeOf? path = t.inodeOf? path := by
  rw [InodeTable.inodeOf?, InodeTable.inodeOf?, h.get?_byLocation]

theorem consistent (h : t.Reorders u) (hc : t.Consistent) :
    u.Consistent where
  binding_of_entry he := by
    rw [h.get?_byInode] at he
    obtain ⟨b, hb, hi⟩ := hc.binding_of_entry he
    exact ⟨b, (h.get?_byLocation _).trans hb, hi⟩
  entry_of_binding hb := by
    rw [h.get?_byLocation] at hb
    obtain ⟨e, he, hl⟩ := hc.entry_of_binding hb
    exact ⟨e, (h.get?_byInode _).trans he, hl⟩
  spelling_components hb := hc.spelling_components (h.get?_byLocation _ ▸ hb)
  zero_unbound := (h.get?_byInode _).trans hc.zero_unbound

end InodeTable.Reorders

namespace Dispatcher

structure Reorders (d mid : Dispatcher) : Prop where
  options : mid.options = d.options
  inodes : d.inodes.Reorders mid.inodes
  next : mid.handles.next = d.handles.next
  held : mid.handles.held.entries.Perm d.handles.held.entries

@[refl] theorem Reorders.refl (d : Dispatcher) : d.Reorders d := ⟨rfl, .refl _, rfl, .refl _⟩

variable {σ : Type} {s : Storage σ}

/-- Requests served over a storage one after the other, with what that left and the states in the
end; the tables may have their entries in any order when a request begins. -/
inductive RunsOver (s : Storage σ) : Dispatcher → σ → List Service → Dispatcher → σ → Prop
  | nil (d : Dispatcher) (state : σ) : RunsOver s d state [] d state
  | cons {d mid d' : Dispatcher} {state next state' : σ} {request : Request} {r : Service}
    {hist : List Service} (reorders : d.Reorders mid)
    (serves : serveOver s mid state request = (r, next))
    (later : RunsOver s r.after next hist d' state') : RunsOver s d state (r :: hist) d' state'

theorem runsOver_serveAll (s : Storage σ) (d : Dispatcher) (state : σ) (requests : List Request) :
    RunsOver s d state (serveAll s d state requests) (stateAfter s d state requests).1
      (stateAfter s d state requests).2 := by
  induction requests generalizing d state with
  | nil => exact .nil d state
  | cons request requests ih => exact .cons (.refl d) rfl (ih _ _)

/-- What serving a request over a storage leaves. -/
theorem of_serveOver {d : Dispatcher} {state next : σ} {request : Request} {r : Service}
    (h : serveOver s d state request = (r, next)) :
    r.Possible ∧ r.before = d ∧ s.Answers state r.events next := by
  have hpossible := serveOver_possible s d state request
  have hanswers := serveOver_answers s d state request
  have hbefore : (serveOver s d state request).1.before = d := rfl
  rw [h] at hpossible hanswers hbefore
  exact ⟨hpossible, hbefore, hanswers⟩

namespace RunsOver

variable {d d' : Dispatcher} {state state' : σ} {hist : List Service}

/-- A run that goes on is a run and another one after it. -/
theorem of_append {first rest : List Service} (h : RunsOver s d state (first ++ rest) d' state') :
    ∃ mid midState, RunsOver s d state first mid midState ∧
      RunsOver s mid midState rest d' state' := by
  induction first generalizing d state with
  | nil => exact ⟨d, state, .nil d state, h⟩
  | cons r first ih =>
    cases h with
    | cons reorders serves later =>
      obtain ⟨mid, midState, hfirst, hrest⟩ := ih later
      exact ⟨mid, midState, .cons reorders serves hfirst, hrest⟩

theorem append {mid : Dispatcher} {midState : σ} {first rest : List Service}
    (h : RunsOver s d state first mid midState) (later : RunsOver s mid midState rest d' state') :
    RunsOver s d state (first ++ rest) d' state' := by
  induction h with
  | nil => exact later
  | cons reorders serves _ ih => exact .cons reorders serves (ih later)

theorem possible (h : RunsOver s d state hist d' state') : ∀ r ∈ hist, r.Possible := by
  induction h with
  | nil => simp
  | cons _ serves _ ih => exact List.forall_mem_cons.2 ⟨(of_serveOver serves).1, ih⟩

theorem answers (h : RunsOver s d state hist d' state') :
    s.Answers state (hist.flatMap (·.events)) state' := by
  induction h with
  | nil => exact rfl
  | cons _ serves _ ih =>
    rw [List.flatMap_cons, Storage.answers_append]
    exact ⟨_, (of_serveOver serves).2.2, ih⟩

/-- What neither a service nor the order of entries affects holds before each service and in the
end. -/
theorem invariant {P : Dispatcher → Prop} (h : RunsOver s d state hist d' state') (start : P d)
    (reorder : ∀ d mid, d.Reorders mid → P d → P mid)
    (step : ∀ r ∈ hist, r.Possible → P r.before → P r.after) :
    (∀ r ∈ hist, P r.before) ∧ P d' := by
  induction h with
  | nil => exact ⟨by simp, start⟩
  | cons reorders serves _ ih =>
    obtain ⟨hpossible, rfl, _⟩ := of_serveOver serves
    obtain ⟨hfirst, hrest⟩ := List.forall_mem_cons.1 step
    have hbefore := reorder _ _ reorders start
    obtain ⟨hall, hend⟩ := ih (hfirst hpossible hbefore) hrest
    exact ⟨List.forall_mem_cons.2 ⟨hbefore, hall⟩, hend⟩

end RunsOver
end Dispatcher
end InodeBridge
