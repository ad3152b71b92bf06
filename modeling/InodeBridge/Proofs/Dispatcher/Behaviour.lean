import InodeBridge.Dispatcher
import Mathlib

/-! # What programs and handlers can do

A program yields a result with a list of calls and answers if it makes these calls in order and goes
on to that result when it gets these answers.  What it yields does not depend on a storage: a run over
any storage is one of the things the program can do, and the storage accounts for the answers.
-/
namespace InodeBridge

open Storage (Call Event)

/-- A storage gives these answers to these calls, one after the other, and ends in a state. -/
def Storage.Answers {σ : Type} (s : Storage σ) : σ → List Event → σ → Prop
  | state, [], state' => state' = state
  | state, event :: events, state' =>
    ∃ mid, s.perform event.call state = (event.result, mid) ∧ s.Answers mid events state'

theorem Storage.answers_append {σ : Type} {s : Storage σ} {first rest : List Event}
    {state state' : σ} :
    s.Answers state (first ++ rest) state' ↔
      ∃ mid, s.Answers state first mid ∧ s.Answers mid rest state' := by
  induction first generalizing state with
  | nil => simp [Answers]
  | cons event first ih =>
    simp only [List.cons_append, Answers, ih]
    constructor
    · rintro ⟨next, hnext, mid, hmid, hrest⟩
      exact ⟨mid, ⟨next, hnext, hmid⟩, hrest⟩
    · rintro ⟨mid, ⟨next, hnext, hmid⟩, hrest⟩
      exact ⟨next, hnext, mid, hmid, hrest⟩

theorem Storage.Answers.perform_of_mem {σ : Type} {s : Storage σ} {state state' : σ}
    {events : List Event} (h : s.Answers state events state') :
    ∀ event ∈ events, ∃ met, (s.perform event.call met).1 = event.result := by
  induction events generalizing state with
  | nil => simp
  | cons event events ih =>
    obtain ⟨mid, hcall, hrest⟩ := h
    exact List.forall_mem_cons.2 ⟨⟨state, by rw [hcall]⟩, ih hrest⟩

theorem Storage.Answers.of_keeping {σ : Type} {s : Storage σ} {state state' : σ}
    {events : List Event} (h : s.Answers state events state')
    (keeps : ∀ event ∈ events, (s.perform event.call state).2 = state) :
    state' = state ∧ ∀ event ∈ events, (s.perform event.call state).1 = event.result := by
  induction events generalizing state' with
  | nil => exact ⟨h, by simp⟩
  | cons event events ih =>
    obtain ⟨mid, hcall, hrest⟩ := h
    obtain rfl : state = mid := by
      have := keeps event (by simp)
      rwa [hcall, eq_comm] at this
    obtain ⟨hstate, hevents⟩ := ih hrest fun e he => keeps e (List.mem_cons_of_mem _ he)
    refine ⟨hstate, fun e he => ?_⟩
    rcases List.mem_cons.1 he with rfl | he
    · rw [hcall]
    · exact hevents e he

namespace Program

variable {α β σ : Type}

/-- A program makes these calls, gets these answers, and ends with a result. -/
def Yields : Program α → List Event → α → Prop
  | .done a, events, b => events = [] ∧ b = a
  | .call c next, events, b => ∃ r rest, events = ⟨c, r⟩ :: rest ∧ (next r).Yields rest b

theorem yields_bind {p : Program α} {f : α → Program β} {events : List Event} {b : β} :
    (p.bind f).Yields events b ↔
      ∃ first rest a, events = first ++ rest ∧ p.Yields first a ∧ (f a).Yields rest b := by
  induction p generalizing events with
  | done a =>
    constructor
    · intro h
      exact ⟨[], events, a, rfl, ⟨rfl, rfl⟩, h⟩
    · rintro ⟨_, _, _, rfl, ⟨rfl, rfl⟩, h⟩
      exact h
  | call c next ih =>
    simp only [bind, Yields, ih]
    constructor
    · rintro ⟨r, _, rfl, first, rest, a, rfl, hfirst, hrest⟩
      exact ⟨⟨c, r⟩ :: first, rest, a, rfl, ⟨r, first, rfl, hfirst⟩, hrest⟩
    · rintro ⟨_, rest, a, rfl, ⟨r, first, rfl, hfirst⟩, hrest⟩
      exact ⟨r, first ++ rest, rfl, first, rest, a, rfl, hfirst, hrest⟩

theorem run_bind (s : Storage σ) (p : Program α) (f : α → Program β) (state : σ) :
    (p.bind f).run s state =
      let first := p.run s state
      let rest := (f first.result).run s first.state
      ⟨rest.result, rest.state, first.trace ++ rest.trace⟩ := by
  induction p generalizing state with
  | done a => rfl
  | call c next ih => simp only [bind_call, run, ih, List.cons_append]

theorem run_yields (s : Storage σ) (p : Program α) (state : σ) :
    p.Yields (p.run s state).trace (p.run s state).result := by
  induction p generalizing state with
  | done a => exact ⟨rfl, rfl⟩
  | call c next ih => exact ⟨_, _, rfl, ih _ _⟩

theorem run_answers (s : Storage σ) (p : Program α) (state : σ) :
    s.Answers state (p.run s state).trace (p.run s state).state := by
  induction p generalizing state with
  | done a => exact rfl
  | call c next ih => exact ⟨_, rfl, ih _ _⟩

end Program

namespace Dispatcher

variable {α β : Type} {d d' : Dispatcher} {events : List Event}

def Action.Does (m : Action α) (d : Dispatcher) (events : List Event) (a : α) (d' : Dispatcher) :
    Prop :=
  (m.run d).Yields events (a, d')

namespace Handler

def Does (m : Handler α) (d : Dispatcher) (events : List Event) (r : Except RequestError α)
    (d' : Dispatcher) : Prop :=
  Action.Does m.run d events r d'

variable {r : Except RequestError α}

@[simp] theorem does_pure {a : α} :
    (pure a : Handler α).Does d events r d' ↔ events = [] ∧ r = .ok a ∧ d' = d := by
  simp [Does, Action.Does, pure, ExceptT.pure, ExceptT.mk, ExceptT.run, StateT.pure, StateT.run,
    Program.Yields]

@[simp] theorem does_throw {e : RequestError} :
    (throw e : Handler α).Does d events r d' ↔ events = [] ∧ r = .error e ∧ d' = d := by
  simp [Does, Action.Does, throw, throwThe, MonadExceptOf.throw, pure, ExceptT.mk, ExceptT.run,
    StateT.pure, StateT.run, Program.Yields]

/-- A sequence fails with its first part, or goes on with what that gives. -/
theorem does_bind {m : Handler α} {f : α → Handler β} {r : Except RequestError β} :
    (m >>= f).Does d events r d' ↔
      (∃ e, r = .error e ∧ m.Does d events (.error e) d') ∨
        ∃ a first mid rest, events = first ++ rest ∧ m.Does d first (.ok a) mid ∧
          (f a).Does mid rest r d' := by
  have hrun : ((m >>= f).run.run d) =
      (m.run.run d).bind fun p => ExceptT.bindCont f p.1 |>.run p.2 := rfl
  rw [Does, Action.Does, hrun, Program.yields_bind]
  constructor
  · rintro ⟨first, rest, ⟨res, mid⟩, rfl, hm, hf⟩
    cases res with
    | error e =>
      obtain ⟨rfl, hb⟩ := hf
      cases hb
      exact .inl ⟨e, rfl, by simpa [Does, Action.Does] using hm⟩
    | ok a => exact .inr ⟨a, first, mid, rest, rfl, hm, hf⟩
  · rintro (⟨e, rfl, hm⟩ | ⟨a, first, mid, rest, rfl, hm, hf⟩)
    · exact ⟨events, [], _, by simp, hm, rfl, rfl⟩
    · exact ⟨first, rest, _, rfl, hm, hf⟩

theorem does_tryCatch {m : Handler α} {handle : RequestError → Handler α} :
    (tryCatch m handle).Does d events r d' ↔
      (∃ a, r = .ok a ∧ m.Does d events (.ok a) d') ∨
        ∃ e first mid rest, events = first ++ rest ∧ m.Does d first (.error e) mid ∧
          (handle e).Does mid rest r d' := by
  have hrun : ((tryCatch m handle : Handler α).run.run d) =
      (m.run.run d).bind fun p =>
        (match p.1 with
          | .ok a => pure (.ok a)
          | .error e => (handle e).run : Action _).run p.2 := by
    change (m.run.run d).bind _ = (m.run.run d).bind _
    congr 1
    funext ⟨res, mid⟩
    cases res <;> rfl
  rw [Does, Action.Does, hrun, Program.yields_bind]
  constructor
  · rintro ⟨first, rest, ⟨res, mid⟩, rfl, hm, hf⟩
    cases res with
    | ok a =>
      obtain ⟨rfl, hb⟩ := hf
      cases hb
      exact .inl ⟨a, rfl, by simpa [Does, Action.Does] using hm⟩
    | error e => exact .inr ⟨e, first, mid, rest, rfl, hm, hf⟩
  · rintro (⟨a, rfl, hm⟩ | ⟨e, first, mid, rest, rfl, hm, hf⟩)
    · exact ⟨events, [], _, by simp, hm, rfl, rfl⟩
    · exact ⟨first, rest, _, rfl, hm, hf⟩

@[simp] theorem does_get {r : Except RequestError Dispatcher} :
    (get : Handler Dispatcher).Does d events r d' ↔ events = [] ∧ r = .ok d ∧ d' = d := by
  change (Program.done (Except.ok d, d)).Yields events (r, d') ↔ _
  simp [Program.Yields]

@[simp] theorem does_attempt {c : Call} {r : Except RequestError c.Result} :
    (attempt c).Does d events r d' ↔
      ∃ result, events = [⟨c, result⟩] ∧ r = .ok result ∧ d' = d := by
  change (Program.call c fun result => .done (Except.ok result, d)).Yields events (r, d') ↔ _
  simp only [Program.Yields, Prod.mk.injEq]
  constructor
  · rintro ⟨result, _, rfl, rfl, hr, hd⟩
    exact ⟨result, rfl, hr, hd⟩
  · rintro ⟨result, rfl, hr, hd⟩
    exact ⟨result, [], rfl, rfl, hr, hd⟩

@[simp] theorem does_withInodes {f : InodeTable → α × InodeTable} :
    (withInodes f).Does d events r d' ↔
      events = [] ∧ r = .ok (f d.inodes).1 ∧ d' = { d with inodes := (f d.inodes).2 } := by
  change (Program.done (Except.ok (f d.inodes).1, { d with inodes := (f d.inodes).2 })).Yields
    events (r, d') ↔ _
  simp [Program.Yields]

@[simp] theorem does_withHandles {f : HandleTable OpenFile → α × HandleTable OpenFile} :
    (withHandles f).Does d events r d' ↔
      events = [] ∧ r = .ok (f d.handles).1 ∧ d' = { d with handles := (f d.handles).2 } := by
  change (Program.done (Except.ok (f d.handles).1, { d with handles := (f d.handles).2 })).Yields
    events (r, d') ↔ _
  simp [Program.Yields]

@[simp] theorem does_performOr {blame : StorageError → RequestError} {c : Call}
    {r : Except RequestError c.Answer} :
    (performOr blame c).Does d events r d' ↔
      ∃ result : c.Result, events = [⟨c, result⟩] ∧ d' = d ∧ r = result.mapError blame := by
  rw [performOr, does_bind]
  simp only [does_attempt]
  constructor
  · rintro (⟨e, _, result, _, h, _⟩ | ⟨a, _, _, rest, rfl, ⟨result, rfl, h, rfl⟩, hrest⟩)
    · simp at h
    · obtain rfl : a = result := Except.ok.inj h
      cases a <;> simp_all [Except.mapError]
  · rintro ⟨result, rfl, rfl, rfl⟩
    refine .inr ⟨result, _, _, [], rfl, ⟨result, rfl, rfl, rfl⟩, ?_⟩
    cases result <;> simp [Except.mapError]

@[simp] theorem does_perform {c : Call} {r : Except RequestError c.Answer} :
    (perform c).Does d events r d' ↔
      ∃ result : c.Result, events = [⟨c, result⟩] ∧ d' = d ∧ r = result.mapError .storage :=
  does_performOr

end Handler
end Dispatcher
end InodeBridge
