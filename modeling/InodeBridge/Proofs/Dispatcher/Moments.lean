import InodeBridge.Proofs.Dispatcher.Reordering

/-! # Runs of a mounted dispatcher

A run of a mounted dispatcher is a list of moments: requests are taken, make their calls and are
answered, one after the other, and workers make the reads that were put aside anywhere in between.  What
is left of a request that is being served says what it can still become.
-/
namespace InodeBridge

open Storage (Call Event)

theorem Program.exists_yields {α : Type} (p : Program α) : ∃ events a, p.Yields events a := by
  induction p with
  | done a => exact ⟨[], a, rfl, rfl⟩
  | call c next ih =>
    obtain ⟨events, a, h⟩ := ih (.error (.host Errno.inputOutput))
    exact ⟨_, a, _, events, rfl, h⟩

namespace Dispatcher

def Moment.events : Moment → List Event
  | .called event => [event]
  | .fetched read result => [⟨read.call, result⟩]
  | .taken _ | .deferred _ | .answered _ => []

def Moment.taken? : Moment → Option Request
  | .taken request => some request
  | .deferred _ | .called _ | .answered _ | .fetched .. => none

def Moment.service? : Moment → Option Service
  | .answered service => some service
  | .taken _ | .deferred _ | .called _ | .fetched .. => none

def Moment.fetched? : Moment → Option (PendingRead × Except StorageError Bytes)
  | .fetched read result => some (read, result)
  | .taken _ | .deferred _ | .called _ | .answered _ => none

def Moment.outcome? : Moment → Option (Option Outcome)
  | .answered service => some service.outcome
  | .fetched _ result => some (some (readOutcome result))
  | .taken _ | .deferred _ | .called _ => none

/-- The calls made at some moments, in order: those of requests and those of workers. -/
def eventsIn (hist : List Moment) : List Event := hist.flatMap Moment.events

theorem eventsIn_append (first rest : List Moment) :
    eventsIn (first ++ rest) = eventsIn first ++ eventsIn rest := List.flatMap_append

theorem eventsIn_concat (hist : List Moment) (moment : Moment) :
    eventsIn (hist ++ [moment]) = eventsIn hist ++ moment.events := by
  rw [eventsIn_append, eventsIn, eventsIn, List.flatMap_singleton]

section Reads

variable {d : Dispatcher} {request : Request} {read : PendingRead}

/-- A read is put aside where reads are asynchronous and its operands are good. -/
theorem deferred?_eq_some_iff : d.deferred? request = some read ↔
    d.options.asyncReads = true ∧ ∃ inode handle offset size,
      request = .read inode handle offset size ∧ d.targetOf handle offset size = .ok read := by
  cases request with
  | read inode handle offset size =>
    rw [deferred?, Handler.reads_readTarget handle offset size d]
    cases d.options.asyncReads <;> cases htarget : d.targetOf handle offset size <;> simp [htarget]
  | _ => simp [deferred?]

theorem held_of_deferred? (h : d.deferred? request = some read) :
    ∃ file, d.handles.get? read.handle = some file ∧ read.fd = file.fd := by
  obtain ⟨_, _, _, _, _, _, htarget⟩ := deferred?_eq_some_iff.1 h
  obtain ⟨_, file, _, hheld, rfl⟩ := targetOf_eq_ok_iff.1 htarget
  exact ⟨file, hheld, rfl⟩

/-- What is put aside is the call of the request and the answer to it, and nothing else is left. -/
theorem serve_of_deferred? (h : d.deferred? request = some read) :
    (serve request).run d = .call read.call fun result => .done (some (readOutcome result), d) := by
  obtain ⟨_, _, handle, offset, size, rfl, htarget⟩ := deferred?_eq_some_iff.1 h
  rw [serve, run_answer, Dispatcher.read,
    (Handler.reads_readTarget handle offset size).run_bind_ok htarget]
  rfl

end Reads

namespace Mounted

variable {σ : Type} {s : Storage σ} {m m' mid : Mounted σ} {hist : List Moment} {moment : Moment}

inductive Steps (s : Storage σ) (m : Mounted σ) : Moment → Mounted σ → Prop
  | taken {request : Request} (idle : m.serving = none)
    (kept : m.dispatcher.deferred? request = none) :
    Steps s m (.taken request)
      { m with serving := some ⟨request, [], (serve request).run m.dispatcher⟩ }
  | deferred {request : Request} {read : PendingRead} (idle : m.serving = none)
    (defers : m.dispatcher.deferred? request = some read) :
    Steps s m (.deferred read) { m with pending := m.pending ++ [read] }
  | called {request : Request} {events : List Event} {c : Call} {result : c.Result} {storage : σ}
    {next : c.Result → Program (Option Outcome × Dispatcher)}
    (serving : m.serving = some ⟨request, events, .call c next⟩)
    (performs : s.perform c m.storage = (result, storage)) :
    Steps s m (.called ⟨c, result⟩)
      { m with storage, serving := some ⟨request, events ++ [⟨c, result⟩], next result⟩ }
  | answered {request : Request} {events : List Event} {outcome : Option Outcome}
    {after : Dispatcher} (serving : m.serving = some ⟨request, events, .done (outcome, after)⟩) :
    Steps s m (.answered ⟨m.dispatcher, request, events, outcome, after⟩)
      { m with dispatcher := after, serving := none }
  | fetched {index : Nat} {read : PendingRead} {result : Except StorageError Bytes} {storage : σ}
    (waits : m.pending[index]? = some read)
    (performs : s.perform read.call m.storage = (result, storage)) :
    Steps s m (.fetched read result) { m with storage, pending := m.pending.eraseIdx index }

theorem steps_of_act {a : Act} (h : m.act s a = some (moment, m')) : m.Steps s moment m' := by
  cases a with
  | take request =>
    simp only [act] at h
    split at h
    · cases h
    next idle defers =>
      cases h
      exact .deferred idle defers
    next idle kept =>
      cases h
      exact .taken idle kept
  | proceed =>
    simp only [act] at h
    split at h
    · cases h
    next serving =>
      cases h
      exact .called serving rfl
    next serving =>
      cases h
      exact .answered serving
  | fetch index =>
    simp only [act] at h
    split at h
    · cases h
    next waits =>
      cases h
      exact .fetched waits rfl

/-- What is done over a storage, moment after moment; while no request is being served, the tables may
get their entries in another order. -/
inductive Runs (s : Storage σ) (m : Mounted σ) : List Moment → Mounted σ → Prop
  | start : Runs s m [] m
  | next {mid m' : Mounted σ} {hist : List Moment} {a : Act} {moment : Moment}
    (earlier : Runs s m hist mid) (acts : mid.act s a = some (moment, m')) :
    Runs s m (hist ++ [moment]) m'
  | reordered {mid : Mounted σ} {hist : List Moment} {d : Dispatcher} (earlier : Runs s m hist mid)
    (idle : mid.serving = none) (reorders : mid.dispatcher.Reorders d) :
    Runs s m hist { mid with dispatcher := d }

/-- What each moment and every order of the entries keeps, holds after a run. -/
theorem Runs.invariant {P : List Moment → Mounted σ → Prop} (h : Runs s m hist m')
    (start : P [] m)
    (step : ∀ hist moment mid next, Runs s m hist mid → P hist mid → mid.Steps s moment next →
      P (hist ++ [moment]) next)
    (reorder : ∀ hist mid d, Runs s m hist mid → P hist mid → mid.serving = none →
      mid.dispatcher.Reorders d → P hist { mid with dispatcher := d }) : P hist m' := by
  induction h with
  | start => exact start
  | next earlier acts ih => exact step _ _ _ _ earlier ih (steps_of_act acts)
  | reordered earlier idle reorders ih =>
    exact reorder _ _ _ earlier ih idle reorders

theorem Runs.of_moment {before rest : List Moment}
    (h : Runs s m (before ++ moment :: rest) m') :
    ∃ mid next, Runs s m before mid ∧ mid.Steps s moment next ∧ Runs s next rest m' := by
  generalize hsplit : before ++ moment :: rest = hist at h
  induction h generalizing rest with
  | start => simp at hsplit
  | @next mid m' hist a last earlier acts ih =>
    rcases List.eq_nil_or_concat' rest with rfl | ⟨rest, last', rfl⟩
    · obtain ⟨rfl, hlast⟩ := List.append_inj' hsplit rfl
      cases hlast
      exact ⟨mid, m', earlier, steps_of_act acts, .start⟩
    · rw [← List.cons_append, ← List.append_assoc] at hsplit
      obtain ⟨hinit, hlast⟩ := List.append_inj' hsplit rfl
      cases hlast
      obtain ⟨first, next, hfirst, hstep, hrest⟩ := ih hinit
      exact ⟨first, next, hfirst, hstep, hrest.next acts⟩
  | reordered _ idle reorders ih =>
    obtain ⟨first, next, hfirst, hstep, hrest⟩ := ih hsplit
    exact ⟨first, next, hfirst, hstep, hrest.reordered idle reorders⟩

theorem Runs.append {rest : List Moment} (h : Runs s m hist mid) (later : Runs s mid rest m') :
    Runs s m (hist ++ rest) m' := by
  induction later with
  | start => rwa [List.append_nil]
  | next _ acts ih =>
    rw [← List.append_assoc]
    exact ih.next acts
  | reordered _ idle reorders ih => exact ih.reordered idle reorders

theorem Runs.single {a : Act} (h : m.act s a = some (moment, m')) : Runs s m [moment] m' :=
  Runs.start.next h

theorem runs_actAll (s : Storage σ) (m : Mounted σ) (acts : List Act) :
    Runs s m (m.actAll s acts).1 (m.actAll s acts).2 := by
  induction acts generalizing m with
  | nil => exact .start
  | cons a acts ih =>
    rw [actAll]
    split
    · exact ih m
    next hact => exact (Runs.single hact).append (ih _)

def made (m : Mounted σ) : List Event := (m.serving.map (·.events)).getD []

theorem made_of_idle (h : m.serving = none) : m.made = [] := by rw [made, h]; rfl

theorem made_of_serving {request : Request} {events : List Event}
    {rest : Program (Option Outcome × Dispatcher)} (h : m.serving = some ⟨request, events, rest⟩) :
    m.made = events := by
  rw [made, h]
  rfl

/-- What is known after some moments since no request was being served: the calls of the requests are
among those made, and what is left of the one that is being served completes it. -/
structure Traced (hist : List Moment) (m : Mounted σ) : Prop where
  made : m.made.Sublist (eventsIn hist)
  completes : ∀ {request events rest}, m.serving = some ⟨request, events, rest⟩ →
    ∀ {more outcome after}, rest.Yields more (outcome, after) →
      Service.Possible ⟨m.dispatcher, request, events ++ more, outcome, after⟩
  answered : ∀ r, .answered r ∈ hist → r.Possible ∧ r.events.Sublist (eventsIn hist)

section Traced

variable {request : Request} {events : List Event} {rest : Program (Option Outcome × Dispatcher)}

/-- The request that is being served can be completed with the calls that it has made. -/
theorem Traced.exists_conduct (h : Traced hist m) (serving : m.serving = some ⟨request, events, rest⟩) :
    ∃ more outcome after, Conduct m.dispatcher request (events ++ more) outcome after := by
  obtain ⟨more, ⟨outcome, after⟩, hyields⟩ := rest.exists_yields
  exact ⟨more, outcome, after, serve_conduct (h.completes serving hyields)⟩

theorem Traced.conduct {outcome : Option Outcome} {after : Dispatcher} (h : Traced hist m)
    (serving : m.serving = some ⟨request, events, .done (outcome, after)⟩) :
    Conduct m.dispatcher request events outcome after := by
  have hdone : (Program.done (outcome, after)).Yields [] (outcome, after) := ⟨rfl, rfl⟩
  have hconduct := serve_conduct (h.completes serving hdone)
  rwa [List.append_nil] at hconduct

theorem Traced.concat_answered (h : Traced hist m) (hother : ∀ r, moment ≠ .answered r) :
    ∀ r, .answered r ∈ hist ++ [moment] →
      r.Possible ∧ r.events.Sublist (eventsIn (hist ++ [moment])) := by
  intro r hr
  rcases List.mem_append.1 hr with hr | hr
  · obtain ⟨hpossible, hevents⟩ := h.answered r hr
    rw [eventsIn_concat]
    exact ⟨hpossible, hevents.trans (List.sublist_append_left _ _)⟩
  · exact absurd (List.mem_singleton.1 hr).symm (hother r)

theorem Traced.next (h : Traced hist m) (hstep : m.Steps s moment m') :
    Traced (hist ++ [moment]) m' := by
  cases hstep with
  | taken =>
    refine ⟨List.nil_sublist _, fun {_ _ _} serving {_ _ _} hyields => ?_, h.concat_answered (by simp)⟩
    cases serving
    exact hyields
  | deferred =>
    refine ⟨?_, h.completes, h.concat_answered (by simp)⟩
    rw [eventsIn_concat]
    exact h.made.trans (List.sublist_append_left _ _)
  | @called request events c result storage next serving =>
    refine ⟨?_, fun {_ _ _} serving' {_ _ _} hyields => ?_, h.concat_answered (by simp)⟩
    · rw [eventsIn_concat]
      exact (made_of_serving serving ▸ h.made).append (List.Sublist.refl _)
    · cases serving'
      rw [List.append_assoc]
      exact h.completes serving ⟨result, _, rfl, hyields⟩
  | @answered request events outcome after serving =>
    have hdone : (Program.done (outcome, after)).Yields [] (outcome, after) := ⟨rfl, rfl⟩
    have hpossible := h.completes serving hdone
    rw [List.append_nil] at hpossible
    refine ⟨List.nil_sublist _, by simp, fun r hr => ?_⟩
    rw [eventsIn_concat]
    rcases List.mem_append.1 hr with hr | hr
    · obtain ⟨hpossible, hevents⟩ := h.answered r hr
      exact ⟨hpossible, hevents.trans (List.sublist_append_left _ _)⟩
    · cases List.mem_singleton.1 hr
      refine ⟨hpossible, ?_⟩
      exact (made_of_serving serving ▸ h.made).trans (List.sublist_append_left _ _)
  | fetched =>
    refine ⟨?_, h.completes, h.concat_answered (by simp)⟩
    rw [eventsIn_concat]
    exact h.made.trans (List.sublist_append_left _ _)

end Traced

theorem Runs.traced (h : Runs s m hist m') (idle : m.serving = none) : Traced hist m' := by
  refine h.invariant (P := Traced) ?_ (fun _ _ _ _ _ ih hstep => ih.next hstep) fun _ _ _ _ ih idle _ => ?_
  · refine ⟨?_, by simp [idle], by simp⟩
    rw [made_of_idle idle]
    exact List.nil_sublist _
  · exact ⟨ih.made, by simp [idle], ih.answered⟩

theorem Runs.options (h : Runs s m hist m') (idle : m.serving = none) :
    m'.dispatcher.options = m.dispatcher.options := by
  refine h.invariant (P := fun _ m' => m'.dispatcher.options = m.dispatcher.options) rfl ?_ ?_
  · intro hist moment mid next hrun ih hstep
    cases hstep with
    | answered serving =>
      have hpossible := (hrun.traced idle).completes serving ⟨rfl, rfl⟩
      exact (serve_effect hpossible).1.trans ih
    | _ => exact ih
  · exact fun _ _ _ _ ih _ reorders => reorders.options.trans ih

theorem Runs.deferred_of_waits (h : Runs s m hist m') (hnone : m.pending = []) :
    (∀ read ∈ m'.pending, .deferred read ∈ hist) ∧
      ∀ read result, .fetched read result ∈ hist → .deferred read ∈ hist := by
  refine h.invariant (P := fun hist m' => (∀ read ∈ m'.pending, .deferred read ∈ hist) ∧
    ∀ read result, .fetched read result ∈ hist → .deferred read ∈ hist) (by simp [hnone]) ?_ ?_
  · rintro hist moment mid next - ⟨hwaits, hmade⟩ hstep
    cases hstep with
    | taken | called | answered => simpa using ⟨hwaits, hmade⟩
    | @deferred _ read =>
      refine ⟨fun other hother => ?_, fun other result hother => ?_⟩
      · rcases List.mem_append.1 hother with hother | hother
        · exact List.mem_append_left _ (hwaits other hother)
        · rw [List.mem_singleton.1 hother]
          exact List.mem_concat_self
      · exact List.mem_append_left _ (hmade other result (by simpa using hother))
    | @fetched _ read _ _ waits =>
      refine ⟨fun other hother => ?_, fun other result hother => List.mem_append_left _ ?_⟩
      · exact List.mem_append_left _ (hwaits other (List.mem_of_mem_eraseIdx hother))
      · rcases List.mem_append.1 hother with hother | hother
        · exact hmade other result hother
        · cases List.mem_singleton.1 hother
          exact hwaits read (List.mem_of_getElem? waits)
  · exact fun _ _ _ _ ih _ _ => ih

theorem Runs.async_of_deferred (h : Runs s m hist m') (idle : m.serving = none) {read : PendingRead}
    (hread : .deferred read ∈ hist) : m.dispatcher.options.asyncReads = true := by
  obtain ⟨before, rest, rfl⟩ := List.append_of_mem hread
  obtain ⟨mid, _, hbefore, hstep, _⟩ := h.of_moment
  cases hstep with
  | deferred _ defers =>
    rw [← hbefore.options idle]
    exact (deferred?_eq_some_iff.1 defers).1

section Awaited

variable {d d' : Dispatcher} {state state' : σ}

theorem runs_to_answer (s : Storage σ) (d : Dispatcher) (request : Request)
    (p : Program (Option Outcome × Dispatcher)) (events : List Event) (state : σ) :
    let run := p.run s state
    ∃ hist, Runs s ⟨d, state, some ⟨request, events, p⟩, []⟩ hist (.idle run.result.2 run.state) ∧
      eventsIn hist = run.trace ∧ hist.filterMap Moment.outcome? = [run.result.1] := by
  induction p generalizing events state with
  | done result => exact ⟨_, .single (a := .proceed) rfl, rfl, rfl⟩
  | call c next ih =>
    obtain ⟨hist, hruns, hevents, houtcome⟩ :=
      ih (s.perform c state).1 (events ++ [⟨c, (s.perform c state).1⟩]) (s.perform c state).2
    have hcalled : Runs s ⟨d, state, some ⟨request, events, .call c next⟩, []⟩ _ _ :=
      .single (a := .proceed) rfl
    exact ⟨_, hcalled.append hruns, congrArg (_ :: ·) hevents, houtcome⟩

/-- A request that is awaited is taken and served, or put aside and fetched; the calls, the answer and
what is left are the same. -/
theorem runs_serveOver (s : Storage σ) (d : Dispatcher) (state : σ) (request : Request) :
    let served := serveOver s d state request
    ∃ hist, Runs s (.idle d state) hist (.idle served.1.after served.2) ∧
      eventsIn hist = served.1.events ∧ hist.filterMap Moment.outcome? = [served.1.outcome] := by
  intro served
  cases hdeferred : d.deferred? request with
  | none =>
    have htaken : Runs s (.idle d state) [.taken request]
        ⟨d, state, some ⟨request, [], (serve request).run d⟩, []⟩ :=
      .single (a := .take request) (by simp only [act, idle, hdeferred])
    obtain ⟨hist, hruns, hrest⟩ := runs_to_answer s d request ((serve request).run d) [] state
    exact ⟨_, htaken.append hruns, hrest⟩
  | some read =>
    have hdefers : Runs s (.idle d state) [.deferred read] ⟨d, state, none, [read]⟩ :=
      .single (a := .take request) (by simp [act, idle, hdeferred])
    have hfetched : Runs s ⟨d, state, none, [read]⟩ [.fetched read (s.perform read.call state).1]
        (.idle d (s.perform read.call state).2) := .single (a := .fetch 0) rfl
    have hserved : served = (⟨d, request, [⟨read.call, (s.perform read.call state).1⟩],
        some (readOutcome (s.perform read.call state).1), d⟩, (s.perform read.call state).2) := by
      simp only [served, serveOver, serve_of_deferred? hdeferred]
      rfl
    rw [hserved]
    exact ⟨_, hdefers.append hfetched, rfl, rfl⟩

/-- Where each request is awaited before the next one is taken, the mounted dispatcher does what the
dispatcher does. -/
theorem runs_of_runsOver {hist : List Service} (h : RunsOver s d state hist d' state') :
    ∃ moments, Runs s (.idle d state) moments (.idle d' state') ∧
      eventsIn moments = hist.flatMap (·.events) ∧
      moments.filterMap Moment.outcome? = hist.map (·.outcome) := by
  induction h with
  | nil => exact ⟨[], .start, rfl, rfl⟩
  | @cons d mid d' state next state' request r hist reorders serves later ih =>
    obtain ⟨rest, hrest, hevents, houtcomes⟩ := ih
    obtain ⟨first, hfirst, hcalls, houtcome⟩ := runs_serveOver s mid state request
    rw [serves] at hfirst hcalls houtcome
    have hreordered : Runs s (.idle d state) [] (.idle mid state) := Runs.start.reordered rfl reorders
    refine ⟨_, hreordered.append (hfirst.append hrest), ?_, ?_⟩
    · rw [List.nil_append, eventsIn_append, hcalls, hevents]
      rfl
    · rw [List.nil_append, List.filterMap_append, houtcome, houtcomes]
      rfl

end Awaited

end Mounted
end Dispatcher
end InodeBridge
